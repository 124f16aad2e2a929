import PsychWard.Common.Run
import PsychWard.Fat32.CdSpec
import PsychWard.Fat32.Consistency
import PsychWard.Fat32.PathSpec

/-!
# The working directory of the shell

The shell edits a string, `current_working_dir`, while the block driver follows the same path from
cluster to cluster. `Session` has both; a `cd` first asks the driver and then edits the string.

The string is cut at 63 bytes, and `cd ..` takes the last name off the string where the driver
follows the entry `..` of the directory. `Strays` is the step on which the two part: the string does
not fit, or the last name on it is not that of a directory in its parent.
-/

namespace PsychWard.Shell

open Fat32

/-- `CWD_SIZE` -/
def cwdSize : ℕ := 64

/-- The paths `"/"` and `".."`. -/
def rootPath : CString := [slash]
def parentPath : CString := [dot, dot]

/-- `build_absolute_path(target, arg, max_len)` for a positive `max_len`: the new contents of
`target`. -/
def buildAbsolutePath (cwd arg : CString) (maxLen : ℕ) : CString :=
  if arg.head? = some slash then arg.take (maxLen - 1)
  else
    let target := cwd.take (maxLen - 1)
    let target :=
      if target ≠ [] ∧ target.getLast? ≠ some slash ∧ target.length + 1 < maxLen then
        target ++ [slash]
      else target
    if target.length < maxLen - 1 then target ++ arg.take (maxLen - target.length - 1) else target

/-- `while (len > 0 && current_working_dir[len] != '/') len--;` -/
def backToSlash (cwd : CString) : ℕ → ℕ
  | 0 => 0
  | len + 1 => if cwd.getD (len + 1) 0 = slash then len + 1 else backToSlash cwd len

/-- The string after a successful `cd ..`. -/
def removeLast (cwd : CString) : CString :=
  if 1 < cwd.length then
    let len := cwd.length - 1
    let len := if cwd.getD len 0 = slash then len - 1 else len
    let len := backToSlash cwd len
    if len = 0 then rootPath else cwd.take len
  else cwd

/-- The string after a successful `cd`. -/
def editedCwd (cwd path : CString) : CString :=
  if myStrcmp path rootPath = 0 then rootPath
  else if myStrcmp path parentPath = 0 then removeLast cwd
  else buildAbsolutePath cwd path cwdSize

/-- `current_working_dir` of the shell and the mounted instance of the driver. -/
structure Session where
  cwd : CString
  fs : Fat32Instance

/-- What is typed after `cd`. -/
def Arg := { arg : CString // 0 ∉ arg }

/-- The path a `cd` sends to the driver. -/
def Arg.path (a : Arg) : CString := if a.1 = [] then rootPath else a.1

/-- The command `cd`. The driver reads at most 63 bytes of the path. -/
def Session.cd (d : Disk) (x : Session) (a : Arg) : Session :=
  match fat32Cd x.fs d (a.path.take 63) with
  | (true, fs) => ⟨editedCwd x.cwd a.path, fs⟩
  | (false, fs) => ⟨x.cwd, fs⟩

/-- The shell is at `"/"` and the driver in the root directory. -/
def Session.AtRoot (x : Session) : Prop :=
  x.cwd = rootPath ∧ x.fs.currentDirCluster = x.fs.rootCluster

/-- The string leads to the driver's current directory. -/
def Session.Agrees (d : Disk) (x : Session) : Prop :=
  lsTarget x.fs d x.cwd = some x.fs.currentDirCluster

/-- The name is that of a directory, and not `.` or `..`. -/
def NamesDir (fs : Fat32Instance) (d : Disk) (c : ℕ) (name : CString) : Prop :=
  ∃ f, lookup fs d c name = some f ∧ (f.entry d).isDir = true ∧ ¬ (f.entry d).IsDot

/-- The directories form a tree: the root directory is a cluster and has no entry without a name, and
`..` of a directory leads to the directory in which it was found. -/
structure Tree (fs : Fat32Instance) (d : Disk) : Prop where
  root : fs.rootCluster ≠ notFound ∧ fs.rootCluster ≠ 0
  nameless : enter fs d fs.rootCluster [] = none
  parent : ∀ ts c name e, follow fs d fs.rootCluster ts = some c → NamesDir fs d c name →
    enter fs d c name = some e → enter fs d e parentPath = some c

/-- The string and the driver part: the path does not fit, or `cd ..` is typed where the string ends
with two slashes or with something that is not the name of a directory. -/
inductive Strays (d : Disk) (x : Session) (a : Arg) : Prop
  | absolute (hhead : a.path.head? = some slash) (hlen : 63 < a.path.length)
  | relative (hhead : a.path.head? ≠ some slash) (hdots : a.path ≠ parentPath)
      (hlen : 63 < x.cwd.length + (if x.cwd.getLast? = some slash then 0 else 1) + a.path.length)
  | up (last : CString) (hdots : a.path = parentPath)
      (hlast : (pathComponents x.cwd).getLast? = some last)
      (h : [slash, slash] <:+ x.cwd ∨ ∃ c,
        follow x.fs d x.fs.rootCluster (pathComponents x.cwd).dropLast = some c ∧
          ¬ NamesDir x.fs d c last)

/-! ## The edits of the string -/

theorem backToSlash_self (u t : CString) : backToSlash (u ++ slash :: t) u.length = u.length := by
  cases hu : u.length with
  | zero => rfl
  | succ k =>
    rw [backToSlash, if_pos]
    rw [← hu]
    simp

/-- The loop stops at the slash before a name. -/
theorem backToSlash_eq {u t : CString} (w : CString) (ht : slash ∉ t) {n : ℕ} (hn : n < t.length) :
    backToSlash (u ++ slash :: (t ++ w)) (u.length + 1 + n) = u.length := by
  have hskip (k : ℕ) (hk : k < t.length) :
      (u ++ slash :: (t ++ w)).getD (u.length + 1 + k) 0 ≠ slash := by
    have hget : (u ++ slash :: (t ++ w)).getD (u.length + 1 + k) 0 = t[k] := by
      rw [List.getD_eq_getElem?_getD, List.getElem?_append_right (by omega),
        show u.length + 1 + k - u.length = k + 1 by omega, List.getElem?_cons_succ,
        List.getElem?_append_left hk, List.getElem?_eq_getElem hk]
      rfl
    rw [hget]
    exact ne_of_mem_of_not_mem (List.getElem_mem hk) ht
  induction n with
  | zero =>
    rw [show u.length + 1 + 0 = u.length + 1 from rfl, backToSlash, if_neg (hskip 0 hn)]
    exact backToSlash_self u _
  | succ n ih =>
    have hnext : (u ++ slash :: (t ++ w)).getD (u.length + 1 + n + 1) 0 ≠ slash := hskip (n + 1) hn
    rw [show u.length + 1 + (n + 1) = u.length + 1 + n + 1 by omega, backToSlash, if_neg hnext]
    exact ih (by omega)

/-- `cd ..` takes the last name and the slash before it off the string. -/
theorem removeLast_eq {u t w : CString} (ht : slash ∉ t) (hne : t ≠ [])
    (hw : w = [] ∨ w = [slash]) :
    removeLast (u ++ slash :: (t ++ w)) = if u = [] then rootPath else u := by
  have hpos := List.length_pos_iff.mpr hne
  have hlen : (u ++ slash :: (t ++ w)).length = u.length + 1 + t.length + w.length := by
    simp only [List.length_append, List.length_cons]
    omega
  -- a slash at the end is skipped, so the search starts at the last byte of the last name
  have hend : (if (u ++ slash :: (t ++ w)).getD ((u ++ slash :: (t ++ w)).length - 1) 0 = slash
      then (u ++ slash :: (t ++ w)).length - 1 - 1 else (u ++ slash :: (t ++ w)).length - 1) =
        u.length + 1 + (t.length - 1) := by
    rw [hlen]
    rcases hw with rfl | rfl
    · have hget : (u ++ slash :: (t ++ [])).getD
          (u.length + 1 + t.length + ([] : CString).length - 1) 0 = t[t.length - 1] := by
        rw [List.append_nil, List.length_nil, List.getD_eq_getElem?_getD,
          List.getElem?_append_right (by omega),
          show u.length + 1 + t.length + 0 - 1 - u.length = t.length - 1 + 1 by omega,
          List.getElem?_cons_succ, List.getElem?_eq_getElem (by omega)]
        rfl
      rw [hget, if_neg (ne_of_mem_of_not_mem (List.getElem_mem _) ht), List.length_nil]
      omega
    · have hget : (u ++ slash :: (t ++ [slash])).getD
          (u.length + 1 + t.length + [slash].length - 1) 0 = slash := by
        rw [List.length_singleton, List.getD_eq_getElem?_getD,
          List.getElem?_append_right (by omega),
          show u.length + 1 + t.length + 1 - 1 - u.length = t.length + 1 by omega,
          List.getElem?_cons_succ, List.getElem?_append_right (by omega), Nat.sub_self]
        rfl
      rw [if_pos hget, List.length_singleton]
      omega
  rw [removeLast, if_pos (by omega)]
  simp only [hend, backToSlash_eq w ht (show t.length - 1 < t.length by omega)]
  by_cases hu : u = []
  · subst hu
    rfl
  · rw [if_neg (fun h => hu (List.length_eq_zero_iff.mp h)), if_neg hu, List.take_left]

/-- A string that `cd ..` shortens is a prefix or the root. -/
theorem removeLast_cases (cwd : CString) :
    removeLast cwd = rootPath ∨ ∃ n, 0 < n ∧ removeLast cwd = cwd.take n := by
  unfold removeLast
  by_cases hlen : 1 < cwd.length
  · rw [if_pos hlen]
    simp only
    generalize backToSlash cwd _ = n
    split
    · exact .inl rfl
    · exact .inr ⟨n, Nat.pos_of_ne_zero (by assumption), rfl⟩
  · rw [if_neg hlen]
    exact .inr ⟨cwd.length + 1, Nat.succ_pos _, (List.take_of_length_le (by omega)).symm⟩

/-- The string ends with a name, perhaps with one slash behind it. -/
theorem exists_last {cwd : CString} (hhead : cwd.head? = some slash)
    (hne : pathComponents cwd ≠ []) (hend : ¬ [slash, slash] <:+ cwd) :
    ∃ u t w, cwd = u ++ slash :: (t ++ w) ∧ slash ∉ t ∧ t ≠ [] ∧ (w = [] ∨ w = [slash]) := by
  suffices hname : ∀ s : CString, s.head? = some slash → s.getLast? ≠ some slash →
      ∃ u t, s = u ++ slash :: t ∧ slash ∉ t ∧ t ≠ [] by
    by_cases hlast : cwd.getLast? = some slash
    · obtain ⟨s, rfl⟩ := List.getLast?_eq_some_iff.mp hlast
      have hs : s ≠ [] := by
        rintro rfl
        exact hne (components_eq_nil rfl)
      have hslast : s.getLast? ≠ some slash := by
        intro h
        obtain ⟨s', rfl⟩ := List.getLast?_eq_some_iff.mp h
        exact hend ⟨s', by simp⟩
      obtain ⟨u, t, rfl, ht, hnil⟩ := hname s (by rwa [List.head?_append_of_ne_nil _ hs] at hhead)
        hslast
      exact ⟨u, t, [slash], by simp, ht, hnil, .inr rfl⟩
    · obtain ⟨u, t, rfl, ht, hnil⟩ := hname cwd hhead hlast
      exact ⟨u, t, [], by simp, ht, hnil, .inl rfl⟩
  intro s hs hlast
  have hmem : slash ∈ s.reverse := List.mem_reverse.mpr (List.mem_of_mem_head? hs)
  obtain ⟨t, u, hrev, ht⟩ := List.eq_append_cons_of_mem hmem
  have hsplit : s = u.reverse ++ slash :: t.reverse := by
    rw [← List.reverse_reverse s, hrev]
    simp
  refine ⟨u.reverse, t.reverse, hsplit, by simpa using ht, fun hnil => hlast ?_⟩
  rw [hsplit, hnil]
  simp

/-- `cd ..` takes the last component off. -/
theorem pathComponents_removeLast {cwd : CString} (hhead : cwd.head? = some slash)
    (hlen : cwd.length ≤ 63) (hne : pathComponents cwd ≠ [])
    (hend : ¬ [slash, slash] <:+ cwd) :
    pathComponents (removeLast cwd) = (pathComponents cwd).dropLast := by
  obtain ⟨u, t, w, rfl, ht, hnil, hw⟩ := exists_last hhead hne hend
  have hlt : t.length ≤ 62 + 1 := by
    simp only [List.length_append, List.length_cons] at hlen
    omega
  have htw : pathComponents (t ++ w) = [t] := by
    rcases hw with rfl | rfl
    · rw [List.append_nil]
      exact components_single hnil ht hlt
    · rw [pathComponents, components_append, components_single hnil ht hlt]
      rfl
  have hsplit : pathComponents (u ++ slash :: (t ++ w)) = pathComponents u ++ [t] := by
    rw [← htw]
    exact components_append ..
  rw [removeLast_eq ht hnil hw, hsplit, List.dropLast_concat]
  split
  · rename_i hu
    rw [hu]
    rfl
  · rfl

/-- A string of slashes stays one. -/
theorem pathComponents_removeLast_nil {cwd : CString} (h : pathComponents cwd = []) :
    pathComponents (removeLast cwd) = [] := by
  have hall : cwd.dropWhile (· = slash) = [] := by
    by_contra hne
    rw [pathComponents, components_eq_cons hne] at h
    cases h
  rcases removeLast_cases cwd with hroot | ⟨n, -, htake⟩
  · rw [hroot]
    rfl
  · rw [htake]
    refine components_eq_nil (List.dropWhile_eq_nil_iff.mpr fun a ha => ?_)
    exact List.dropWhile_eq_nil_iff.mp hall a (List.mem_of_mem_take ha)

/-- A path that fits is appended to the string. -/
theorem buildAbsolutePath_eq {cwd path : CString} (hcwd : cwd ≠ []) (hpath : path ≠ [])
    (hhead : path.head? ≠ some slash)
    (hlen : cwd.length + (if cwd.getLast? = some slash then 0 else 1) + path.length ≤ 63) :
    ∃ s, (s = cwd ∧ cwd.getLast? = some slash ∨ s = cwd ++ [slash]) ∧
      buildAbsolutePath cwd path cwdSize = s ++ path ∧ (s ++ path).length ≤ 63 := by
  have hpos := List.length_pos_iff.mpr hpath
  have htake : cwd.take (cwdSize - 1) = cwd := List.take_of_length_le (by
    change cwd.length ≤ 63
    omega)
  rw [buildAbsolutePath, if_neg hhead, htake]
  by_cases hlast : cwd.getLast? = some slash
  · rw [if_pos hlast] at hlen
    refine ⟨cwd, .inl ⟨rfl, hlast⟩, ?_, by rw [List.length_append]; omega⟩
    simp only [hlast, ne_eq, not_true_eq_false, false_and, and_false, if_false]
    rw [if_pos (by change cwd.length < 63; omega), List.take_of_length_le (by
      change path.length ≤ 64 - cwd.length - 1
      omega)]
  · rw [if_neg hlast] at hlen
    have hfits : (cwd ++ [slash] ++ path).length ≤ 63 := by
      rw [List.length_append, List.length_append, List.length_singleton]
      exact hlen
    refine ⟨cwd ++ [slash], .inr rfl, ?_, hfits⟩
    have hroom : cwd ≠ [] ∧ cwd.getLast? ≠ some slash ∧ cwd.length + 1 < cwdSize :=
      ⟨hcwd, hlast, by change cwd.length + 1 < 64; omega⟩
    simp only [if_pos hroom, List.length_append, List.length_singleton]
    rw [if_pos (by change cwd.length + 1 < 63; omega), List.take_of_length_le (by
      change path.length ≤ 64 - (cwd.length + 1) - 1
      omega)]

theorem pathComponents_append {cwd s path : CString}
    (hs : s = cwd ∧ cwd.getLast? = some slash ∨ s = cwd ++ [slash]) :
    pathComponents (s ++ path) = pathComponents cwd ++ pathComponents path := by
  rcases hs with ⟨rfl, hlast⟩ | rfl
  · obtain ⟨u, rfl⟩ := List.getLast?_eq_some_iff.mp hlast
    have hu : pathComponents (u ++ [slash]) = pathComponents u :=
      (components_append u []).trans (List.append_nil _)
    rw [hu, List.append_assoc]
    exact components_append u path
  · rw [List.append_assoc]
    exact components_append cwd path

/-! ## One command -/

/-- What every session keeps: the string is an absolute path that fits, and its components lead to
the driver's directory. -/
structure CwdInv (fs : Fat32Instance) (d : Disk) (x : Session) : Prop where
  mounted : x.fs = { fs with currentDirCluster := x.fs.currentDirCluster }
  head : x.cwd.head? = some slash
  length : x.cwd.length ≤ 63
  leads : follow fs d fs.rootCluster (pathComponents x.cwd) = some x.fs.currentDirCluster

section
variable {fs : Fat32Instance} {d : Disk} {x : Session}

theorem CwdInv.current (ht : Tree fs d) (h : CwdInv fs d x) :
    x.fs.currentDirCluster ≠ notFound ∧ x.fs.currentDirCluster ≠ 0 :=
  follow_mem ht.root ht.root h.leads

theorem CwdInv.root_eq (h : CwdInv fs d x) : x.fs.rootCluster = fs.rootCluster := by rw [h.mounted]

theorem CwdInv.follow_eq (h : CwdInv fs d x) (c : ℕ) (ts : List CString) :
    follow x.fs d c ts = follow fs d c ts := by rw [h.mounted, follow_cd]

theorem CwdInv.agrees (ht : Tree fs d) (h : CwdInv fs d x) : x.Agrees d := by
  have hroot : x.fs.rootCluster ≠ notFound ∧ x.fs.rootCluster ≠ 0 := by
    rw [h.root_eq]
    exact ht.root
  rw [Session.Agrees, lsTarget_eq_follow hroot (h.current ht).1, pathStart, if_pos h.head, h.root_eq,
    h.follow_eq]
  exact h.leads

theorem Arg.path_ne_nil (a : Arg) : a.path ≠ [] := by
  unfold Arg.path
  split
  · exact List.cons_ne_nil _ _
  · assumption

theorem Arg.zero_notMem (a : Arg) : 0 ∉ a.path := by
  unfold Arg.path
  split
  · decide
  · exact a.2

/-- A path on which the string and the driver do not part is read as a whole. -/
theorem length_path {a : Arg} (hno : ¬ Strays d x a) : a.path.length ≤ 63 := by
  by_contra hlen
  by_cases hhead : a.path.head? = some slash
  · exact hno (.absolute hhead (by omega))
  · by_cases hdots : a.path = parentPath
    · rw [hdots] at hlen
      exact hlen (by decide)
    · exact hno (.relative hhead hdots (by omega))

/-- `cd ..` -/
theorem leads_up (ht : Tree fs d) (h : CwdInv fs d x) {a : Arg} (hdots : a.path = parentPath)
    (hno : ¬ Strays d x a) {c : ℕ} (hc : enter fs d x.fs.currentDirCluster parentPath = some c) :
    follow fs d fs.rootCluster (pathComponents (removeLast x.cwd)) = some c := by
  cases hlast : (pathComponents x.cwd).getLast? with
  | none =>
    have hnil := List.getLast?_eq_none_iff.mp hlast
    have hcur := h.leads
    rw [hnil, follow_nil] at hcur
    rw [← Option.some.inj hcur] at hc
    -- `..` in the root directory leads to the root directory
    have hfind : fat32FindInDir fs d fs.rootCluster parentPath = fs.rootCluster :=
      if_pos ⟨by decide, .inl rfl⟩
    obtain ⟨-, rfl⟩ := enter_eq_some hc
    rw [pathComponents_removeLast_nil hnil, follow_nil, hfind, orRoot, if_neg ht.root.2]
  | some last =>
    have hne : pathComponents x.cwd ≠ [] := by
      intro hnil
      rw [hnil] at hlast
      cases hlast
    have hend : ¬ [slash, slash] <:+ x.cwd := fun hend => hno (.up last hdots hlast (.inl hend))
    have hlead := h.leads
    rw [follow_eq_parentOf hlast] at hlead
    obtain ⟨p, hp, hcur⟩ := Option.bind_eq_some_iff.mp hlead
    have hdir : NamesDir x.fs d p last := by
      by_contra hdir
      refine hno (.up last hdots hlast (.inr ⟨p, ?_, hdir⟩))
      rw [h.follow_eq, h.root_eq]
      exact hp
    rw [NamesDir, h.mounted] at hdir
    simp only [lookup_cd] at hdir
    have hup := ht.parent _ p last _ hp hdir hcur
    rw [pathComponents_removeLast h.head h.length hne hend, hp, ← hup]
    exact hc

theorem head?_removeLast {cwd : CString} (h : cwd.head? = some slash) :
    (removeLast cwd).head? = some slash := by
  rcases removeLast_cases cwd with hroot | ⟨n, hn, htake⟩
  · rw [hroot]
    rfl
  · rw [htake, List.head?_take, if_neg (by omega)]
    exact h

theorem length_removeLast {cwd : CString} (h : cwd.length ≤ 63) : (removeLast cwd).length ≤ 63 := by
  rcases removeLast_cases cwd with hroot | ⟨n, -, htake⟩
  · rw [hroot]
    decide
  · rw [htake, List.length_take]
    omega

/-- The string after a `cd` that the driver has followed to `c`. -/
theorem CwdInv.edited (ht : Tree fs d) (h : CwdInv fs d x) {a : Arg} (hno : ¬ Strays d x a)
    (hroot : a.path ≠ rootPath) {c : ℕ}
    (hc : follow fs d (pathStart x.fs a.path) (pathComponents a.path) = some c) :
    CwdInv fs d ⟨editedCwd x.cwd a.path, { x.fs with currentDirCluster := c }⟩ := by
  have hmounted : ({ x.fs with currentDirCluster := c } : Fat32Instance) =
      { fs with currentDirCluster := c } := by rw [h.mounted]
  have hroot' : myStrcmp a.path rootPath ≠ 0 := by
    rw [Ne, myStrcmp_eq_zero a.zero_notMem (by decide)]
    exact hroot
  have hcwd : x.cwd ≠ [] := by
    intro hnil
    have hhead := h.head
    rw [hnil] at hhead
    cases hhead
  -- the shell cuts off the last name where the driver follows `..`
  by_cases hdots : a.path = parentPath
  · have hedit : editedCwd x.cwd a.path = removeLast x.cwd := by
      rw [editedCwd, if_neg hroot', if_pos ((myStrcmp_eq_zero a.zero_notMem (by decide)).mpr hdots)]
    have hstart : pathStart x.fs a.path = x.fs.currentDirCluster := by
      rw [pathStart, hdots, if_neg (by decide), orRoot, if_neg (h.current ht).2]
    have hdotsComponents : pathComponents parentPath = [parentPath] :=
      components_single (by decide) (by decide) (by decide)
    rw [hstart, hdots, hdotsComponents, follow_single] at hc
    rw [hedit]
    exact ⟨hmounted, head?_removeLast h.head, length_removeLast h.length,
      leads_up ht h hdots hno hc⟩
  · have hedit : editedCwd x.cwd a.path = buildAbsolutePath x.cwd a.path cwdSize := by
      rw [editedCwd, if_neg hroot', if_neg]
      rw [myStrcmp_eq_zero a.zero_notMem (by decide)]
      exact hdots
    rw [hedit]
    -- an absolute path replaces the string, a relative one is appended
    by_cases hhead : a.path.head? = some slash
    · have hpath : buildAbsolutePath x.cwd a.path cwdSize = a.path := by
        rw [buildAbsolutePath, if_pos hhead]
        exact List.take_of_length_le (length_path hno)
      rw [pathStart, if_pos hhead, h.root_eq] at hc
      rw [hpath]
      exact ⟨hmounted, hhead, length_path hno, hc⟩
    · have hlen : x.cwd.length + (if x.cwd.getLast? = some slash then 0 else 1) +
          a.path.length ≤ 63 := by
        by_contra hlen
        exact hno (.relative hhead hdots (by omega))
      obtain ⟨s, hs, hpath, hfits⟩ := buildAbsolutePath_eq hcwd a.path_ne_nil hhead hlen
      rw [pathStart, if_neg hhead, orRoot, if_neg (h.current ht).2] at hc
      rw [hpath]
      refine ⟨hmounted, ?_, hfits, ?_⟩
      · rcases hs with ⟨rfl, -⟩ | rfl
        · rw [List.head?_append_of_ne_nil _ hcwd]
          exact h.head
        · rw [List.append_assoc, List.head?_append_of_ne_nil _ hcwd]
          exact h.head
      · rw [pathComponents_append hs, follow_append, h.leads]
        exact hc

/-- A `cd` on which the string and the driver do not part keeps them together. -/
theorem CwdInv.cd (ht : Tree fs d) (h : CwdInv fs d x) {a : Arg} (hno : ¬ Strays d x a) :
    CwdInv fs d (x.cd d a) := by
  have htake : a.path.take 63 = a.path := List.take_of_length_le (length_path hno)
  rw [Session.cd, htake]
  by_cases hroot : a.path = rootPath
  · have hcd : fat32Cd x.fs d a.path =
        (true, { x.fs with currentDirCluster := x.fs.rootCluster }) := by
      rw [hroot]
      rfl
    have hedit : editedCwd x.cwd a.path = rootPath := by
      rw [hroot]
      rfl
    rw [hcd]
    simp only [hedit]
    exact ⟨by rw [h.mounted], rfl, (by decide : rootPath.length ≤ 63), congrArg some h.root_eq.symm⟩
  · have hroot' : myStrcmp a.path [slash] ≠ 0 := by
      rw [Ne, myStrcmp_eq_zero a.zero_notMem (by decide)]
      exact hroot
    have hrootCluster : x.fs.rootCluster ≠ notFound ∧ x.fs.rootCluster ≠ 0 := by
      rw [h.root_eq]
      exact ht.root
    -- nothing but slashes: the driver looks for the empty name and fails
    by_cases hnil : pathComponents a.path = []
    · have hslash : a.path.head? = some slash := by
        by_contra hhead
        obtain ⟨b, t, hpath⟩ := List.exists_cons_of_ne_nil a.path_ne_nil
        have hdrop : a.path.dropWhile (· = slash) ≠ [] := by
          rw [hpath, List.dropWhile_cons_of_neg]
          · exact List.cons_ne_nil _ _
          · simpa using fun hb : b = slash => hhead (by rw [hpath, hb]; rfl)
        rw [pathComponents, components_eq_cons hdrop] at hnil
        cases hnil
      have hnone : enter x.fs d (pathStart x.fs a.path) [] = none := by
        rw [pathStart, if_pos hslash, h.root_eq, h.mounted, enter_cd]
        exact ht.nameless
      rw [fat32Cd_of_nil hrootCluster (h.current ht).1 hroot' hnil hnone]
      exact h
    · rw [fat32Cd_eq_follow hrootCluster (h.current ht).1 hroot' hnil]
      -- the driver follows the components; where it fails the shell keeps its string
      cases hc : follow x.fs d (pathStart x.fs a.path) (pathComponents a.path) with
      | none => exact h
      | some c =>
        refine h.edited ht hno hroot ?_
        rw [h.mounted, follow_cd] at hc
        rw [← hc, h.mounted]

end

/-! ## Whole sessions -/

/-- One command is typed. -/
def Session.Step (d : Disk) (x : Session) (a : Arg) (y : Session) : Prop := y = x.cd d a

/-- In every session in which the string and the driver never part, the string leads to the driver's
current directory. -/
theorem agrees_of_run {d : Disk} {x y : Session} {as : List Arg} (ht : Tree x.fs d)
    (hx : x.AtRoot) (hrun : Run (guarded (Session.Step d) fun x a => ¬ Strays d x a) x as y) :
    y.Agrees d := by
  have hinv : CwdInv x.fs d y := by
    refine Run.invariant (I := fun y : Session => CwdInv x.fs d y) (fun y a z hy hstep => ?_) hrun ?_
    · rw [show z = y.cd d a from hstep.2]
      exact hy.cd ht hstep.1
    · refine ⟨rfl, by rw [hx.1]; rfl, by rw [hx.1]; decide, ?_⟩
      rw [hx.1, hx.2]
      rfl
  exact hinv.agrees ht

/-! The volume with the directory `D`, which holds the file `F`. -/

/-- Where a name leads: an entry of the directory, or the root directory for `..` in it. -/
theorem enter_cases {fs : Fat32Instance} {d : Disk} (g : Geometry fs) (hroot : 2 ≤ fs.rootCluster)
    {c e : ℕ} {l : List ℕ} {name : CString} (hl : (volume fs d).forest.Chain (dirHead fs c) l)
    (h : enter fs d c name = some e) : (c = fs.rootCluster ∨ c = 0) ∧ e = fs.rootCluster ∨
      ∃ p ∈ (volume fs d).walked l, ((volume fs d).entry p).IsNamed ∧
        e = orRoot fs ((volume fs d).entry p).clus := by
  obtain ⟨hfind, rfl⟩ := enter_eq_some h
  by_cases hdots : RootDots fs c name
  · rw [Geometry.fat32FindInDir_dots hdots, orRoot, if_neg (by omega)]
    exact .inl ⟨hdots.2, rfl⟩
  · rw [Geometry.fat32FindInDir_eq hroot hdots] at hfind ⊢
    cases hf : lookup fs d c name with
    | none =>
      rw [hf] at hfind
      exact absurd rfl hfind
    | some f =>
      obtain ⟨A, B, p, hw, -, hm, rfl⟩ := g.lookup_some hl hf
      exact .inr ⟨p, by rw [hw]; simp, hm.1, rfl⟩

/-- `cd D`, `cd ..` and `cd .` -/
def cdD : Arg := ⟨[68], by decide⟩
def cdUp : Arg := ⟨parentPath, by decide⟩
def cdDot : Arg := ⟨[dot], by decide⟩

/-- The shell after boot. -/
def nestedSession : Session := ⟨rootPath, tinyFs⟩

theorem chain_nested (c : ℕ) (hc : c = 2 ∨ c = 3 ∨ c = 4) :
    (volume tinyFs nestedVolume.disk).forest.Chain (dirHead tinyFs c) [c] := by
  have hok : (volume tinyFs nestedVolume.disk).ChainOk [2] ∧
      (volume tinyFs nestedVolume.disk).ChainOk [3] ∧
      (volume tinyFs nestedVolume.disk).ChainOk [4] := by decide +kernel
  rcases hc with rfl | rfl | rfl
  · exact Volume.chain_of_chainOk hok.1
  · exact Volume.chain_of_chainOk hok.2.1
  · exact Volume.chain_of_chainOk hok.2.2

/-- The entries of the three clusters. -/
theorem entries_nested :
    (∀ p ∈ (volume tinyFs nestedVolume.disk).walked [2],
      ((volume tinyFs nestedVolume.disk).entry p).IsNamed →
        ((volume tinyFs nestedVolume.disk).entry p).clus = 3) ∧
    (∀ p ∈ (volume tinyFs nestedVolume.disk).walked [3],
      ((volume tinyFs nestedVolume.disk).entry p).IsNamed →
        ((volume tinyFs nestedVolume.disk).entry p).IsDot ∧
          (((volume tinyFs nestedVolume.disk).entry p).clus = 3 ∨
            ((volume tinyFs nestedVolume.disk).entry p).clus = 2) ∨
        ((volume tinyFs nestedVolume.disk).entry p).isDir = false ∧
          ((volume tinyFs nestedVolume.disk).entry p).clus = 4) ∧
    ∀ p ∈ (volume tinyFs nestedVolume.disk).walked [4],
      ¬ ((volume tinyFs nestedVolume.disk).entry p).IsNamed := by
  decide +kernel

theorem enter_nested {c e : ℕ} {name : CString} (hc : c = 2 ∨ c = 3 ∨ c = 4)
    (h : enter tinyFs nestedVolume.disk c name = some e) :
    c = 2 ∧ (e = 2 ∨ e = 3) ∨ c = 3 ∧ (e = 2 ∨ e = 3 ∨ e = 4) := by
  obtain ⟨h2, h3, h4⟩ := entries_nested
  rcases enter_cases tinyFs_geometry (by decide) (chain_nested c hc) h with
    ⟨hroot, rfl⟩ | ⟨p, hp, hnamed, rfl⟩
  · have h2 : c = 2 := by
      rcases hroot with rfl | rfl
      · rfl
      · omega
    exact .inl ⟨h2, .inl rfl⟩
  · rcases hc with rfl | rfl | rfl
    · rw [h2 p hp hnamed]
      exact .inl ⟨rfl, .inr rfl⟩
    · rcases h3 p hp hnamed with ⟨-, hclus | hclus⟩ | ⟨-, hclus⟩
      · rw [hclus]
        exact .inr ⟨rfl, .inr (.inl rfl)⟩
      · rw [hclus]
        exact .inr ⟨rfl, .inl rfl⟩
      · rw [hclus]
        exact .inr ⟨rfl, .inr (.inr rfl)⟩
    · exact absurd hnamed (h4 p hp)

theorem follow_nested (ts : List CString) (c e : ℕ) (hc : c = 2 ∨ c = 3 ∨ c = 4)
    (h : follow tinyFs nestedVolume.disk c ts = some e) : e = 2 ∨ e = 3 ∨ e = 4 := by
  induction ts generalizing c with
  | nil =>
    obtain rfl := Option.some.inj h
    exact hc
  | cons t ts ih =>
    rw [follow_cons] at h
    obtain ⟨c', hc', h⟩ := Option.bind_eq_some_iff.mp h
    refine ih c' ?_ h
    rcases enter_nested hc hc' with ⟨-, h⟩ | ⟨-, h⟩ <;> omega

theorem tree_nested : Tree nestedSession.fs nestedVolume.disk where
  root := by decide
  nameless := by decide +kernel
  parent ts c name e hc hdir he := by
    have hmem := follow_nested ts 2 c (.inl rfl) hc
    obtain ⟨f, hf, hisDir, hdot⟩ := hdir
    obtain ⟨A, B, p, hw, -, hm, rfl⟩ := tinyFs_geometry.lookup_some (chain_nested c hmem) hf
    have hp : p ∈ (volume tinyFs nestedVolume.disk).walked [c] := by
      rw [hw]
      simp
    have hentry : FoundEntry.entry ⟨dirCursorSector tinyFs p, p.offsetInSector,
        ((volume tinyFs nestedVolume.disk).entry p).clus,
        ((volume tinyFs nestedVolume.disk).entry p).size⟩ nestedVolume.disk =
          (volume tinyFs nestedVolume.disk).entry p := by
      rw [FoundEntry.entry, Volume.entry, tinyFs_geometry.block_eq (chain_nested c hmem).2
        (Volume.mem_slots_of_walked hp)]
      rfl
    rw [hentry] at hisDir hdot
    obtain ⟨-, h3, h4⟩ := entries_nested
    rcases hmem with rfl | rfl | rfl
    · rcases enter_nested (.inl rfl) he with ⟨-, rfl | rfl⟩ | ⟨h, -⟩
      · decide +kernel
      · decide +kernel
      · cases h
    · rcases h3 p hp hm.1 with ⟨hdot', -⟩ | ⟨hfile, -⟩
      · exact absurd hdot' hdot
      · rw [hisDir] at hfile
        cases hfile
    · exact absurd hm.1 (h4 p hp)

theorem atRoot_nested : nestedSession.AtRoot := ⟨rfl, rfl⟩

/-- The session after `cd D`, and those that go on from there. -/
def insideD : Session := nestedSession.cd nestedVolume.disk cdD

def backUp : Session := insideD.cd nestedVolume.disk cdUp

def insideDot : Session := insideD.cd nestedVolume.disk cdDot

def partedUp : Session := insideDot.cd nestedVolume.disk cdUp

theorem cwd_insideD : insideD.cwd = [slash, 68] := by decide +kernel

theorem lookup_insideD :
    lookup insideD.fs nestedVolume.disk 2 [68] = some ⟨2, 0, 3, 0⟩ ∧
      (FoundEntry.entry ⟨2, 0, 3, 0⟩ nestedVolume.disk).isDir = true ∧
      ¬ (FoundEntry.entry ⟨2, 0, 3, 0⟩ nestedVolume.disk).IsDot := by
  decide +kernel

theorem not_strays_D : ¬ Strays nestedVolume.disk nestedSession cdD := by
  rintro (⟨hhead, -⟩ | ⟨-, -, hlen⟩ | ⟨last, hdots, -⟩)
  · exact absurd hhead (by decide)
  · exact absurd hlen (by decide)
  · exact absurd hdots (by decide)

theorem not_strays_up : ¬ Strays nestedVolume.disk insideD cdUp := by
  rintro (⟨hhead, -⟩ | ⟨-, hdots, -⟩ | ⟨last, -, hlast, hslashes | ⟨c, hc, hdir⟩⟩)
  · exact absurd hhead (by decide)
  · exact hdots rfl
  · rw [cwd_insideD] at hslashes
    exact absurd hslashes (by decide)
  · rw [cwd_insideD] at hlast hc
    obtain rfl : [68] = last := Option.some.inj
      ((by decide : (pathComponents [slash, 68]).getLast? = some [68]).symm.trans hlast)
    obtain rfl : 2 = c := Option.some.inj hc
    exact hdir ⟨_, lookup_insideD.1, lookup_insideD.2⟩

/-- After `cd D` and `cd ..` both are at the root again. -/
theorem agrees_of_run_backUp : backUp.cwd = rootPath ∧ backUp.Agrees nestedVolume.disk := by
  have hD : guarded (Session.Step nestedVolume.disk)
      (fun x a => ¬ Strays nestedVolume.disk x a) nestedSession cdD insideD := ⟨not_strays_D, rfl⟩
  have hup : guarded (Session.Step nestedVolume.disk)
      (fun x a => ¬ Strays nestedVolume.disk x a) insideD cdUp backUp := ⟨not_strays_up, rfl⟩
  exact ⟨by decide +kernel, agrees_of_run tree_nested atRoot_nested (.cons hD (.single hup))⟩

/-- After `cd D`, `cd .` and `cd ..` the string is `/D` and the driver is at the root. -/
theorem not_agrees_partedUp : Tree nestedSession.fs nestedVolume.disk ∧ nestedSession.AtRoot ∧
    Run (Session.Step nestedVolume.disk) nestedSession [cdD, cdDot, cdUp] partedUp ∧
    partedUp.cwd = [slash, 68] ∧ ¬ partedUp.Agrees nestedVolume.disk := by
  have hcwd : partedUp.cwd = [slash, 68] := by decide +kernel
  have hno : ¬ partedUp.Agrees nestedVolume.disk := by
    unfold Session.Agrees
    decide +kernel
  exact ⟨tree_nested, atRoot_nested, .cons rfl (.cons rfl (.single rfl)), hcwd, hno⟩

end PsychWard.Shell
