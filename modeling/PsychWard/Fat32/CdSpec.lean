import Mathlib.Data.List.DropRight
import PsychWard.Common.Components
import PsychWard.Fat32.OpSpec

/-!
# Changing the directory

`fat32_cd` follows the components of its path through the directories. `follow` is that walk, and
`fat32Cd_eq_cdTarget` says that a `cd` succeeds exactly where the walk arrives. `lsTarget` is how
`SYS_LS` of `blk_driver.cpp` reads a path, which names a directory even where the path ends with no
component.
-/

namespace PsychWard.Fat32

/-- The components of a path, each at most as long as the buffer `token[64]` holds. -/
abbrev pathComponents (p : CString) : List CString := components slash 62 p

/-- The directory a name in a directory leads to. -/
def enter (fs : Fat32Instance) (d : Disk) (c : ℕ) (name : CString) : Option ℕ :=
  let target := fat32FindInDir fs d c name
  if target = notFound then none else some (orRoot fs target)

/-- The directory that components lead to, one after the other. -/
def follow (fs : Fat32Instance) (d : Disk) (c : ℕ) (ts : List CString) : Option ℕ :=
  ts.foldlM (enter fs d) c

/-- `dir_cluster` of `SYS_LS` for a path that is not empty. -/
def lsTarget (fs : Fat32Instance) (d : Disk) (path : CString) : Option ℕ :=
  let r := fat32ResolveParent fs d path
  if r.1 = notFound then none
  else if r.2 = [] then some (orRoot fs r.1)
  else enter fs d r.1 r.2

section
variable {fs : Fat32Instance} {d : Disk} {c : ℕ} {ts : List CString}

/-- No components lead nowhere else. -/
@[simp] theorem follow_nil : follow fs d c [] = some c := rfl

/-- The first component is entered, the others are followed from there. -/
theorem follow_cons (t : CString) :
    follow fs d c (t :: ts) = (enter fs d c t).bind fun c => follow fs d c ts := by
  rw [follow, List.foldlM_cons]
  rfl

/-- One component is entered. -/
@[simp] theorem follow_single (t : CString) : follow fs d c [t] = enter fs d c t := by
  rw [follow_cons]
  cases enter fs d c t <;> rfl

/-- A path can be followed in two parts. -/
theorem follow_append (us : List CString) :
    follow fs d c (ts ++ us) = (follow fs d c ts).bind fun c => follow fs d c us :=
  List.foldlM_append ..

/-- What is entered was found, and the root directory stands for 0. -/
theorem enter_eq_some {t : CString} {e : ℕ} (h : enter fs d c t = some e) :
    fat32FindInDir fs d c t ≠ notFound ∧ e = orRoot fs (fat32FindInDir fs d c t) := by
  unfold enter at h
  simp only at h
  split at h
  · cases h
  · rename_i hne
    exact ⟨hne, (Option.some.inj h).symm⟩

/-- A directory that is entered is a cluster. -/
theorem enter_ne_notFound (hroot : fs.rootCluster ≠ notFound) {t : CString} {e : ℕ}
    (h : enter fs d c t = some e) : e ≠ notFound := by
  obtain ⟨hne, rfl⟩ := enter_eq_some h
  unfold orRoot
  split
  · exact hroot
  · exact hne

/-- A walk arrives at a cluster, and not at 0. -/
theorem follow_mem (hroot : fs.rootCluster ≠ notFound ∧ fs.rootCluster ≠ 0)
    (hc : c ≠ notFound ∧ c ≠ 0) {e : ℕ} (h : follow fs d c ts = some e) : e ≠ notFound ∧ e ≠ 0 := by
  induction ts generalizing c with
  | nil =>
    obtain rfl := Option.some.inj h
    exact hc
  | cons t ts ih =>
    rw [follow_cons] at h
    obtain ⟨c', hc', h⟩ := Option.bind_eq_some_iff.mp h
    refine ih ⟨enter_ne_notFound hroot.1 hc', ?_⟩ h
    obtain ⟨-, rfl⟩ := enter_eq_some hc'
    unfold orRoot
    split
    · exact hroot.2
    · assumption

/-! The current directory plays no part in a walk. -/

/-- The current directory is no part of the table. -/
theorem fatChainHasCycleLoop_cd (e fuel slow fast : ℕ) :
    fatChainHasCycleLoop { fs with currentDirCluster := e } d fuel slow fast =
      fatChainHasCycleLoop fs d fuel slow fast := by
  induction fuel generalizing slow fast with
  | zero => rfl
  | succ fuel ih =>
    simp only [fatChainHasCycleLoop, ih]
    rfl

/-- Nor is it looked at by a scan of a cluster. -/
theorem scanCluster_cd {σ : Type*} (e : ℕ) (f : σ → DirCursor → Block → σ × Bool) (clus n s : ℕ)
    (st : σ) : scanCluster { fs with currentDirCluster := e } d f clus n s st =
      scanCluster fs d f clus n s st := by
  induction n generalizing s st with
  | zero => rfl
  | succ n ih =>
    simp only [scanCluster, ih]
    rfl

/-- Nor by a scan of a directory. -/
theorem scanChain_cd {σ : Type*} (e : ℕ) (f : σ → DirCursor → Block → σ × Bool)
    (guard clus last : ℕ) (st : σ) :
    scanChain { fs with currentDirCluster := e } d f guard clus last st =
      scanChain fs d f guard clus last st := by
  induction guard generalizing clus last st with
  | zero => rfl
  | succ guard ih =>
    simp only [scanChain, scanCluster_cd, ih]
    rfl

/-- The verdict on a chain does not depend on the current directory. -/
theorem fatChainHasCycle_cd (e c : ℕ) :
    fatChainHasCycle { fs with currentDirCluster := e } d c = fatChainHasCycle fs d c := by
  rw [fatChainHasCycle, fatChainHasCycle, fatChainHasCycleLoop_cd]

/-- A search in a directory does not depend on the current one. -/
theorem dirScan_cd (e c : ℕ) (name : CString) :
    dirScan { fs with currentDirCluster := e } d c name = dirScan fs d c name := by
  have hstart : dirStart { fs with currentDirCluster := e } d c = dirStart fs d c := by
    rw [dirStart, dirStart]
    simp only [fatChainHasCycle_cd]
  have hbody : dirScanBody { fs with currentDirCluster := e } name = dirScanBody fs name := rfl
  rw [dirScan, dirScan, hstart, hbody]
  simp only [scanChain_cd]

/-- A name is looked up in the directory that is given. -/
theorem lookup_cd (e c : ℕ) (name : CString) :
    lookup { fs with currentDirCluster := e } d c name = lookup fs d c name := by
  rw [lookup, lookup, dirScan_cd]
  rfl

/-- Entering a directory starts from the one that is given. -/
theorem enter_cd (e c : ℕ) (name : CString) :
    enter { fs with currentDirCluster := e } d c name = enter fs d c name := by
  have hfind : fat32FindInDir { fs with currentDirCluster := e } d c name =
      fat32FindInDir fs d c name := by
    rw [fat32FindInDir, fat32FindInDir, dirScan_cd]
  rw [enter, enter, hfind]
  rfl

/-- So does following a path. -/
theorem follow_cd (e c : ℕ) (ts : List CString) :
    follow { fs with currentDirCluster := e } d c ts = follow fs d c ts := by
  have henter : enter { fs with currentDirCluster := e } d = enter fs d := by
    funext c name
    exact enter_cd e c name
  rw [follow, follow, henter]

/-- What the loop of `fat32_resolve_parent` makes of the components of a path. -/
def parentOf (fs : Fat32Instance) (d : Disk) (c : ℕ) (ts : List CString) : ℕ × CString :=
  match ts.getLast? with
  | none => (c, [])
  | some last =>
    match follow fs d c ts.dropLast with
    | none => (notFound, [])
    | some parent => (parent, last)

/-- The loop over the rest of a path, which starts with no slash, is the walk over its components.
-/
theorem resolveFrom_eq_parentOf {fuel : ℕ} {p : CString} (hp : p.dropWhile (· = slash) = p)
    (hf : p.length ≤ fuel) :
    resolveFrom fs d fuel p c = parentOf fs d c (pathComponents p) := by
  -- on the components that are left; the slashes behind one go with it
  induction fuel generalizing p c with
  | zero =>
    obtain rfl := List.length_eq_zero_iff.mp (Nat.le_zero.mp hf)
    rfl
  | succ fuel ih =>
    rw [resolveFrom]
    by_cases hnil : p = []
    · subst hnil
      rfl
    · rw [if_neg hnil]
      have hne : p.dropWhile (· = slash) ≠ [] := by
        rw [hp]
        exact hnil
      have hcons := components_eq_cons (b := 62) hne
      have hlt := drop_component_lt (b := 62) hne
      rw [hp] at hcons hlt
      have htoken : (nextToken p).1 = component slash 62 p := rfl
      have hrest : (nextToken p).2 =
          (p.drop (component slash 62 p).length).dropWhile (· = slash) := rfl
      simp only [htoken, hrest]
      by_cases hr : (p.drop (component slash 62 p).length).dropWhile (· = slash) = []
      · rw [if_pos hr, pathComponents, hcons, components_eq_nil hr]
        rfl
      · rw [if_neg hr]
        have hT : components slash 62 (p.drop (component slash 62 p).length) ≠ [] := by
          rw [components_eq_cons hr]
          exact List.cons_ne_nil _ _
        have hidem : ((p.drop (component slash 62 p).length).dropWhile
            (· = slash)).dropWhile (· = slash) =
              (p.drop (component slash 62 p).length).dropWhile (· = slash) :=
          List.dropWhile_idempotent ..
        have hlen : ((p.drop (component slash 62 p).length).dropWhile (· = slash)).length ≤ fuel := by
          have := (List.dropWhile_sublist (l := p.drop (component slash 62 p).length)
            fun x => decide (x = slash)).length_le
          omega
        rw [pathComponents, hcons, parentOf, List.getLast?_cons_of_ne_nil hT,
          List.dropLast_cons_of_ne_nil hT, follow_cons]
        obtain ⟨last, hlast⟩ : ∃ last, (components slash 62
            (p.drop (component slash 62 p).length)).getLast? = some last :=
          ⟨_, List.getLast?_eq_some_getLast hT⟩
        -- a component on the way that is missing ends the walk
        by_cases hfind : fat32FindInDir fs d c (component slash 62 p) = notFound
        · have henter : enter fs d c (component slash 62 p) = none := if_pos hfind
          rw [if_pos hfind, henter, hlast]
          rfl
        · have henter : enter fs d c (component slash 62 p) =
              some (orRoot fs (fat32FindInDir fs d c (component slash 62 p))) := if_neg hfind
          rw [if_neg hfind, henter, ih hidem hlen, parentOf, pathComponents, components_dropWhile,
            hlast]
          rfl

/-- Where a path starts from. -/
def pathStart (fs : Fat32Instance) (path : CString) : ℕ :=
  if path.head? = some slash then fs.rootCluster else orRoot fs fs.currentDirCluster

/-- `fat32_resolve_parent` is the walk over the components of the path. -/
theorem fat32ResolveParent_eq (path : CString) :
    fat32ResolveParent fs d path = parentOf fs d (pathStart fs path) (pathComponents path) := by
  rw [fat32ResolveParent, pathStart]
  split
  · have hlen := (List.dropWhile_sublist (l := path) fun x => decide (x = slash)).length_le
    rw [resolveFrom_eq_parentOf (List.dropWhile_idempotent ..) hlen, pathComponents,
      components_dropWhile]
  · rename_i hhead
    refine resolveFrom_eq_parentOf ?_ (Nat.le_refl _)
    cases path with
    | nil => rfl
    | cons a path =>
      refine List.dropWhile_cons_of_neg ?_
      simpa using fun h : a = slash => hhead (by rw [h]; rfl)

/-- A path starts at a cluster. -/
theorem pathStart_mem (hroot : fs.rootCluster ≠ notFound ∧ fs.rootCluster ≠ 0)
    (hcur : fs.currentDirCluster ≠ notFound) (path : CString) :
    pathStart fs path ≠ notFound ∧ pathStart fs path ≠ 0 := by
  unfold pathStart orRoot
  split
  · exact hroot
  · split
    · exact hroot
    · exact ⟨hcur, by assumption⟩

/-- The walk of a path with components is the walk to its parent and one step more. -/
theorem follow_eq_parentOf {last : CString} (h : ts.getLast? = some last) :
    follow fs d c ts = (follow fs d c ts.dropLast).bind fun p => enter fs d p last := by
  have hts : ts = ts.dropLast ++ [last] := by
    obtain ⟨ys, rfl⟩ := List.getLast?_eq_some_iff.mp h
    rw [List.dropLast_concat]
  conv_lhs => rw [hts, follow_append]
  simp only [follow_single]

/-- A path without components has no name. -/
theorem parentOf_of_none (h : ts.getLast? = none) : parentOf fs d c ts = (c, []) := by
  rw [parentOf, h]

/-- The last component is the name, the others lead to its directory. -/
theorem parentOf_of_some {last : CString} (h : ts.getLast? = some last) :
    parentOf fs d c ts = match follow fs d c ts.dropLast with
      | none => (notFound, [])
      | some parent => (parent, last) := by
  rw [parentOf, h]

/-- No component is empty. -/
theorem ne_nil_of_mem_pathComponents {p t : CString} (h : t ∈ pathComponents p) : t ≠ [] := by
  have haux (fuel : ℕ) (q : CString) : ∀ t ∈ componentsFrom slash 62 fuel q, t ≠ [] := by
    induction fuel generalizing q with
    | zero => intro t ht; cases ht
    | succ fuel ih =>
      intro t ht
      rw [componentsFrom] at ht
      by_cases hq : q.dropWhile (· = slash) = []
      · rw [if_pos hq] at ht
        cases ht
      · rw [if_neg hq] at ht
        rcases List.mem_cons.mp ht with rfl | ht
        · exact List.length_pos_iff.mp (component_pos hq)
        · exact ih _ t ht
  exact haux _ _ t h

/-- `ls` lists the directory that the components of its path lead to. -/
theorem lsTarget_eq_follow (hroot : fs.rootCluster ≠ notFound ∧ fs.rootCluster ≠ 0)
    (hcur : fs.currentDirCluster ≠ notFound) (path : CString) :
    lsTarget fs d path = follow fs d (pathStart fs path) (pathComponents path) := by
  have hstart := pathStart_mem hroot hcur path
  rw [lsTarget, fat32ResolveParent_eq]
  cases hlast : (pathComponents path).getLast? with
  | none =>
    rw [parentOf_of_none hlast, List.getLast?_eq_none_iff.mp hlast, follow_nil]
    simp only [hstart.1, if_false, if_true, orRoot, hstart.2]
  | some last =>
    rw [parentOf_of_some hlast, follow_eq_parentOf hlast]
    have hne : last ≠ [] := ne_nil_of_mem_pathComponents (List.mem_of_getLast? hlast)
    cases hparent : follow fs d (pathStart fs path) (pathComponents path).dropLast with
    | none => rfl
    | some parent =>
      have hmem := follow_mem hroot hstart hparent
      simp only [hmem.1, if_false, hne]
      rfl

/-- `fat32_cd` succeeds where the components of its path lead to a directory. -/
theorem fat32Cd_eq_follow (hroot : fs.rootCluster ≠ notFound ∧ fs.rootCluster ≠ 0)
    (hcur : fs.currentDirCluster ≠ notFound) {path : CString} (hpath : myStrcmp path [slash] ≠ 0)
    (hne : pathComponents path ≠ []) :
    fat32Cd fs d path = match follow fs d (pathStart fs path) (pathComponents path) with
      | none => (false, fs)
      | some c => (true, { fs with currentDirCluster := c }) := by
  have hstart := pathStart_mem hroot hcur path
  rw [fat32Cd, if_neg hpath, fat32ResolveParent_eq]
  obtain ⟨last, hlast⟩ : ∃ last, (pathComponents path).getLast? = some last :=
    ⟨_, List.getLast?_eq_some_getLast hne⟩
  rw [parentOf_of_some hlast, follow_eq_parentOf hlast]
  cases hparent : follow fs d (pathStart fs path) (pathComponents path).dropLast with
  | none => rfl
  | some parent =>
    have hmem := follow_mem hroot hstart hparent
    simp only [hmem.1, if_false, Option.bind_some]
    by_cases hfind : fat32FindInDir fs d parent last = notFound
    · rw [if_pos hfind, show enter fs d parent last = none from if_pos hfind]
    · rw [if_neg hfind, show enter fs d parent last = some _ from if_neg hfind]

/-- A path of slashes names an entry without a name. -/
theorem fat32Cd_of_nil (hroot : fs.rootCluster ≠ notFound ∧ fs.rootCluster ≠ 0)
    (hcur : fs.currentDirCluster ≠ notFound) {path : CString} (hpath : myStrcmp path [slash] ≠ 0)
    (hnil : pathComponents path = []) (hnone : enter fs d (pathStart fs path) [] = none) :
    fat32Cd fs d path = (false, fs) := by
  have hstart := pathStart_mem hroot hcur path
  have hfind : fat32FindInDir fs d (pathStart fs path) [] = notFound := by
    by_contra hfind
    rw [show enter fs d (pathStart fs path) [] = some _ from if_neg hfind] at hnone
    cases hnone
  rw [fat32Cd, if_neg hpath, fat32ResolveParent_eq,
    parentOf_of_none (List.getLast?_eq_none_iff.mpr hnil)]
  simp only [hstart.1, if_false, hfind, if_true]

end

end PsychWard.Fat32
