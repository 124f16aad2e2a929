import PsychWard.Shell.WorkingDir

/-!
# Paths on their way to the block driver

A file command of the shell turns what is typed into absolute paths, leaves them in the shared
window and calls the block driver, which copies each into a buffer of its own before it uses it.
`Command.sent` is what the shell leaves in the window, call by call, `Command.executed` what the
driver works on, and `Command.typed` the paths that were meant.

The shell's own buffers hold every path that can be typed, but for the two names of `mv`. The
driver's buffers do not, and neither side looks at what it cuts.
-/

namespace PsychWard.Shell

open Fat32

/-- `'|'` and `'>'`. -/
def bar : UInt8 := 124
def greater : UInt8 := 62

/-! ## The command line -/

/-- What is in `cmd` when a line has been typed: at most 63 printable characters. -/
structure Line where
  text : CString
  length : text.length ≤ 63
  printable : ∀ c ∈ text, 32 ≤ c ∧ c ≤ 126

namespace Line

/-- The left command of a pipeline, without the blanks behind it, or the whole line. -/
def leftCommand (l : Line) : CString :=
  let cmdPtr := l.text.dropWhile (· = blank)
  if bar ∈ cmdPtr then ((cmdPtr.takeWhile (· ≠ bar)).reverse.dropWhile (· = blank)).reverse
  else cmdPtr

/-- `cmd_ptr` up to the first blank. -/
def word (l : Line) : CString := l.leftCommand.takeWhile (· ≠ blank)

/-- `arg`: what stands behind the blanks after the command; `none` for a null pointer. -/
def arg (l : Line) : Option CString :=
  match l.leftCommand.dropWhile (· ≠ blank) with
  | [] => none
  | _ :: rest => some (rest.dropWhile (· = blank))

theorem length_leftCommand (l : Line) : l.leftCommand.length ≤ 63 := by
  have hdrop : (l.text.dropWhile (· = blank)).length ≤ l.text.length :=
    (List.dropWhile_sublist _).length_le
  have hlen := l.length
  unfold leftCommand
  simp only
  split
  · have htrim := (List.dropWhile_sublist (· = blank)
      (l := ((l.text.dropWhile (· = blank)).takeWhile (· ≠ bar)).reverse)).length_le
    have htake := (List.takeWhile_sublist (· ≠ bar)
      (l := l.text.dropWhile (· = blank))).length_le
    rw [List.length_reverse] at htrim ⊢
    omega
  · omega

theorem length_arg {l : Line} {a : CString} (h : l.arg = some a) : a.length ≤ 62 := by
  have hlen := l.length_leftCommand
  unfold arg at h
  cases hrest : l.leftCommand.dropWhile (· ≠ blank) with
  | nil => rw [hrest] at h; cases h
  | cons c rest =>
    rw [hrest] at h
    obtain rfl := Option.some.inj h
    have hdrop := (List.dropWhile_sublist (· ≠ blank) (l := l.leftCommand)).length_le
    have hblank := (List.dropWhile_sublist (· = blank) (l := rest)).length_le
    rw [hrest, List.length_cons] at hdrop
    omega

/-- The blanks before the argument are skipped. -/
theorem dropWhile_arg {l : Line} {a : CString} (h : l.arg = some a) :
    a.dropWhile (· = blank) = a := by
  unfold arg at h
  cases hrest : l.leftCommand.dropWhile (· ≠ blank) with
  | nil => rw [hrest] at h; cases h
  | cons c rest =>
    rw [hrest] at h
    obtain rfl := Option.some.inj h
    exact List.dropWhile_idempotent ..

end Line

/-! ## The file commands -/

/-- The commands that name files of the disk. -/
inductive Command
  | ls | cat | touch | rm | echo | mv
  deriving DecidableEq

/-- What the shell compares the first word with. -/
def Command.name : Command → CString
  | .ls => [108, 115]
  | .cat => [99, 97, 116]
  | .touch => [116, 111, 117, 99, 104]
  | .rm => [114, 109]
  | .echo => [101, 99, 104, 111]
  | .mv => [109, 118]

/-- The command of a line. -/
def Line.command (l : Line) : Option Command :=
  [Command.ls, .touch, .cat, .echo, .rm, .mv].find? fun c => myStrcmp l.word c.name = 0

/-- The words of `touch` and `rm`. -/
def words (arg : CString) : List CString := components blank arg.length arg

/-- The file behind the first `>` of an `echo`; `none` without `>` or without a file. -/
def redirection (arg : CString) : Option CString :=
  match arg.dropWhile (· ≠ greater) with
  | [] => none
  | _ :: rest =>
    let redir := rest.dropWhile (· = blank)
    if redir = [] then none else some redir

/-- `old_name` and `new_name` of `mv`, each at most 31 characters; `none` without a second name. -/
def mvNames (arg : CString) : Option (CString × CString) :=
  let oldName := (arg.takeWhile (· ≠ blank)).take 31
  let rest := (arg.drop oldName.length).dropWhile (· = blank)
  if rest = [] then none else some (oldName, (rest.takeWhile (· ≠ blank)).take 31)

/-- `SHM_TOTAL_SIZE` -/
def shmTotalSize : ℕ := 16384

/-- The paths the shell leaves in the window, one list for each call of the driver. -/
def Command.sent (c : Command) (cwd : CString) (arg : Option CString) : List (List CString) :=
  match c, arg with
  | .ls, none => [[buildAbsolutePath cwd [] shmTotalSize]]
  | .ls, some a | .cat, some a => [[buildAbsolutePath cwd a shmTotalSize]]
  | .touch, some a | .rm, some a =>
    (words a).map fun w => [buildAbsolutePath cwd w shmTotalSize]
  | .echo, some a => match redirection a with
    | none => []
    | some redir => [[buildAbsolutePath cwd redir 128]]
  | .mv, some a => match mvNames a with
    | none => []
    | some (oldName, newName) =>
      [[buildAbsolutePath cwd oldName 128, buildAbsolutePath cwd newName (shmTotalSize - 128)]]
  | _, none => []

/-- The size of the buffer into which the driver copies a path. -/
def Command.bufferSize : Command → ℕ
  | .mv => 32
  | _ => 64

/-- The paths on which the driver runs its operations. -/
def Command.executed (c : Command) (cwd : CString) (arg : Option CString) : List (List CString) :=
  (c.sent cwd arg).map fun paths => paths.map fun p => p.take (c.bufferSize - 1)

/-! ## What is meant -/

/-- The path to which an argument leads from the working directory. -/
def absolutePath (cwd arg : CString) : CString :=
  if arg.head? = some slash then arg
  else if cwd ≠ [] ∧ cwd.getLast? ≠ some slash then cwd ++ slash :: arg
  else cwd ++ arg

/-- The paths of a command as they were typed, one list for each operation. -/
def Command.typed (c : Command) (cwd : CString) (arg : Option CString) : List (List CString) :=
  match c, arg with
  | .ls, none => [[absolutePath cwd []]]
  | .ls, some a | .cat, some a => [[absolutePath cwd a]]
  | .touch, some a | .rm, some a => (words a).map fun w => [absolutePath cwd w]
  | .echo, some a => ((redirection a).map fun redir => [absolutePath cwd redir]).toList
  | .mv, some a => match words a with
    | oldName :: newName :: _ => [[absolutePath cwd oldName, absolutePath cwd newName]]
    | _ => []
  | _, none => []

/-- Every path fits into the driver's buffer, and the first name of `mv` into the shell's. -/
structure Command.Fits (c : Command) (cwd : CString) (arg : Option CString) : Prop where
  driver : ∀ paths ∈ c.typed cwd arg, ∀ p ∈ paths, p.length < c.bufferSize
  shell : c = .mv → ∀ a, arg = some a → ∀ w ∈ (words a).head?, w.length ≤ 31

/-! ## The shell's buffers -/

theorem length_absolutePath (cwd arg : CString) :
    arg.length ≤ (absolutePath cwd arg).length := by
  unfold absolutePath
  split
  · exact le_rfl
  · split <;> simp only [List.length_append, List.length_cons] <;> omega

/-- A path that fits into its buffer is built as it is meant. -/
theorem buildAbsolutePath_of_lt {cwd arg : CString} {maxLen : ℕ}
    (h : cwd.length + 1 + arg.length < maxLen) :
    buildAbsolutePath cwd arg maxLen = absolutePath cwd arg := by
  unfold buildAbsolutePath absolutePath
  by_cases hhead : arg.head? = some slash
  · rw [if_pos hhead, if_pos hhead]
    exact List.take_of_length_le (by omega)
  · have htake : cwd.take (maxLen - 1) = cwd := List.take_of_length_le (by omega)
    rw [if_neg hhead, if_neg hhead, htake]
    by_cases hend : cwd ≠ [] ∧ cwd.getLast? ≠ some slash
    · have hroom : cwd ≠ [] ∧ cwd.getLast? ≠ some slash ∧ cwd.length + 1 < maxLen :=
        ⟨hend.1, hend.2, by omega⟩
      rw [if_pos hend]
      simp only [if_pos hroom, List.length_append, List.length_singleton, List.append_assoc,
        List.singleton_append]
      split
      · rw [List.take_of_length_le (by omega)]
      · have hnil : arg = [] := List.length_eq_zero_iff.mp (by omega)
        rw [hnil]
    · have hroom : ¬ (cwd ≠ [] ∧ cwd.getLast? ≠ some slash ∧ cwd.length + 1 < maxLen) :=
        fun hroom => hend ⟨hroom.1, hroom.2.1⟩
      rw [if_neg hend]
      simp only [if_neg hroom]
      split
      · rw [List.take_of_length_le (by omega)]
      · have hnil : arg = [] := List.length_eq_zero_iff.mp (by omega)
        rw [hnil, List.append_nil]

theorem length_of_mem_words {arg w : CString} (h : w ∈ words arg) : w.length ≤ arg.length + 1 := by
  have hpiece (fuel : ℕ) (p : CString)
      (h : w ∈ componentsFrom blank arg.length fuel p) : w.length ≤ arg.length + 1 := by
    induction fuel generalizing p with
    | zero => cases h
    | succ fuel ih =>
      rw [componentsFrom] at h
      split at h
      · cases h
      · rcases List.mem_cons.mp h with rfl | h
        · exact List.length_take_le _ _
        · exact ih _ h
  exact hpiece _ _ h

theorem length_redirection {arg redir : CString} (h : redirection arg = some redir) :
    redir.length ≤ arg.length := by
  unfold redirection at h
  have hdrop := (List.dropWhile_sublist (· ≠ greater) (l := arg)).length_le
  cases hrest : arg.dropWhile (· ≠ greater) with
  | nil => rw [hrest] at h; cases h
  | cons c rest =>
    rw [hrest] at h
    rw [hrest, List.length_cons] at hdrop
    have hblank := (List.dropWhile_sublist (· = blank) (l := rest)).length_le
    simp only at h
    split at h
    · cases h
    · obtain rfl := Option.some.inj h
      omega

/-! ## The two names of `mv` -/

/-- Up to the first blank nothing is cut. -/
theorem words_eq {arg : CString} (hskip : arg.dropWhile (· = blank) = arg) (hne : arg ≠ []) :
    words arg = arg.takeWhile (· ≠ blank) ::
      components blank arg.length (arg.drop (arg.takeWhile (· ≠ blank)).length) := by
  have hle : (arg.takeWhile (· ≠ blank)).length ≤ arg.length :=
    (List.takeWhile_sublist _).length_le
  have hcomp : component blank arg.length arg = arg.takeWhile (· ≠ blank) :=
    List.take_of_length_le (by omega)
  rw [words, components_eq_cons (by rwa [hskip]), hskip, hcomp]

/-- With a first name of at most 31 characters, `mv` finds the names that were typed. -/
theorem mvNames_eq {arg : CString} (hskip : arg.dropWhile (· = blank) = arg) (hne : arg ≠ [])
    (hlen : (arg.takeWhile (· ≠ blank)).length ≤ 31) :
    words arg = [arg.takeWhile (· ≠ blank)] ∧ mvNames arg = none ∨
    ∃ newName rest, words arg = arg.takeWhile (· ≠ blank) :: newName :: rest ∧
      mvNames arg = some (arg.takeWhile (· ≠ blank), newName.take 31) := by
  have htake : (arg.takeWhile (· ≠ blank)).take 31 = arg.takeWhile (· ≠ blank) :=
    List.take_of_length_le hlen
  rw [words_eq hskip hne, mvNames, htake]
  generalize harg : arg.drop (arg.takeWhile (· ≠ blank)).length = tail
  have htail : tail.length ≤ arg.length := by
    rw [← harg, List.length_drop]
    omega
  by_cases hrest : tail.dropWhile (· = blank) = []
  · left
    rw [components_eq_nil hrest]
    exact ⟨rfl, if_pos hrest⟩
  · right
    have hle : ((tail.dropWhile (· = blank)).takeWhile (· ≠ blank)).length ≤ tail.length :=
      ((List.takeWhile_sublist _).trans (List.dropWhile_sublist _)).length_le
    have hcomp : component blank arg.length (tail.dropWhile (· = blank)) =
        (tail.dropWhile (· = blank)).takeWhile (· ≠ blank) :=
      List.take_of_length_le (by omega)
    rw [components_eq_cons hrest, hcomp]
    exact ⟨_, _, rfl, if_neg hrest⟩

/-- A longer first name is cut, and what is left of it becomes the second one. -/
theorem mvNames_of_long {arg : CString} (hlen : 31 < (arg.takeWhile (· ≠ blank)).length) :
    ∃ newName, mvNames arg = some ((arg.takeWhile (· ≠ blank)).take 31, newName) := by
  have hold : ((arg.takeWhile (· ≠ blank)).take 31).length = 31 := by
    rw [List.length_take]
    omega
  have hrest : (arg.drop 31).dropWhile (· = blank) ≠ [] := by
    intro hnil
    have hall := List.dropWhile_eq_nil_iff.mp hnil
    have hget : (arg.takeWhile (· ≠ blank))[31] ∈ arg.takeWhile (· ≠ blank) := List.getElem_mem hlen
    have hprefix := List.takeWhile_prefix (· ≠ blank) (l := arg)
    have hlt : 31 < arg.length := hlen.trans_le hprefix.length_le
    have heq : (arg.takeWhile (· ≠ blank))[31] = arg[31] := hprefix.getElem hlen
    have hblank := hall _ (List.mem_drop_iff_getElem.mpr ⟨0, by
      have := hprefix.length_le
      omega, rfl⟩)
    have hno := List.mem_takeWhile_imp hget
    rw [heq] at hno
    simp only [ne_eq, decide_not, Bool.not_eq_eq_eq_not, Bool.not_true,
      decide_eq_false_iff_not] at hno
    simp only [decide_eq_true_eq] at hblank
    exact hno hblank
  refine ⟨(((arg.drop 31).dropWhile (· = blank)).takeWhile (· ≠ blank)).take 31, ?_⟩
  rw [mvNames]
  simp only [hold]
  exact if_neg hrest

/-! ## What is typed and what is executed -/

/-- The driver keeps a path that the shell has built exactly if it fits. -/
theorem take_eq_iff {p : CString} {n : ℕ} (hn : 0 < n) : p.take (n - 1) = p ↔ p.length < n := by
  rw [List.take_eq_self_iff]
  omega

theorem Command.bufferSize_pos (c : Command) : 0 < c.bufferSize := by
  cases c <;> decide

/-- A command that sends the paths it means is right exactly if they fit. -/
theorem executed_eq_iff_of_sent {c : Command} {cwd : CString} {arg : Option CString}
    (h : c.sent cwd arg = c.typed cwd arg) : c.executed cwd arg = c.typed cwd arg ↔
      ∀ paths ∈ c.typed cwd arg, ∀ p ∈ paths, p.length < c.bufferSize := by
  have hmap {α : Type} (f : α → α) (l : List α) : l.map f = l ↔ ∀ x ∈ l, f x = x := by
    conv_lhs => rhs; rw [← List.map_id l]
    exact List.map_inj_left
  rw [Command.executed, h, hmap]
  refine forall₂_congr fun paths _ => ?_
  rw [hmap]
  exact forall₂_congr fun p _ => take_eq_iff c.bufferSize_pos

/-- All commands but `mv` send the paths that were typed. -/
theorem sent_eq_typed {c : Command} {cwd : CString} {arg : Option CString} (hc : c ≠ .mv)
    (hcwd : cwd.length ≤ 63) (harg : ∀ a, arg = some a → a.length ≤ 62) :
    c.sent cwd arg = c.typed cwd arg := by
  -- no path is longer than the buffer, so nothing is cut off
  have hbuild {a : CString} (ha : a.length ≤ 63) {maxLen : ℕ} (hmax : 128 ≤ maxLen) :
      buildAbsolutePath cwd a maxLen = absolutePath cwd a := buildAbsolutePath_of_lt (by omega)
  have hwords (a : CString) (ha : a.length ≤ 62) :
      ((words a).map fun w => [buildAbsolutePath cwd w shmTotalSize]) =
        (words a).map fun w => [absolutePath cwd w] := by
    apply List.map_congr_left
    intro w hw
    have hlen := length_of_mem_words hw
    rw [hbuild (by omega) (by decide)]
  cases arg with
  | none =>
    cases c with
    | ls =>
      simp only [Command.sent, Command.typed]
      rw [hbuild (by decide) (by decide)]
    | _ => rfl
  | some a =>
    have ha := harg a rfl
    cases c with
    | ls =>
      simp only [Command.sent, Command.typed]
      rw [hbuild (by omega) (by decide)]
    | cat =>
      simp only [Command.sent, Command.typed]
      rw [hbuild (by omega) (by decide)]
    | touch => exact hwords a ha
    | rm => exact hwords a ha
    | echo =>
      simp only [Command.sent, Command.typed]
      cases hredir : redirection a with
      | none => rfl
      | some redir =>
        have hlen := length_redirection hredir
        simp only [Option.map_some, Option.toList_some]
        rw [hbuild (by omega) le_rfl]
    | mv => exact absurd rfl hc

/-- With two names of which the first fits, `mv` is right exactly if both paths fit. -/
theorem mv_pair_iff {cwd oldName newName : CString} (hcwd : cwd.length ≤ 63)
    (hlen : oldName.length ≤ 31) :
    (buildAbsolutePath cwd oldName 128).take 31 = absolutePath cwd oldName ∧
        (buildAbsolutePath cwd (newName.take 31) (shmTotalSize - 128)).take 31 =
          absolutePath cwd newName ↔
      (absolutePath cwd oldName).length ≤ 31 ∧ (absolutePath cwd newName).length ≤ 31 := by
  have hnew : (newName.take 31).length ≤ 31 := List.length_take_le _ _
  have hroom : cwd.length + 1 + (newName.take 31).length < shmTotalSize - 128 := by
    change _ < 16256
    omega
  rw [buildAbsolutePath_of_lt (by omega), buildAbsolutePath_of_lt hroom, List.take_eq_self_iff]
  refine and_congr_right fun _ => ?_
  constructor
  · intro h
    rw [← h]
    exact List.length_take_le _ _
  · intro h
    have hname : newName.take 31 = newName :=
      List.take_of_length_le ((length_absolutePath cwd newName).trans h)
    rw [hname]
    exact List.take_of_length_le h

theorem mv_executed_eq_iff {cwd a : CString} (hcwd : cwd.length ≤ 63)
    (hskip : a.dropWhile (· = blank) = a) (hne : a ≠ []) :
    Command.mv.executed cwd (some a) = Command.mv.typed cwd (some a) ↔
      Command.mv.Fits cwd (some a) := by
  have hhead : (words a).head? = some (a.takeWhile (· ≠ blank)) := by rw [words_eq hskip hne]; rfl
  by_cases hlen : (a.takeWhile (· ≠ blank)).length ≤ 31
  · have hshell : ∀ b, some a = some b → ∀ w ∈ (words b).head?, w.length ≤ 31 := by
      intro b hb w hw
      obtain rfl := Option.some.inj hb
      rw [hhead] at hw
      obtain rfl := Option.some.inj hw
      exact hlen
    rcases mvNames_eq hskip hne hlen with ⟨hwords, hnames⟩ | ⟨newName, rest, hwords, hnames⟩
    · have htyped : Command.mv.typed cwd (some a) = [] := by simp only [Command.typed, hwords]
      have hexec : Command.mv.executed cwd (some a) = [] := by
        simp only [Command.executed, Command.sent, hnames, List.map_nil]
      refine ⟨fun _ => ⟨?_, fun _ => hshell⟩, fun _ => hexec.trans htyped.symm⟩
      intro paths hpaths
      rw [htyped] at hpaths
      cases hpaths
    · have htyped : Command.mv.typed cwd (some a) =
          [[absolutePath cwd (a.takeWhile (· ≠ blank)), absolutePath cwd newName]] := by
        simp only [Command.typed, hwords]
      have hexec : Command.mv.executed cwd (some a) =
          [[(buildAbsolutePath cwd (a.takeWhile (· ≠ blank)) 128).take 31,
            (buildAbsolutePath cwd (newName.take 31) (shmTotalSize - 128)).take 31]] := by
        simp only [Command.executed, Command.sent, hnames, List.map_cons, List.map_nil]
        rfl
      rw [htyped, hexec]
      have hpair : _ ↔ _ ∧ (absolutePath cwd newName).length ≤ 31 := mv_pair_iff hcwd hlen
      constructor
      · intro heq
        simp only [List.cons.injEq, and_true] at heq
        obtain ⟨hold, hnew⟩ := hpair.mp heq
        refine ⟨?_, fun _ => hshell⟩
        rw [htyped]
        simp only [List.mem_cons, List.not_mem_nil, or_false, forall_eq, forall_eq_or_imp]
        exact ⟨Nat.lt_succ_of_le hold, Nat.lt_succ_of_le hnew⟩
      · intro hfits
        have hdriver := hfits.driver
        rw [htyped] at hdriver
        simp only [List.mem_cons, List.not_mem_nil, or_false, forall_eq, forall_eq_or_imp] at hdriver
        simp only [List.cons.injEq, and_true]
        exact hpair.mpr ⟨Nat.le_of_lt_succ hdriver.1, Nat.le_of_lt_succ hdriver.2⟩
  · -- the first name is cut, so it is not the one that was typed
    obtain ⟨newName, hnames⟩ := mvNames_of_long (not_le.mp hlen)
    refine ⟨fun heq => ?_, fun hfits => absurd (hfits.shell rfl a rfl _ hhead) hlen⟩
    have hexec : Command.mv.executed cwd (some a) =
        [[(buildAbsolutePath cwd ((a.takeWhile (· ≠ blank)).take 31) 128).take 31,
          (buildAbsolutePath cwd newName (shmTotalSize - 128)).take 31]] := by
      simp only [Command.executed, Command.sent, hnames, List.map_cons, List.map_nil]
      rfl
    rw [hexec] at heq
    simp only [Command.typed] at heq
    split at heq
    · rename_i oldName newName rest hwords
      rw [hwords] at hhead
      obtain rfl := Option.some.inj hhead
      simp only [List.cons.injEq, and_true] at heq
      have hle := length_absolutePath cwd (a.takeWhile (· ≠ blank))
      rw [← heq.1] at hle
      exact absurd (hle.trans (List.length_take_le _ _)) hlen
    · cases heq

theorem command_executed_eq_iff {l : Line} {c : Command} {cwd : CString}
    (hcwd : cwd.length ≤ 63) :
    c.executed cwd l.arg = c.typed cwd l.arg ↔ c.Fits cwd l.arg := by
  by_cases hmv : c = .mv
  · subst hmv
    cases harg : l.arg with
    | none => exact ⟨fun _ => ⟨by rintro _ ⟨⟩, by rintro - _ ⟨⟩⟩, fun _ => rfl⟩
    | some a =>
      by_cases hne : a = []
      · subst hne
        exact ⟨fun _ => ⟨by rintro _ ⟨⟩, by rintro - _ ⟨⟩ _ ⟨⟩⟩, fun _ => rfl⟩
      · exact mv_executed_eq_iff hcwd (Line.dropWhile_arg harg) hne
  · have hsent : c.sent cwd l.arg = c.typed cwd l.arg :=
      sent_eq_typed hmv hcwd fun a => Line.length_arg
    rw [executed_eq_iff_of_sent hsent]
    exact ⟨fun h => ⟨h, fun h => absurd h hmv⟩, fun h => h.driver⟩

namespace Line

/-- The paths on which the driver works for a line. -/
def executed (l : Line) (cwd : CString) : List (List CString) :=
  match l.command with
  | none => []
  | some c => c.executed cwd l.arg

/-- The paths that were typed on a line. -/
def typed (l : Line) (cwd : CString) : List (List CString) :=
  match l.command with
  | none => []
  | some c => c.typed cwd l.arg

/-- The paths of the line's command fit into the buffers on their way. -/
def Fits (l : Line) (cwd : CString) : Prop := ∀ c, l.command = some c → c.Fits cwd l.arg

/-- A file command is carried out on the paths that were typed, or refused by the shell, exactly if
each of them fits into the driver's buffer and, for `mv`, the first name fits into the shell's. -/
theorem executed_eq_typed_iff (l : Line) {cwd : CString} (hcwd : cwd.length ≤ 63) :
    l.executed cwd = l.typed cwd ↔ l.Fits cwd := by
  unfold executed typed Fits
  cases hc : l.command with
  | none =>
    refine ⟨fun _ c h => ?_, fun _ => rfl⟩
    cases h
  | some c =>
    rw [command_executed_eq_iff hcwd]
    constructor
    · intro h b hb
      obtain rfl := Option.some.inj hb
      exact h
    · intro h
      exact h c rfl

end Line

/-! Two lines, typed in the root directory and in a directory with a long name. -/

/-- `rm a`. -/
def rmShort : Line := ⟨[114, 109, 32, 97], by decide, by decide +kernel⟩

/-- `rm` of a file whose name has 40 characters. -/
def rmLong : Line :=
  ⟨[114, 109, 32] ++ List.replicate 40 97, by decide, by decide +kernel⟩

/-- `"/"` and a name of 31 characters. -/
def deepCwd : CString := slash :: List.replicate 31 100

/-- `rm a` in the root directory removes `/a`. -/
theorem executed_eq_typed_rmShort : rmShort.executed rootPath = rmShort.typed rootPath := by
  apply (rmShort.executed_eq_typed_iff (by decide)).mpr
  intro c hc
  obtain rfl : Command.rm = c := Option.some.inj hc
  refine ⟨by decide, ?_⟩
  intro h
  cases h

/-- The last ten characters of a file's path are lost on the way to the driver. -/
theorem not_executed_rmLong : deepCwd.length ≤ 63 ∧
    rmLong.typed deepCwd = [[deepCwd ++ slash :: List.replicate 40 97]] ∧
    rmLong.executed deepCwd = [[deepCwd ++ slash :: List.replicate 30 97]] ∧
    rmLong.executed deepCwd ≠ rmLong.typed deepCwd := by decide

/-- `mv` with a single name of 35 characters renames its first 31 to its last four. -/
example : Command.mv.typed rootPath (some (List.replicate 35 97)) = [] ∧
    Command.mv.executed rootPath (some (List.replicate 35 97)) =
      [[slash :: List.replicate 30 97, slash :: List.replicate 4 97]] := by decide

end PsychWard.Shell
