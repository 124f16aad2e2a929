import PsychWard.Shell.LineEditor
import PsychWard.Shell.LocalTime
import PsychWard.Uart.Clients
import Mathlib.Data.Bool.AllAny
import Mathlib.Tactic.IntervalCases

/-!
# The shell at the console

The loop of `main` in `shell.cpp` around a command: print the prompt, read a line, execute it. Every
string it prints and every character it reads is a call to the UART driver, between whose messages
those of other programs and the interrupts of the keyboard come in any order.

`obeys_of_run` says which lines are executed: those that the keys mean, each exactly once and in
order. `shown_of_run` says that the line is on the screen: where the shell waits for a key, the
terminal shows the prompt and behind it what would be executed after the return key.

What a command does is left open, up to what it prints.
-/

namespace PsychWard.Shell

open Terminal (Printable)
open Uart

/-- A call of the shell to the driver that it makes for its effect. -/
inductive ConsoleCall
  | puts (piece : List ℕ)
  | flush

namespace ConsoleCall

/-- The message of a call. -/
def message (pid : ℕ) (typed window : List UInt8) (txRoom : ℕ) : ConsoleCall → ConsoleMessage
  | .puts piece => Uart.putsMessage pid piece typed window txRoom
  | .flush => ⟨pid, 1, fun _ => 9, typed, window, txRoom⟩

end ConsoleCall

/-- `sys_read` -/
def keyMessage (pid : ℕ) (typed window : List UInt8) (txRoom : ℕ) : ConsoleMessage :=
  ⟨pid, 1, fun _ => 6, typed, window, txRoom⟩

/-- `sys_puts` -/
def sysPuts (str : List UInt8) : List ConsoleCall := (sysWrite (str.map UInt8.toNat)).map .puts

/-- The calls for a character. -/
def KeyDone.calls (k : KeyDone) : List ConsoleCall :=
  sysPuts k.echo ++ if k.flush then [.flush] else []

/-- `"sandbox["`, `"] "` and `"> "` -/
def promptOpen : List UInt8 := [115, 97, 110, 100, 98, 111, 120, 91]
def promptClose : List UInt8 := [93, 32]
def promptEnd : List UInt8 := [62, 32]

/-- `prompt`: the PID and the working directory, as far as they fit. -/
def prompt (pid : ℕ) (cwd : List UInt8) : List UInt8 :=
  let shown := promptOpen ++ sysPutdec pid ++ promptClose
  shown ++ cwd.take (128 - shown.length - 3 - 1) ++ promptEnd

/-- What a terminal can show of the output of a command: printable characters and newlines. -/
def Displayable (str : List UInt8) : Prop := ∀ c ∈ str, Printable c ∨ c = 10

/-- The calls for a text and the next prompt. -/
def promptCalls (pid : ℕ) (output cwd : List UInt8) : List ConsoleCall :=
  sysPuts output ++ sysPuts (prompt pid cwd) ++ [.flush]

/-- The console, the calls that the shell has still to make, the line, whether its loop was left,
the prompt, and the lines that were executed. -/
structure CommandLoop where
  console : Console
  calls : List ConsoleCall
  line : ReadLine
  ended : Bool
  prompt : List UInt8
  executed : List (List UInt8)

namespace CommandLoop

/-- The shell has printed its banner, and comes to the head of its loop. -/
def start (pid : ℕ) (console : Console) (banner cwd : List UInt8) (garbage : ℕ → UInt8) :
    CommandLoop where
  console := console
  calls := promptCalls pid banner cwd
  line := ⟨garbage, 0⟩
  ended := false
  prompt := Shell.prompt pid cwd
  executed := []

/-- The loop over the characters is over. -/
def Complete (s : CommandLoop) : Prop := s.ended = true ∨ ¬ s.line.i < cmdMax

instance (s : CommandLoop) : Decidable s.Complete := inferInstanceAs (Decidable (_ ∨ _))

/-- What happens next. -/
inductive Event
  | call (typed : List UInt8)
  | read (typed : List UInt8)
  | execute (output cwd : List UInt8)
  | other (m : ConsoleMessage)

/-- The characters that are typed meanwhile. -/
def Event.typed : Event → List UInt8
  | .call typed => typed
  | .read typed => typed
  | .execute _ _ => []
  | .other m => m.typed

inductive Step (pid : ℕ) (s : CommandLoop) : Event → CommandLoop → Prop
  /-- A call that waits is made. -/
  | call (c : ConsoleCall) (rest : List ConsoleCall) (typed window : List UInt8) (txRoom : ℕ)
      (hcalls : s.calls = c :: rest) :
      Step pid s (.call typed)
        { s with
          console := (s.console.handle (c.message pid typed window txRoom)).1
          calls := rest }
  /-- The shell asks for a key. -/
  | read (typed window : List UInt8) (txRoom word : ℕ) (hcalls : s.calls = [])
      (hread : ¬ s.Complete)
      (hword : (s.console.handle (keyMessage pid typed window txRoom)).2 = some [word]) :
      Step pid s (.read typed)
        { s with
          console := (s.console.handle (keyMessage pid typed window txRoom)).1
          calls := (s.line.key (UInt8.ofNat word)).calls
          line := (s.line.key (UInt8.ofNat word)).line
          ended := (s.line.key (UInt8.ofNat word)).ended }
  /-- The command runs, and the next prompt is printed. -/
  | execute (output cwd : List UInt8) (garbage : ℕ → UInt8) (hcalls : s.calls = [])
      (hcomplete : s.Complete) (houtput : s.line.i = 0 → output = []) :
      Step pid s (.execute output cwd)
        { s with
          calls := promptCalls pid output cwd
          line := ⟨garbage, 0⟩
          ended := false
          prompt := Shell.prompt pid cwd
          executed := s.executed ++ [s.line.text] }
  /-- The driver gets a message from elsewhere. -/
  | other (m : ConsoleMessage) (hm : m.badge ≠ pid) :
      Step pid s (.other m) { s with console := (s.console.handle m).1 }

/-- The lines that were entered, and the one begun. -/
def entered (s : CommandLoop) : List (List UInt8) × List UInt8 :=
  if s.Complete then (s.executed ++ [s.line.text], []) else (s.executed, s.line.text)

/-- Nobody else reads the keyboard, and the ring has room for what was typed. -/
def Undisturbed (s : CommandLoop) (e : Event) : Prop :=
  s.console.driver.waiting.length + s.console.driver.uart.length + e.typed.length ≤ 127 ∧
    ∀ m, e = .other m → ¬ m.keyboard.IsRead

/-- Nobody else prints, and a terminal can show what the commands print. -/
def Legible (_ : CommandLoop) : Event → Prop
  | .execute output cwd => Displayable output ∧ ∀ c ∈ cwd, Printable c
  | .other m => ¬ m.IsPuts
  | _ => True

/-- The shell executes the lines that the keys mean. -/
structure Obeys (typed : List UInt8) (s : CommandLoop) : Prop where
  /-- What was entered is what the keys mean that the shell has read. -/
  entered : s.entered = typedLines s.console.driver.returned
  /-- These are the first of the typed keys, and the others still wait. -/
  keys : s.console.driver.keys = typed
  lines : ∀ line ∈ s.entered.1, IsCommandLine line
  /-- Slips that were taken back are not executed. -/
  meant : ∀ ls : List TypedLine, s.console.driver.returned = ls.flatMap TypedLine.keys →
    s.entered = (ls.map TypedLine.line, [])

end CommandLoop

namespace CommandLoop

variable {pid : ℕ} {s s' : CommandLoop} {e : Event} {es : List Event}

/-! ## The line -/

/-- The shell takes a key as it is meant. -/
theorem entered_key (console : Console) (calls : List ConsoleCall) (c : UInt8) (h : ¬ s.Complete) :
    entered { s with
      console := console
      calls := calls
      line := (s.line.key c).line
      ended := (s.line.key c).ended } = typeKey s.entered c := by
  obtain ⟨hended, htext⟩ := s.line.key_spec c
  rw [entered, entered, if_neg h, typeKey]
  by_cases hret : IsReturn c
  · rw [if_pos hret] at htext ⊢
    rw [if_pos (.inl (by rw [hended]; exact decide_eq_true hret)), htext]
  · rw [if_neg hret] at htext ⊢
    have hlen : (s.line.key c).line.i = (editLine s.line.text c).length := by
      rw [← htext, ReadLine.length_text]
    rw [htext]
    by_cases hroom : (editLine s.line.text c).length < cmdMax
    · rw [if_pos hroom, if_neg]
      rintro (htrue | hfull)
      · rw [hended, decide_eq_true_iff] at htrue
        exact hret htrue
      · exact hfull (hlen.trans_lt hroom)
    · rw [if_neg hroom, if_pos (.inr fun hlt => hroom (hlen.symm.trans_lt hlt))]

theorem entered_start (console : Console) (banner cwd : List UInt8) (garbage : ℕ → UInt8) :
    (start pid console banner cwd garbage).entered = ([], []) := by
  rw [entered, if_neg]
  · rfl
  · rintro (h | h)
    · exact absurd h Bool.false_ne_true
    · exact h cmdMax_pos

/-- Executing a line does not change what was entered. -/
theorem entered_execute (calls : List ConsoleCall) (prompt : List UInt8) (garbage : ℕ → UInt8)
    (h : s.Complete) :
    entered { s with
      calls := calls
      line := ⟨garbage, 0⟩
      ended := false
      prompt := prompt
      executed := s.executed ++ [s.line.text] } = s.entered := by
  rw [entered, entered, if_pos h, if_neg]
  · rfl
  · rintro (hfalse | hfull)
    · exact absurd hfalse Bool.false_ne_true
    · exact hfull cmdMax_pos

theorem not_isRead_call (c : ConsoleCall) (typed window : List UInt8)
    (txRoom : ℕ) : ¬ (c.message pid typed window txRoom).keyboard.IsRead := by
  rintro ⟨-, -, -, h⟩
  cases c with
  | puts piece => exact absurd (show 8 = 6 from h) (by decide)
  | flush => exact absurd (show 9 = 6 from h) (by decide)

theorem isRead_keyMessage (hpid : 1 < pid ∧ pid < 256) (typed window : List UInt8) (txRoom : ℕ) :
    (keyMessage pid typed window txRoom).keyboard.IsRead :=
  ⟨hpid.1.ne', Nat.lt_of_succ_lt hpid.1, hpid.2, rfl⟩

/-- What every step preserves about the line. -/
structure LineInv (s : CommandLoop) : Prop where
  quiet : s.console.Quiet
  entered : s.entered = typedLines s.console.driver.returned

theorem LineInv.step (hpid : 1 < pid ∧ pid < 256) (h : s.LineInv)
    (hs : guarded (Step pid) Undisturbed s e s') : s'.LineInv := by
  obtain ⟨⟨-, hothers⟩, hs⟩ := hs
  have hsame : ∀ {m : ConsoleMessage}, ¬ m.keyboard.IsRead →
      (s.console.handle m).1.driver.returned = s.console.driver.returned := fun hm => by
    rw [h.quiet.driver, returned_handle hm]
  cases hs with
  | call c rest typed window txRoom hcalls =>
    exact ⟨h.quiet.step _, h.entered.trans (by rw [hsame (not_isRead_call c _ _ _)])⟩
  | read typed window txRoom word hcalls hread hword =>
    have hm := isRead_keyMessage hpid typed window txRoom
    refine ⟨h.quiet.step _, (entered_key _ _ _ hread).trans ?_⟩
    rw [h.quiet.reply, handle_read hm] at hword
    obtain rfl := List.singleton_inj.mp (Option.some.inj hword)
    obtain ⟨hsys, -, hret, -⟩ := sysRead_spec
      (s.console.driver.typed (keyMessage pid typed window txRoom).keyboard)
    show _ = typedLines (s.console.handle _).1.driver.returned
    rw [h.quiet.driver, handle_read hm, hret, hsys, h.entered]
    show typeKey (typedLines s.console.driver.returned) (UInt8.ofNat
      ((s.console.driver.waiting.head?.map UInt8.toNat).getD minusOne)) =
      typedLines (s.console.driver.returned ++ s.console.driver.waiting.head?.toList)
    cases s.console.driver.waiting with
    | nil =>
      -- the driver's -1 is skipped
      rw [List.head?_nil, Option.toList_none, List.append_nil]
      have hlt := (typedLines_isCommandLine s.console.driver.returned).2.2
      exact typeKey_skipped (c := 255) (by decide) (by decide) (by decide) hlt
    | cons c l =>
      rw [List.head?_cons, Option.toList_some, typedLines_snoc]
      exact congrArg _ UInt8.ofNat_toNat
  | execute output cwd garbage hcalls hcomplete houtput =>
    exact ⟨h.quiet, (entered_execute _ _ garbage hcomplete).trans h.entered⟩
  | other m hm =>
    exact ⟨h.quiet.step m, h.entered.trans (by rw [hsame (hothers m rfl)])⟩

/-- No step loses a key. -/
theorem Step.keys (hq : s.console.Quiet)
    (hroom : s.console.driver.waiting.length + s.console.driver.uart.length + e.typed.length ≤ 127)
    (hs : Step pid s e s') :
    s'.console.driver.keys = s.console.driver.keys ++ e.typed := by
  cases hs with
  | call c rest typed window txRoom hcalls =>
    have htyped : (c.message pid typed window txRoom).keyboard.typed = typed := by cases c <;> rfl
    show (s.console.handle _).1.driver.keys = _
    rw [hq.driver, keys_handle (by rwa [htyped]), htyped]
    rfl
  | read typed window txRoom word hcalls hread hword =>
    show (s.console.handle _).1.driver.keys = _
    rw [hq.driver, keys_handle hroom]
    rfl
  | execute output cwd garbage hcalls hcomplete houtput => exact (List.append_nil _).symm
  | other m hm =>
    show (s.console.handle _).1.driver.keys = _
    rw [hq.driver, keys_handle hroom]
    rfl

section Run

variable {console : Console} {banner cwd : List UInt8} {garbage : ℕ → UInt8}

theorem lineInv_of_run (hpid : 1 < pid ∧ pid < 256) (hq : console.Quiet)
    (hnew : console.driver.returned = [])
    (h : Run (guarded (Step pid) Undisturbed) (start pid console banner cwd garbage) es s) :
    s.LineInv :=
  h.invariant (fun _ _ _ hi hs => hi.step hpid hs)
    ⟨hq, (entered_start console banner cwd garbage).trans (congrArg typedLines hnew).symm⟩

/-- However the messages of the shell, of other programs and of the keyboard come, the lines that
are executed are those that the keys mean. -/
theorem obeys_of_run (hpid : 1 < pid ∧ pid < 256) (hq : console.Quiet)
    (hnew : console.driver.returned = [])
    (h : Run (guarded (Step pid) Undisturbed) (start pid console banner cwd garbage) es s) :
    s.Obeys (console.driver.waiting ++ console.driver.uart ++ (es.map Event.typed).flatten) := by
  have hinv := lineInv_of_run hpid hq hnew h
  refine ⟨hinv.entered, ?_, ?_, fun ls hls => ?_⟩
  · induction h with
    | nil =>
      show UartDriver.keys console.driver = _
      rw [UartDriver.keys, hnew, List.nil_append, List.map_nil, List.flatten_nil, List.append_nil]
    | snoc h he ih =>
      have hinv := lineInv_of_run hpid hq hnew h
      rw [he.2.keys hinv.quiet he.1.1, ih hinv, List.map_append, List.flatten_append,
        ← List.append_assoc, List.map_singleton, List.flatten_singleton]
  · rw [hinv.entered]
    exact (typedLines_isCommandLine _).1
  · rw [hinv.entered, hls, TypedLine.typedLines_keys]

end Run

/-- A shell with the PID 5 at `/`, and the driver as it starts. -/
def firstPrompt : CommandLoop := start 5 (.start (fun _ => 0) true) [] [47] fun _ => 0

/-- The key `a` is pressed. -/
def keyA : ConsoleMessage := ⟨1, 0, fun _ => 0, [97], [], 4⟩

/-- The prompt is printed, the key is pressed, and the shell reads and echoes it. -/
def firstKey : List Event := [.call [], .call [], .other keyA, .read [], .call [], .call []]

theorem run_firstKey : ∃ s,
    Run (guarded (Step 5) fun s e => Undisturbed s e ∧ Legible s e) firstPrompt firstKey s ∧
      s.calls = [] ∧ ¬ s.Complete ∧ s.entered = ([], [97]) := by
  have hown : ∀ m, Event.call [] = .other m → ¬ m.keyboard.IsRead := fun _ h => nomatch h
  have hprompt : Run (guarded (Step 5) fun s e => Undisturbed s e ∧ Legible s e) firstPrompt
      [.call [], .call []] _ :=
    (Run.single ⟨⟨⟨by decide, hown⟩, trivial⟩, .call _ _ [] [] 4 rfl⟩).snoc
      ⟨⟨⟨by decide, hown⟩, trivial⟩, .call _ _ [] [] 4 rfl⟩
  have hkey : ∀ m, Event.other keyA = .other m → ¬ m.keyboard.IsRead := by
    intro m h
    obtain rfl := Event.other.inj h
    exact fun hread => hread.1 rfl
  have hsilent : ¬ keyA.IsPuts := fun hputs => hputs.1 rfl
  have htyped := hprompt.snoc (e := .other keyA)
    ⟨⟨⟨by decide, hkey⟩, by rw [Legible]; exact hsilent⟩, .other keyA (by decide)⟩
  have hread := htyped.snoc (e := .read [])
    ⟨⟨⟨by decide, fun _ h => nomatch h⟩, trivial⟩, .read [] [] 4 97 rfl (by decide) (by decide)⟩
  have hecho := (hread.snoc ⟨⟨⟨by decide, hown⟩, trivial⟩, .call _ _ [] [] 4 rfl⟩).snoc
    ⟨⟨⟨by decide, hown⟩, trivial⟩, .call _ _ [] [] 4 rfl⟩
  exact ⟨_, hecho, rfl, by decide, by decide⟩

theorem obeys_of_run_firstKey : ∃ s, Run (guarded (Step 5) Undisturbed) firstPrompt firstKey s ∧
    s.Obeys [97] ∧ s.entered = ([], [97]) := by
  obtain ⟨s, hrun, -, -, hentered⟩ := run_firstKey
  have hrun : Run (guarded (Step 5) Undisturbed) firstPrompt firstKey s :=
    hrun.mono fun _ _ _ h => ⟨h.1.1, h.2⟩
  exact ⟨s, hrun, obeys_of_run (by decide) (Console.quiet_start _ _) rfl hrun, hentered⟩

end CommandLoop

/-! ## What is printed -/

/-- What a call puts on the wire. -/
def ConsoleCall.bytes : ConsoleCall → List UInt8
  | .puts piece => piece.flatMap fun c => putcBytes (UInt8.ofNat c)
  | .flush => []

/-- A call of `sys_puts` has characters, and fits into a message. -/
def ConsoleCall.Fits (c : ConsoleCall) : Prop :=
  ∀ piece, c = .puts piece → piece ≠ [] ∧ piece.length ≤ 100

theorem sysPuts_fits {str : List UInt8} {c : ConsoleCall} (h : c ∈ sysPuts str) : c.Fits := by
  rintro piece rfl
  obtain ⟨piece', hmem, heq⟩ := List.mem_map.mp h
  obtain rfl := ConsoleCall.puts.inj heq
  exact sysWrite_piece hmem

theorem sysPuts_bytes (str : List UInt8) :
    (sysPuts str).flatMap ConsoleCall.bytes = str.flatMap putcBytes := by
  have hflat := flatten_sysWrite [str.map UInt8.toNat]
  rw [List.flatMap_singleton, List.flatten_singleton] at hflat
  have hpieces : ∀ pieces : List (List ℕ), (pieces.map ConsoleCall.puts).flatMap ConsoleCall.bytes =
      pieces.flatten.flatMap fun c => putcBytes (UInt8.ofNat c) := fun pieces => by
    rw [List.flatMap_map, List.flatten_eq_flatMap, List.flatMap_assoc]
    rfl
  rw [sysPuts, hpieces, hflat, List.flatMap_map]
  exact List.flatMap_congr fun c _ => by rw [UInt8.ofNat_toNat]

theorem flush_fits : ConsoleCall.flush.Fits := fun _ h => nomatch h

theorem calls_bytes (k : KeyDone) :
    k.calls.flatMap ConsoleCall.bytes = k.echo.flatMap putcBytes := by
  rw [KeyDone.calls, List.flatMap_append, sysPuts_bytes]
  split
  · exact List.append_nil _
  · exact List.append_nil _

theorem calls_fits {k : KeyDone} {c : ConsoleCall} (h : c ∈ k.calls) : c.Fits := by
  rcases List.mem_append.mp h with h | h
  · exact sysPuts_fits h
  · split at h
    · exact List.mem_singleton.mp h ▸ flush_fits
    · exact absurd h List.not_mem_nil

theorem Displayable.shows {str : List UInt8} (h : Displayable str) {t : Terminal}
    {text : List UInt8}
    (ht : t.Shows text) : ∃ text', (t.feedAll (str.flatMap putcBytes)).Shows text' := by
  induction str generalizing t text with
  | nil => exact ⟨text, ht⟩
  | cons c str ih =>
    have hstr : Displayable str := fun a ha => h a (List.mem_cons_of_mem c ha)
    rw [List.flatMap_cons, Terminal.feedAll_append]
    rcases h c List.mem_cons_self with hc | rfl
    · rw [putcBytes_printable hc]
      exact ih hstr (ht.print hc)
    · exact ih hstr (Terminal.Shows.newline t)

theorem sysPutdec_printable (n : ℕ) : ∀ c ∈ sysPutdec n, Printable c := by
  intro c hc
  rw [sysPutdec] at hc
  split at hc
  · obtain rfl := List.mem_singleton.mp hc
    decide
  · obtain ⟨d, hd, rfl⟩ := List.mem_map.mp (List.mem_reverse.mp hc)
    have hlt : d < 10 := Nat.digits_lt_base (by decide) hd
    interval_cases d <;> decide

theorem prompt_printable (pid : ℕ) {cwd : List UInt8} (h : ∀ c ∈ cwd, Printable c) :
    ∀ c ∈ prompt pid cwd, Printable c := by
  have hopen : ∀ c ∈ promptOpen, Printable c := List.all_iff_forall_prop.mp (by decide)
  have hclose : ∀ c ∈ promptClose, Printable c := List.all_iff_forall_prop.mp (by decide)
  have hend : ∀ c ∈ promptEnd, Printable c := List.all_iff_forall_prop.mp (by decide)
  intro c hc
  rw [prompt] at hc
  simp only [List.mem_append] at hc
  rcases hc with (((hc | hc) | hc) | hc) | hc
  · exact hopen c hc
  · exact sysPutdec_printable pid c hc
  · exact hclose c hc
  · exact h c (List.mem_of_mem_take hc)
  · exact hend c hc

namespace CommandLoop

variable {pid : ℕ} {s s' : CommandLoop} {e : Event} {es : List Event}

/-- The screen, once the calls that wait have been made. -/
def screen (s : CommandLoop) : Terminal :=
  Terminal.clear.feedAll (s.console.wire ++ s.calls.flatMap ConsoleCall.bytes)

/-- What every step preserves about the screen. -/
structure ScreenInv (s : CommandLoop) : Prop where
  quiet : s.console.Quiet
  fits : ∀ c ∈ s.calls, c.Fits
  shows : ∃ shown, s.screen.Shows shown ∧
    (s.ended = false → ∃ base, shown = base ++ s.prompt ++ s.line.text)

/-- The output of a command, the prompt and an empty line. -/
theorem shows_output {t : Terminal} {shown output cwd : List UInt8} (ht : t.Shows shown)
    (houtput : Displayable output) (hcwd : ∀ c ∈ cwd, Printable c) :
    ∃ base, (t.feedAll ((promptCalls pid output cwd).flatMap ConsoleCall.bytes)).Shows
      (base ++ Shell.prompt pid cwd) := by
  obtain ⟨base, hbase⟩ := houtput.shows ht
  have hbytes : (promptCalls pid output cwd).flatMap ConsoleCall.bytes =
      output.flatMap putcBytes ++ Shell.prompt pid cwd := by
    rw [promptCalls, List.flatMap_append, List.flatMap_append, sysPuts_bytes, sysPuts_bytes,
      flatMap_putcBytes (prompt_printable pid hcwd)]
    exact List.append_nil _
  rw [hbytes, Terminal.feedAll_append]
  exact ⟨base, hbase.printAll (prompt_printable pid hcwd)⟩

theorem promptCalls_fits {output cwd : List UInt8} : ∀ c ∈ promptCalls pid output cwd, c.Fits := by
  intro c hc
  simp only [promptCalls, List.mem_append] at hc
  rcases hc with (hc | hc) | hc
  · exact sysPuts_fits hc
  · exact sysPuts_fits hc
  · exact List.mem_singleton.mp hc ▸ flush_fits

/-- A call puts its characters on the wire. -/
theorem wire_call (hpid : 1 < pid ∧ pid < 256) {console : Console} (hq : console.Quiet)
    {c : ConsoleCall} (hfits : c.Fits) (typed window : List UInt8) (txRoom : ℕ) :
    (console.handle (c.message pid typed window txRoom)).1.wire = console.wire ++ c.bytes := by
  rw [hq.wire, Console.printedBy]
  cases c with
  | puts piece =>
    obtain ⟨hne, hlen⟩ := hfits piece rfl
    rw [ConsoleCall.message, if_pos (isPuts_putsMessage hpid piece typed window txRoom)]
    show console.wire ++ ((Uart.putsMessage pid piece typed window txRoom).text _).flatMap _ = _
    rw [text_putsMessage hne (by omega), List.flatMap_map]
    rfl
  | flush =>
    rw [if_neg]
    · rfl
    · rintro ⟨-, -, -, h⟩
      exact absurd (show 9 = 8 from h) (by decide)

theorem ScreenInv.step (hpid : 1 < pid ∧ pid < 256) (h : s.ScreenInv)
    (hs : guarded (Step pid) Legible s e s') : s'.ScreenInv := by
  obtain ⟨hlegible, hs⟩ := hs
  obtain ⟨shown, hshown, hline⟩ := h.shows
  -- a call moves bytes from what waits to the wire: the screen stays; a key and a command add calls
  cases hs with
  | call c rest typed window txRoom hcalls =>
    have hc : c.Fits := h.fits c (by rw [hcalls]; exact List.mem_cons_self)
    refine ⟨h.quiet.step _, fun c' hc' => h.fits c' ?_, shown, ?_, hline⟩
    · rw [hcalls]
      exact List.mem_cons_of_mem c hc'
    · rw [screen, hcalls, List.flatMap_cons, ← List.append_assoc] at hshown
      rw [screen, wire_call hpid h.quiet hc]
      exact hshown
  | read typed window txRoom word hcalls hread hword =>
    have hended : s.ended = false := Bool.eq_false_of_not_eq_true fun hend => hread (.inl hend)
    obtain ⟨base, rfl⟩ := hline hended
    have hquiet : ¬ (keyMessage pid typed window txRoom).IsPuts := by
      rintro ⟨-, -, -, h⟩
      exact absurd (show 6 = 8 from h) (by decide)
    rw [screen, hcalls, List.flatMap_nil, List.append_nil] at hshown
    have hkey := s.line.echo_spec (UInt8.ofNat word) hshown
    refine ⟨h.quiet.step _, fun c hc => calls_fits hc, if IsReturn (UInt8.ofNat word) then [] else
      base ++ s.prompt ++ (s.line.key (UInt8.ofNat word)).line.text, ?_, fun hfalse => ⟨base, ?_⟩⟩
    · rw [screen, h.quiet.wire, Console.printedBy, if_neg hquiet, List.append_nil, calls_bytes,
        Terminal.feedAll_append]
      exact hkey
    · have hret : ¬ IsReturn (UInt8.ofNat word) := fun hret =>
        absurd (hfalse.symm.trans ((s.line.key_spec _).1.trans (decide_eq_true hret)))
          Bool.false_ne_true
      rw [if_neg hret]
  | execute output cwd garbage hcalls hcomplete houtput =>
    rw [screen, hcalls, List.flatMap_nil, List.append_nil] at hshown
    obtain ⟨base, hbase⟩ := shows_output hshown hlegible.1 hlegible.2
    refine ⟨h.quiet, promptCalls_fits, _, ?_, fun _ => ⟨base, (List.append_nil _).symm⟩⟩
    rw [screen, Terminal.feedAll_append]
    exact hbase
  | other m hm =>
    refine ⟨h.quiet.step m, h.fits, shown, ?_, hline⟩
    rw [screen, h.quiet.wire, Console.printedBy, if_neg hlegible, List.append_nil]
    exact hshown

/-- Where the shell waits for a key, the screen shows the prompt and the line that the return key
would enter. -/
theorem shown_of_run (hpid : 1 < pid ∧ pid < 256) {console : Console} {banner cwd : List UInt8}
    {garbage : ℕ → UInt8} (hq : console.Quiet) {shown : List UInt8}
    (hshown : (Terminal.clear.feedAll console.wire).Shows shown) (hbanner : Displayable banner)
    (hcwd : ∀ c ∈ cwd, Printable c)
    (h : Run (guarded (Step pid) Legible) (start pid console banner cwd garbage) es s)
    (hcalls : s.calls = []) (hwaits : ¬ s.Complete) :
    ∃ base, (Terminal.clear.feedAll s.console.wire).Shows (base ++ s.prompt ++ s.entered.2) := by
  obtain ⟨base, hbase⟩ := shows_output hshown hbanner hcwd
  have hstart : (start pid console banner cwd garbage).ScreenInv := by
    refine ⟨hq, promptCalls_fits, _, ?_, fun _ => ⟨base, (List.append_nil _).symm⟩⟩
    rw [screen, Terminal.feedAll_append]
    exact hbase
  obtain ⟨-, -, shown', hshown', hline⟩ : s.ScreenInv :=
    h.invariant (fun _ _ _ hi hs => hi.step hpid hs) hstart
  have hended : s.ended = false := Bool.eq_false_of_not_eq_true fun hend => hwaits (.inl hend)
  obtain ⟨base', rfl⟩ := hline hended
  rw [screen, hcalls, List.flatMap_nil, List.append_nil] at hshown'
  refine ⟨base', ?_⟩
  rw [entered, if_neg hwaits]
  exact hshown'

theorem shown_of_run_firstKey : ∃ s, Run (guarded (Step 5) Legible) firstPrompt firstKey s ∧
    ∃ base, (Terminal.clear.feedAll s.console.wire).Shows (base ++ s.prompt ++ s.entered.2) := by
  obtain ⟨s, hrun, hcalls, hwaits, -⟩ := run_firstKey
  have hrun : Run (guarded (Step 5) Legible) firstPrompt firstKey s :=
    hrun.mono fun _ _ _ h => ⟨h.1.2, h.2⟩
  exact ⟨s, hrun, shown_of_run (by decide) (Console.quiet_start _ _) .clear
    (fun _ h => absurd h List.not_mem_nil) (List.forall_mem_singleton.mpr (by decide)) hrun hcalls
    hwaits⟩

end CommandLoop

end PsychWard.Shell
