import PsychWard.Shell.Grep
import PsychWard.Uart.Console

/-!
# The clients of the console

Every program prints through the UART driver. The shell, its threads and the block driver cut a
string into messages of at most 100 characters, the network driver sends it in one. A call returns
when the driver has replied, so that the messages of one program arrive in the order of its calls,
and those of different programs in any order in between.

`accounted_of_run` says what comes out at the UART: the messages one behind the other, none torn
apart, lost or repeated, and those of each program in its own order.
-/

namespace PsychWard.Uart

open Shell

/-- How a program hands a string to the driver. -/
inductive Cut
  /-- `sys_write` of the shell and `sys_puts` of the block driver -/
  | pieces
  /-- `sys_puts` of the network driver -/
  | whole
deriving DecidableEq

/-- The messages for a string. -/
def Cut.messages : Cut → List ℕ → List (List ℕ)
  | .pieces, str => sysWrite str
  | .whole, str => [str]

/-- What seL4 lets through of the number of registers that a message claims in its seven bits. -/
def messageLength (words : ℕ) : ℕ := min (words % 2 ^ 7) 120

/-- SYS_PUTS of a piece of text, from the program with this PID. -/
def putsMessage (pid : ℕ) (piece : List ℕ) (typed window : List UInt8) (txRoom : ℕ) :
    ConsoleMessage where
  badge := pid
  length := messageLength (piece.length + 1)
  mr n := if n = 0 then 8 else piece.getD (n - 1) 0
  typed := typed
  window := window
  txRoom := txRoom

/-- The console, what each program has still to send, and the messages that were printed, with the
PID of the sender. -/
structure Printing where
  console : Console
  unsent : ℕ → List (List ℕ)
  printed : List (ℕ × List ℕ)

namespace Printing

/-- Every program prints its texts one after the other. -/
def start (console : Console) (cut : ℕ → Cut) (texts : ℕ → List (List ℕ)) : Printing where
  console := console
  unsent pid := (texts pid).flatMap (cut pid).messages
  printed := []

/-- A program prints the next piece, or the driver gets a message that prints nothing. The driver
takes PID 1 for the interrupt, and answers no PID from 256 on. -/
inductive Step (s : Printing) : Option ℕ → Printing → Prop
  | print (pid : ℕ) (piece : List ℕ) (rest : List (List ℕ)) (typed window : List UInt8) (txRoom : ℕ)
      (hpid : 1 < pid ∧ pid < 256) (hunsent : s.unsent pid = piece :: rest) :
      Step s (some pid)
        { console := (s.console.handle (putsMessage pid piece typed window txRoom)).1
          unsent := Function.update s.unsent pid rest
          printed := s.printed ++ [(pid, piece)] }
  | other (m : ConsoleMessage) (hm : ¬ m.IsPuts) :
      Step s none { s with console := (s.console.handle m).1 }

/-- The pieces that a program has printed. -/
def printedBy (s : Printing) (pid : ℕ) : List (List ℕ) :=
  (s.printed.filter fun p => p.1 = pid).map Prod.snd

/-- What has left the UART, against the texts. -/
structure Accounted (cut : ℕ → Cut) (texts : ℕ → List (List ℕ)) (s : Printing) : Prop where
  /-- The wire carries the printed pieces one behind the other, and nothing else. -/
  wire : s.console.wire =
    s.printed.flatMap fun p => p.2.flatMap fun c => putcBytes (UInt8.ofNat c)
  /-- The pieces of a program are those of its texts, in order. -/
  pieces : ∀ pid, s.printedBy pid ++ s.unsent pid = (texts pid).flatMap (cut pid).messages
  /-- No character of a program is lost or repeated. -/
  characters : ∀ pid, (s.printedBy pid).flatten ++ (s.unsent pid).flatten = (texts pid).flatten

end Printing

/-! ## Messages -/

theorem sysWriteFrom_piece {fuel : ℕ} {str piece : List ℕ} (h : piece ∈ sysWriteFrom fuel str) :
    piece ≠ [] ∧ piece.length ≤ 100 := by
  induction fuel generalizing str with
  | zero => exact absurd h List.not_mem_nil
  | succ fuel ih =>
    rw [sysWriteFrom] at h
    split at h
    · exact absurd h List.not_mem_nil
    · rename_i hne
      rcases List.mem_cons.mp h with rfl | h
      · refine ⟨fun hnil => hne ?_, List.length_take_le 100 str⟩
        exact (List.take_eq_nil_iff.mp hnil).resolve_left (by decide)
      · exact ih h

/-- A piece of `sys_write` has between 1 and 100 characters. -/
theorem sysWrite_piece {str piece : List ℕ} (h : piece ∈ sysWrite str) :
    piece ≠ [] ∧ piece.length ≤ 100 := sysWriteFrom_piece h

theorem flatten_messages (cut : Cut) (texts : List (List ℕ)) :
    (texts.flatMap cut.messages).flatten = texts.flatten := by
  cases cut with
  | pieces => exact flatten_sysWrite texts
  | whole =>
    show (texts.flatMap fun str => [str]).flatten = _
    rw [List.flatMap_singleton']

theorem messageLength_eq {n : ℕ} (h : n ≤ 120) : messageLength n = n := by
  rw [messageLength, Nat.mod_eq_of_lt (by omega), Nat.min_eq_left h]

/-- A piece in registers is printed as it is. -/
theorem text_putsMessage {pid : ℕ} {piece : List ℕ} (hne : piece ≠ []) (hlen : piece.length < 120)
    (typed window : List UInt8) (txRoom : ℕ) (shmMapped : Bool) :
    (putsMessage pid piece typed window txRoom).text shmMapped = piece.map UInt8.ofNat := by
  have hpos := List.length_pos_of_ne_nil hne
  have hm : (putsMessage pid piece typed window txRoom).length = piece.length + 1 :=
    messageLength_eq hlen
  rw [ConsoleMessage.text, hm, Nat.add_sub_cancel, if_pos hpos, ConsoleMessage.characters, hm,
    Nat.add_sub_cancel]
  refine List.ext_getElem (by simp) fun i hi hi' => ?_
  have hi : i < piece.length := by simpa using hi
  simp [putsMessage, List.getElem?_eq_getElem hi]

theorem isPuts_putsMessage {pid : ℕ} (hpid : 1 < pid ∧ pid < 256) (piece : List ℕ)
    (typed window : List UInt8) (txRoom : ℕ) : (putsMessage pid piece typed window txRoom).IsPuts :=
  ⟨by have := hpid.1; show pid ≠ 1; omega, Nat.lt_of_succ_lt hpid.1, hpid.2, rfl⟩

/-- What a program sends keeps to the limits of a message: a string that is sent whole has to. -/
def Fits (cut : Cut) (texts : List (List ℕ)) : Prop :=
  cut = .whole → ∀ str ∈ texts, str ≠ [] ∧ str.length < 120

theorem Fits.message {cut : Cut} {texts : List (List ℕ)} (h : Fits cut texts) {piece : List ℕ}
    (hp : piece ∈ texts.flatMap cut.messages) : piece ≠ [] ∧ piece.length < 120 := by
  obtain ⟨str, hstr, hp⟩ := List.mem_flatMap.mp hp
  cases cut with
  | pieces =>
    obtain ⟨hne, hlen⟩ := sysWrite_piece hp
    exact ⟨hne, by omega⟩
  | whole =>
    obtain rfl := List.mem_singleton.mp hp
    exact h rfl _ hstr

namespace Printing

variable {cut : ℕ → Cut} {texts : ℕ → List (List ℕ)} {s s' : Printing} {t : Option ℕ}

/-! ## Runs -/

/-- What every step preserves. -/
structure Inv (cut : ℕ → Cut) (texts : ℕ → List (List ℕ)) (s : Printing) : Prop where
  quiet : s.console.Quiet
  wire : s.console.wire =
    s.printed.flatMap fun p => p.2.flatMap fun c => putcBytes (UInt8.ofNat c)
  pieces : ∀ pid, s.printedBy pid ++ s.unsent pid = (texts pid).flatMap (cut pid).messages

theorem Inv.step (hfits : ∀ pid, Fits (cut pid) (texts pid)) (h : s.Inv cut texts)
    (hs : s.Step t s') : s'.Inv cut texts := by
  cases hs with
  | print pid piece rest typed window txRoom hpid hunsent =>
    have hmem : piece ∈ (texts pid).flatMap (cut pid).messages := by
      rw [← h.pieces pid, hunsent]
      exact List.mem_append_right _ List.mem_cons_self
    obtain ⟨hne, hlen⟩ := (hfits pid).message hmem
    refine ⟨h.quiet.step _, ?_, fun q => ?_⟩
    · rw [h.quiet.wire, h.wire, Console.printedBy, if_pos (isPuts_putsMessage hpid _ _ _ _),
        text_putsMessage hne hlen, List.flatMap_append, List.flatMap_singleton, List.flatMap_map]
    · have hq := h.pieces q
      show ((s.printed ++ [(pid, piece)]).filter fun p => p.1 = q).map Prod.snd ++
        Function.update s.unsent pid rest q = _
      rw [List.filter_append, List.map_append]
      by_cases hpq : pid = q
      · subst hpq
        rw [Function.update_self, List.filter_cons_of_pos (by simp), List.filter_nil,
          List.map_singleton,
          List.append_assoc, List.singleton_append, ← hunsent]
        exact hq
      · rw [Function.update_of_ne (Ne.symm hpq), List.filter_cons_of_neg (by simp [hpq]),
          List.filter_nil, List.map_nil, List.append_nil]
        exact hq
  | other m hm =>
    refine ⟨h.quiet.step m, ?_, h.pieces⟩
    rw [h.quiet.wire, Console.printedBy, if_neg hm, List.append_nil]
    exact h.wire

/-- Whatever the order in which the programs and the keyboard take their turns, the texts come out
piece by piece, complete and in order. -/
theorem accounted_of_run {console : Console} {ts : List (Option ℕ)} (hq : console.Quiet)
    (hwire : console.wire = []) (hfits : ∀ pid, Fits (cut pid) (texts pid))
    (h : Run Step (start console cut texts) ts s) : s.Accounted cut texts := by
  have hinv : s.Inv cut texts := h.invariant (fun _ _ _ hi hs => hi.step hfits hs)
    ⟨hq, hwire, fun _ => rfl⟩
  refine ⟨hinv.wire, hinv.pieces, fun pid => ?_⟩
  rw [← List.flatten_append, hinv.pieces, flatten_messages]

/-- PID 5 prints `hi` with a newline, and the network driver at PID 6 prints `ok`. -/
def greetings (pid : ℕ) : List (List ℕ) :=
  if pid = 5 then [[104, 105, 10]] else if pid = 6 then [[111, 107]] else []

def driverAtSix (pid : ℕ) : Cut := if pid = 6 then .whole else .pieces

theorem accounted_of_run_greetings :
    ∃ s, Run Step (start (.start (fun _ => 0) true) driverAtSix greetings)
        [some 6, none, some 5] s ∧
      s.Accounted driverAtSix greetings := by
  have hsix : Step (start (.start (fun _ => 0) true) driverAtSix greetings) (some 6) _ :=
    .print 6 [111, 107] [] [] [] 0 (by decide) (by decide)
  have hrun := ((Run.single hsix).snoc (.other ⟨5, 1, fun _ => 9, [], [], 4⟩ (by decide))).snoc
    (.print 5 [104, 105, 10] [] [] [] 0 (by decide) (by decide))
  refine ⟨_, hrun,
    accounted_of_run (Console.quiet_start _ _) rfl (fun pid hcut str hstr => ?_) hrun⟩
  have hpid : pid = 6 := by
    by_contra hne
    rw [driverAtSix, if_neg hne] at hcut
    exact nomatch hcut
  subst hpid
  obtain rfl := List.mem_singleton.mp (show str ∈ [[111, 107]] from hstr)
  decide

end Printing

end PsychWard.Uart
