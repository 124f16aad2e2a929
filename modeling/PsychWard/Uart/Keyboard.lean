import PsychWard.Common.Ring
import PsychWard.Common.Run
import Mathlib.Algebra.Group.Nat.Defs

/-!
# The keyboard of the UART driver

An interrupt moves characters from the receive FIFO of the UART into the ring `kbd_buffer`; SYS_READ
takes one out of it. A full ring ends the loop of the interrupt, and the character that was just read
from the UART is lost.

The model starts with the loop of `main` and has what concerns the keyboard. A message comes with the
characters that reach the UART until its handling ends, so that characters may arrive while the loop
of an interrupt runs.
-/

namespace PsychWard.Uart

/-- `kbd_buffer`, `head` and `tail` as a ring, and the receive FIFO of the UART. The ghost fields list
the characters that the ring has accepted and those that SYS_READ has returned. -/
structure UartDriver where
  kbd : Ring UInt8 128
  uart : List UInt8
  accepted : List UInt8
  returned : List UInt8

/-- What `seL4_Recv` delivers, and the characters that are typed meanwhile. -/
structure UartMessage where
  badge : ℕ
  sys : ℕ
  typed : List UInt8

/-- A message is handled: the driver, the character that was dropped and the registers of the reply;
an interrupt has no reply. -/
structure Handled where
  driver : UartDriver
  dropped : Option UInt8
  reply : Option (List ℕ)

/-- `(seL4_Word)-1` -/
def minusOne : ℕ := 2 ^ 64 - 1

namespace UartDriver

variable (d : UartDriver)

/-- The ring is empty, with `head = 0` and `tail = 0`. -/
def start (garbage : ℕ → UInt8) : UartDriver :=
  ⟨⟨garbage, 0, 0, by decide, by decide⟩, [], [], []⟩

/-- The loop of the interrupt over the receive FIFO. -/
def takeKeys (d : UartDriver) : List UInt8 → UartDriver × Option UInt8
  | [] => ({ d with uart := [] }, none)
  | c :: uart =>
    match d.kbd.push c with
    | none => ({ d with uart := uart }, some c)
    | some kbd => takeKeys { d with kbd := kbd, accepted := d.accepted ++ [c] } uart

/-- The branch of SYS_READ. -/
def sysRead : UartDriver × ℕ :=
  match d.kbd.pop with
  | some (c, kbd) => ({ d with kbd := kbd, returned := d.returned ++ [c] }, c.toNat)
  | none => (d, minusOne)

/-- The body of the loop of `main`. -/
def handle (m : UartMessage) : Handled :=
  let d := { d with uart := d.uart ++ m.typed }
  if m.badge = 1 then
    let (d, dropped) := d.takeKeys d.uart
    ⟨d, dropped, none⟩
  else if m.badge ≤ 0 ∨ m.badge ≥ 256 then ⟨d, none, some []⟩
  else if m.sys = 6 then
    let (d, word) := d.sysRead
    ⟨d, none, some [word]⟩
  else ⟨d, none, some []⟩

/-- The characters that wait in the ring, oldest first. -/
def waiting : List UInt8 := d.kbd.contents

end UartDriver

/-- Steps of the driver. -/
def uartStep (d : UartDriver) (m : UartMessage) (d' : UartDriver) : Prop := (d.handle m).driver = d'

/-- The keyboard has interrupted. -/
def UartMessage.IsInterrupt (m : UartMessage) : Prop := m.badge = 1

/-- A process asks for a character. -/
def UartMessage.IsRead (m : UartMessage) : Prop := m.badge ≠ 1 ∧ 0 < m.badge ∧ m.badge < 256 ∧ m.sys = 6

/-- What was returned and what waits are, in this order, what was accepted. -/
structure KeyboardQueue (d : UartDriver) : Prop where
  order : d.returned ++ d.waiting = d.accepted
  length_le : d.waiting.length ≤ 127

/-- A message treats the ring as a queue of capacity 127. -/
structure ServesQueue (d : UartDriver) (m : UartMessage) : Prop where
  /-- SYS_READ returns the oldest character and removes it. -/
  read : m.IsRead →
    (d.handle m).reply = some [(d.waiting.head?.map UInt8.toNat).getD minusOne] ∧
      (d.handle m).driver.waiting = d.waiting.tail ∧
      (d.handle m).driver.returned = d.returned ++ d.waiting.head?.toList
  /-- It returns -1 only for want of a character. -/
  read_empty : m.IsRead → ((d.handle m).reply = some [minusOne] ↔ d.waiting = [])
  /-- An interrupt accepts characters in the order in which they arrive. -/
  interrupt : m.IsInterrupt → ∃ keys,
    d.uart ++ m.typed = keys ++ (d.handle m).dropped.toList ++ (d.handle m).driver.uart ∧
      (d.handle m).driver.accepted = d.accepted ++ keys ∧
      (d.handle m).driver.waiting = d.waiting ++ keys
  /-- A character is lost only when the ring is full, or else the interrupt empties the UART. -/
  dropped : ∀ c, (d.handle m).dropped = some c → (d.handle m).driver.waiting.length = 127
  emptied : m.IsInterrupt → (d.handle m).dropped = none → (d.handle m).driver.uart = []
  /-- No other message touches the queue. -/
  other : ¬ m.IsRead → ¬ m.IsInterrupt → (d.handle m).driver.waiting = d.waiting ∧
    (d.handle m).driver.accepted = d.accepted ∧ (d.handle m).driver.returned = d.returned

/-! ## The loop of the interrupt -/

theorem takeKeys_spec (uart : List UInt8) (d : UartDriver) :
    ∃ keys, uart = keys ++ (d.takeKeys uart).2.toList ++ (d.takeKeys uart).1.uart ∧
      (d.takeKeys uart).1.accepted = d.accepted ++ keys ∧
      (d.takeKeys uart).1.waiting = d.waiting ++ keys ∧
      (d.takeKeys uart).1.returned = d.returned := by
  induction uart generalizing d with
  | nil => exact ⟨[], rfl, (List.append_nil _).symm, (List.append_nil _).symm, rfl⟩
  | cons c uart ih =>
    rw [UartDriver.takeKeys]
    cases hpush : d.kbd.push c with
    | none => exact ⟨[], rfl, (List.append_nil _).symm, (List.append_nil _).symm, rfl⟩
    | some kbd =>
      obtain ⟨keys, huart, hacc, hwait, hret⟩ :=
        ih { d with kbd := kbd, accepted := d.accepted ++ [c] }
      refine ⟨c :: keys, by rw [List.cons_append, List.cons_append, ← huart], ?_, ?_, hret⟩
      · rw [hacc, List.append_assoc, List.singleton_append]
      · rw [hwait, UartDriver.waiting, Ring.contents_push hpush, List.append_assoc,
          List.singleton_append, UartDriver.waiting]

theorem takeKeys_dropped {uart : List UInt8} {d : UartDriver} {c : UInt8}
    (h : (d.takeKeys uart).2 = some c) : (d.takeKeys uart).1.waiting.length = 127 := by
  induction uart generalizing d with
  | nil => exact nomatch h
  | cons a uart ih =>
    rw [UartDriver.takeKeys] at h ⊢
    cases hpush : d.kbd.push a with
    | none => exact Nat.succ.inj ((Ring.push_eq_none_iff d.kbd a).mp hpush)
    | some kbd =>
      simp only [hpush] at h ⊢
      exact ih h

theorem takeKeys_emptied {uart : List UInt8} {d : UartDriver}
    (h : (d.takeKeys uart).2 = none) : (d.takeKeys uart).1.uart = [] := by
  induction uart generalizing d with
  | nil => rfl
  | cons a uart ih =>
    rw [UartDriver.takeKeys] at h ⊢
    cases hpush : d.kbd.push a with
    | none => simp [hpush] at h
    | some kbd =>
      simp only [hpush] at h ⊢
      exact ih h

/-! ## SYS_READ -/

theorem sysRead_spec (d : UartDriver) :
    d.sysRead.2 = (d.waiting.head?.map UInt8.toNat).getD minusOne ∧
      d.sysRead.1.waiting = d.waiting.tail ∧
      d.sysRead.1.returned = d.returned ++ d.waiting.head?.toList ∧
      d.sysRead.1.accepted = d.accepted := by
  rw [UartDriver.sysRead]
  cases hpop : d.kbd.pop with
  | none =>
    have hnil : d.waiting = [] := (Ring.pop_eq_none_iff d.kbd).mp hpop
    simp [hnil]
  | some r =>
    obtain ⟨c, kbd⟩ := r
    have hcons : d.waiting = c :: kbd.contents := Ring.contents_pop hpop
    rw [hcons]
    exact ⟨rfl, rfl, rfl, rfl⟩

theorem sysRead_minusOne (d : UartDriver) : d.sysRead.2 = minusOne ↔ d.waiting = [] := by
  rw [(sysRead_spec d).1]
  cases d.waiting with
  | nil => simp
  | cons c l =>
    have hlt := c.toNat_lt
    have hne : c.toNat ≠ minusOne := by
      unfold minusOne
      omega
    simpa using hne

/-! ## Messages -/

section Message

variable {d : UartDriver} {m : UartMessage}

/-- The characters typed during a message are in the FIFO. -/
def UartDriver.typed (d : UartDriver) (m : UartMessage) : UartDriver :=
  { d with uart := d.uart ++ m.typed }

theorem handle_interrupt (h : m.IsInterrupt) : d.handle m =
    ⟨((d.typed m).takeKeys (d.uart ++ m.typed)).1, ((d.typed m).takeKeys (d.uart ++ m.typed)).2,
      none⟩ := if_pos h

theorem handle_read (h : m.IsRead) :
    d.handle m = ⟨(d.typed m).sysRead.1, none, some [(d.typed m).sysRead.2]⟩ := by
  obtain ⟨hirq, hpos, hlt, hsys⟩ := h
  rw [UartDriver.handle, if_neg hirq, if_neg (by omega), if_pos hsys]
  rfl

theorem handle_other (hread : ¬ m.IsRead) (hirq : ¬ m.IsInterrupt) :
    d.handle m = ⟨d.typed m, none, some []⟩ := by
  rw [UartDriver.handle, if_neg (show ¬ m.badge = 1 from hirq)]
  split_ifs with hpid hsys
  · rfl
  · exact absurd ⟨hirq, by omega, by omega, hsys⟩ hread
  · rfl

end Message

theorem servesQueue (d : UartDriver) (m : UartMessage) : ServesQueue d m where
  read h := by
    obtain ⟨hword, hwait, hret, -⟩ := sysRead_spec (d.typed m)
    rw [handle_read h]
    exact ⟨congrArg (fun w => some [w]) hword, hwait, hret⟩
  read_empty h := by
    rw [handle_read h, Option.some.injEq, List.cons_eq_cons, and_iff_left rfl]
    exact sysRead_minusOne (d.typed m)
  interrupt h := by
    obtain ⟨keys, huart, hacc, hwait, -⟩ := takeKeys_spec (d.uart ++ m.typed) (d.typed m)
    rw [handle_interrupt h]
    exact ⟨keys, huart, hacc, hwait⟩
  dropped c h := by
    by_cases hirq : m.IsInterrupt
    · rw [handle_interrupt hirq] at h ⊢
      exact takeKeys_dropped h
    · by_cases hread : m.IsRead
      · rw [handle_read hread] at h
        exact nomatch h
      · rw [handle_other hread hirq] at h
        exact nomatch h
  emptied hirq h := by
    rw [handle_interrupt hirq] at h ⊢
    exact takeKeys_emptied h
  other hread hirq := by
    rw [handle_other hread hirq]
    exact ⟨rfl, rfl, rfl⟩

/-! ## Runs -/

theorem UartDriver.length_waiting_le (d : UartDriver) : d.waiting.length ≤ 127 := by
  rw [waiting, Ring.length_contents]
  exact Nat.le_of_lt_succ d.kbd.count_lt

theorem keyboardQueue_start (garbage : ℕ → UInt8) : KeyboardQueue (UartDriver.start garbage) where
  order := (Ring.pop_eq_none_iff _).mp rfl
  length_le := UartDriver.length_waiting_le _

theorem KeyboardQueue.step {d d' : UartDriver} {m : UartMessage} (h : KeyboardQueue d)
    (hs : uartStep d m d') : KeyboardQueue d' := by
  obtain rfl := hs
  refine ⟨?_, UartDriver.length_waiting_le _⟩
  have horder := h.order
  by_cases hirq : m.IsInterrupt
  · obtain ⟨keys, -, hacc, hwait, hret⟩ := takeKeys_spec (d.uart ++ m.typed) (d.typed m)
    rw [handle_interrupt hirq]
    simp only [hacc, hwait, hret, ← List.append_assoc]
    exact congrArg (· ++ keys) horder
  · by_cases hread : m.IsRead
    · obtain ⟨-, hwait, hret, hacc⟩ := sysRead_spec (d.typed m)
      have hsplit : d.waiting.head?.toList ++ d.waiting.tail = d.waiting := by
        cases d.waiting <;> rfl
      rw [handle_read hread]
      simp only [hacc, hwait, hret, List.append_assoc]
      exact (congrArg (d.returned ++ ·) hsplit).trans horder
    · rw [handle_other hread hirq]
      exact horder

/-- In every run, the ring is a queue of capacity 127, whatever message comes next. -/
theorem keyboard_fifo {garbage : ℕ → UInt8} {ms : List UartMessage} {d : UartDriver}
    (h : Run uartStep (UartDriver.start garbage) ms d) (m : UartMessage) :
    KeyboardQueue d ∧ ServesQueue d m :=
  ⟨h.invariant (fun _ _ _ hq hs => hq.step hs) (keyboardQueue_start garbage), servesQueue d m⟩

/-- `hi` is typed, and a process of the PID 5 asks for a character. -/
def firstKeys : UartDriver := ((UartDriver.start fun _ => 0).handle ⟨1, 0, [104, 105]⟩).driver
def readKey : UartMessage := ⟨5, 6, []⟩

theorem keyboard_fifo_firstKeys : KeyboardQueue firstKeys ∧ ServesQueue firstKeys readKey :=
  keyboard_fifo (Run.single (show uartStep (UartDriver.start fun _ => 0) _ firstKeys from rfl)) readKey

example : (firstKeys.handle readKey).reply = some [104] := by decide

end PsychWard.Uart
