import PsychWard.Uart.Keyboard

/-!
# The console

The whole loop of `main` of the UART driver: the keyboard of `PsychWard.Uart.Keyboard`, and the
output that its clients send with SYS_PUTS. A client's characters go straight to the UART, a newline
as carriage return and line feed. The driver also has a ring `tx_buffer` and a line buffer for each
client; SYS_FLUSH moves a line into the ring, and `flush_buffer` at the end of the loop moves the
ring into the FIFO of the UART as far as there is room.
-/

namespace PsychWard.Uart

/-- What `seL4_Recv` delivers: the registers and how many of them are in use, and what goes on while
the message is handled, that is the characters that are typed, the string at the start of the shared
window and how many characters the FIFO of the UART takes in `flush_buffer`. -/
structure ConsoleMessage where
  badge : ℕ
  length : ℕ
  mr : ℕ → ℕ
  typed : List UInt8
  window : List UInt8
  txRoom : ℕ

/-- The driver with its output: `tx_buffer`, `line_buffers`, `line_buffer_pos`, whether the window
is mapped, and the characters that were written to the data register. -/
structure Console where
  driver : UartDriver
  tx : Ring UInt8 4096
  lineBuffers : ℕ → ℕ → UInt8
  lineBufferPos : ℕ → ℕ
  shmMapped : Bool
  wire : List UInt8

/-- What `uart_putc` writes for a character. -/
def putcBytes (c : UInt8) : List UInt8 := if c = 10 then [13, c] else [c]

namespace ConsoleMessage

variable (m : ConsoleMessage)

/-- The part that concerns the keyboard. -/
def keyboard : UartMessage := ⟨m.badge, m.mr 0, m.typed⟩

/-- A process prints. -/
def IsPuts : Prop := m.badge ≠ 1 ∧ 0 < m.badge ∧ m.badge < 256 ∧ m.mr 0 = 8

instance : Decidable m.IsPuts := inferInstanceAs (Decidable (_ ∧ _))

/-- The characters in the registers behind the number of the call. -/
def characters : List UInt8 := (List.range (m.length - 1)).map fun i => UInt8.ofNat (m.mr (i + 1))

/-- What SYS_PUTS prints: the characters in the registers, or the string in the window if there are
none. -/
def text (shmMapped : Bool) : List UInt8 :=
  if 0 < m.length - 1 then m.characters else if shmMapped then m.window else []

end ConsoleMessage

namespace Console

variable (u : Console)

/-- The driver as `main` enters its loop. -/
def start (garbage : ℕ → UInt8) (shmMapped : Bool) : Console where
  driver := UartDriver.start garbage
  tx := ⟨fun _ => 0, 0, 0, by decide, by decide⟩
  lineBuffers := fun _ _ => 0
  lineBufferPos := fun _ => 0
  shmMapped := shmMapped
  wire := []

/-- `uart_putc` -/
def uartPutc (c : UInt8) : Console := { u with wire := u.wire ++ putcBytes c }

/-- `flush_buffer`, with room for so many characters in the FIFO. -/
def flushBuffer (u : Console) : ℕ → Console
  | 0 => u
  | room + 1 =>
    match u.tx.pop with
    | none => u
    | some (c, tx) => flushBuffer { u with tx := tx, wire := u.wire ++ [c] } room

/-- The loop of SYS_FLUSH over the characters of a line. -/
def pushLine (tx : Ring UInt8 4096) : List UInt8 → Ring UInt8 4096
  | [] => tx
  | c :: line =>
    match tx.push c with
    | none => tx
    | some tx => pushLine tx line

/-- The branch of SYS_PUTS. -/
def sysPuts (m : ConsoleMessage) : Console := (m.text u.shmMapped).foldl uartPutc u

/-- The branch of SYS_FLUSH. -/
def sysFlush (pid : ℕ) : Console :=
  { u with
    tx := pushLine u.tx ((List.range (u.lineBufferPos pid)).map (u.lineBuffers pid))
    lineBufferPos := Function.update u.lineBufferPos pid 0 }

/-- The body of the loop of `main`, and the registers of the reply; an interrupt has none. -/
def handle (m : ConsoleMessage) : Console × Option (List ℕ) :=
  let u := { u with driver := { u.driver with uart := u.driver.uart ++ m.typed } }
  if m.badge = 1 then
    let u := { u with driver := (u.driver.takeKeys u.driver.uart).1 }
    (u.flushBuffer m.txRoom, none)
  else if m.badge ≤ 0 ∨ m.badge ≥ 256 then (u, some [])
  else if m.mr 0 = 8 then ((u.sysPuts m).flushBuffer m.txRoom, some [])
  else if m.mr 0 = 9 then ((u.sysFlush m.badge).flushBuffer m.txRoom, some [])
  else if m.mr 0 = 6 then
    let r := u.driver.sysRead
    (flushBuffer { u with driver := r.1 } m.txRoom, some [r.2])
  else (u.flushBuffer m.txRoom, some [])

/-- Nothing waits in the ring or in a line buffer. -/
structure Quiet : Prop where
  tx : u.tx.head = u.tx.tail
  lines : ∀ pid, u.lineBufferPos pid = 0

variable {u}

/-! ## What one message does -/

theorem quiet_start (garbage : ℕ → UInt8) (shmMapped : Bool) : (start garbage shmMapped).Quiet :=
  ⟨rfl, fun _ => rfl⟩

/-- With an empty ring `flush_buffer` writes nothing. -/
theorem Quiet.flushBuffer (h : u.Quiet) (room : ℕ) : u.flushBuffer room = u := by
  cases room with
  | zero => rfl
  | succ room => rw [Console.flushBuffer, Ring.pop, if_neg (not_not_intro h.tx)]

/-- With an empty line SYS_FLUSH moves nothing. -/
theorem Quiet.sysFlush (h : u.Quiet) (pid : ℕ) : u.sysFlush pid = u := by
  have hpos : Function.update u.lineBufferPos pid 0 = u.lineBufferPos := by
    rw [← h.lines pid, Function.update_eq_self]
  rw [Console.sysFlush, hpos, h.lines pid]
  rfl

theorem foldl_uartPutc (cs : List UInt8) (u : Console) :
    cs.foldl uartPutc u = { u with wire := u.wire ++ cs.flatMap putcBytes } := by
  induction cs generalizing u with
  | nil => rw [List.flatMap_nil, List.append_nil]; rfl
  | cons c cs ih => rw [List.foldl_cons, ih, uartPutc, List.flatMap_cons, ← List.append_assoc]

/-- What a message prints. -/
def printedBy (u : Console) (m : ConsoleMessage) : List UInt8 :=
  if m.IsPuts then (m.text u.shmMapped).flatMap putcBytes else []

/-- A message changes the keyboard as the keyboard alone would, and puts its text, if it has one, on
the wire; the buffers of the output stay empty. -/
theorem Quiet.handle (h : u.Quiet) (m : ConsoleMessage) :
    u.handle m = ({ u with
      driver := (u.driver.handle m.keyboard).driver
      wire := u.wire ++ u.printedBy m }, (u.driver.handle m.keyboard).reply) := by
  have hu : ∀ d w, ({ u with driver := d, wire := w } : Console).Quiet := fun _ _ => ⟨h.tx, h.lines⟩
  have hflush : ∀ d w, ({ u with driver := d, wire := w } : Console).flushBuffer m.txRoom =
      { u with driver := d, wire := w } := fun d w => (hu d w).flushBuffer _
  have hread : m.keyboard.IsRead ↔ m.badge ≠ 1 ∧ 0 < m.badge ∧ m.badge < 256 ∧ m.mr 0 = 6 := Iff.rfl
  have hputs : m.IsPuts ↔ m.badge ≠ 1 ∧ 0 < m.badge ∧ m.badge < 256 ∧ m.mr 0 = 8 := Iff.rfl
  rw [Console.handle, printedBy]
  by_cases hirq : m.badge = 1
  · rw [handle_interrupt (m := m.keyboard) hirq, if_pos hirq, if_neg (fun hp => hp.1 hirq),
      List.append_nil]
    exact congrArg (·, none) (hflush _ u.wire)
  rw [if_neg hirq]
  by_cases hpid : m.badge ≤ 0 ∨ m.badge ≥ 256
  · rw [handle_other (m := m.keyboard) (by rw [hread]; omega) hirq, if_pos hpid,
      if_neg (by rw [hputs]; omega),
      List.append_nil]
    rfl
  rw [if_neg hpid]
  by_cases h8 : m.mr 0 = 8
  · rw [handle_other (m := m.keyboard) (by rw [hread]; omega) hirq, if_pos h8,
      if_pos (by rw [hputs]; omega), sysPuts,
      foldl_uartPutc]
    exact congrArg (·, some []) (hflush _ _)
  rw [if_neg h8, if_neg (show ¬ m.IsPuts by rw [hputs]; omega), List.append_nil]
  by_cases h9 : m.mr 0 = 9
  · rw [handle_other (m := m.keyboard) (by rw [hread]; omega) hirq, if_pos h9,
      (hu _ u.wire).sysFlush]
    exact congrArg (·, some []) (hflush _ u.wire)
  rw [if_neg h9]
  by_cases h6 : m.mr 0 = 6
  · rw [handle_read (m := m.keyboard) (by rw [hread]; omega), if_pos h6]
    exact congrArg (·, some _) (hflush _ u.wire)
  · rw [handle_other (m := m.keyboard) (by rw [hread]; omega) hirq, if_neg h6]
    exact congrArg (·, some []) (hflush _ u.wire)

theorem Quiet.step (h : u.Quiet) (m : ConsoleMessage) : (u.handle m).1.Quiet := by
  rw [h.handle]
  exact ⟨h.tx, h.lines⟩

theorem Quiet.wire (h : u.Quiet) (m : ConsoleMessage) :
    (u.handle m).1.wire = u.wire ++ u.printedBy m := by rw [h.handle]

theorem Quiet.driver (h : u.Quiet) (m : ConsoleMessage) :
    (u.handle m).1.driver = (u.driver.handle m.keyboard).driver := by rw [h.handle]

theorem Quiet.shmMapped (h : u.Quiet) (m : ConsoleMessage) :
    (u.handle m).1.shmMapped = u.shmMapped := by rw [h.handle]

theorem Quiet.reply (h : u.Quiet) (m : ConsoleMessage) :
    (u.handle m).2 = (u.driver.handle m.keyboard).reply := by rw [h.handle]

end Console

/-! ## The keys -/

section Keys

/-- The keys that were typed and are not lost: those that were read, those in the ring and those in
the FIFO of the UART. -/
def UartDriver.keys (d : UartDriver) : List UInt8 := d.returned ++ d.waiting ++ d.uart

variable {d : UartDriver} {m : UartMessage}

theorem returned_handle (h : ¬ m.IsRead) : (d.handle m).driver.returned = d.returned := by
  by_cases hirq : m.IsInterrupt
  · obtain ⟨-, -, -, -, hret⟩ := takeKeys_spec (d.uart ++ m.typed) (d.typed m)
    rw [handle_interrupt hirq]
    exact hret
  · rw [handle_other h hirq]
    rfl

theorem sysRead_uart (d : UartDriver) : d.sysRead.1.uart = d.uart := by
  rw [UartDriver.sysRead]
  split <;> rfl

/-- With room in the ring no key is lost, and none changes its place. -/
theorem keys_handle (hroom : d.waiting.length + d.uart.length + m.typed.length ≤ 127) :
    (d.handle m).driver.keys = d.keys ++ m.typed := by
  by_cases hirq : m.IsInterrupt
  · obtain ⟨keys, huart, -, hwait, hret⟩ := takeKeys_spec (d.uart ++ m.typed) (d.typed m)
    have hlen := congrArg List.length huart
    rw [List.length_append, List.length_append, List.length_append] at hlen
    -- a key is dropped only when 127 wait already, and there is room for all that were typed
    have hnone : ((d.typed m).takeKeys (d.uart ++ m.typed)).2 = none := by
      cases hdrop : ((d.typed m).takeKeys (d.uart ++ m.typed)).2 with
      | none => rfl
      | some c =>
        have hfull := takeKeys_dropped hdrop
        rw [hwait, List.length_append] at hfull
        have hsame : (d.typed m).waiting.length = d.waiting.length := rfl
        rw [hdrop, Option.toList_some, List.length_singleton] at hlen
        omega
    rw [hnone, takeKeys_emptied hnone, Option.toList_none, List.append_nil,
      List.append_nil] at huart
    rw [handle_interrupt hirq, UartDriver.keys, hret, hwait, takeKeys_emptied hnone,
      List.append_nil,
      ← huart, UartDriver.keys]
    simp only [List.append_assoc]
    rfl
  · by_cases hread : m.IsRead
    · obtain ⟨-, hwait, hret, -⟩ := sysRead_spec (d.typed m)
      have hsplit : d.waiting.head?.toList ++ d.waiting.tail = d.waiting := by
        cases d.waiting <;> rfl
      rw [handle_read hread, UartDriver.keys, hret, hwait, sysRead_uart, UartDriver.keys]
      show d.returned ++ d.waiting.head?.toList ++ d.waiting.tail ++ (d.uart ++ m.typed) = _
      rw [List.append_assoc d.returned, hsplit, ← List.append_assoc]
    · rw [handle_other hread hirq, UartDriver.keys, UartDriver.keys]
      exact (List.append_assoc _ _ _).symm

end Keys

end PsychWard.Uart
