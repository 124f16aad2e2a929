import Mathlib.Algebra.Group.Nat.Defs
import Mathlib.Data.List.Range
import Mathlib.Data.Nat.Notation

/-!
# The console of the network driver

`sys_puts` of the driver puts a whole string into one message, a character to a register. A message
has 120 registers, and the length field of its tag seven bits; the strings of the other programs go
out in pieces. A `Piece` is what one of the driver's print functions prints; only the two that print
a string of their caller can make a message that is too long.
-/

namespace PsychWard.Net

/-- The characters of a string in front of its NUL. -/
abbrev Text := List UInt8

/-- A string constant; all of them are ASCII. -/
def ascii (s : String) : Text := s.toList.map fun c => UInt8.ofNat c.toNat

/-- `seL4_MsgMaxLength` and `seL4_MsgLengthBits`. -/
def msgMaxLength : ℕ := 120
/-- `seL4_MsgLengthBits`. -/
def msgLengthBits : ℕ := 7

/-- The registers that `sys_puts` writes, each with its value, and the length field of the message
that it sends. -/
structure PutsCall where
  writes : List (ℕ × ℕ)
  length : ℕ

/-- `sys_puts`. -/
def sysPuts (str : Text) : PutsCall where
  writes := (0, 8) :: (List.range str.length).map fun i => (i + 1, (str.getD i 0).toNat)
  length := (str.length + 1) % 2 ^ msgLengthBits

/-- Only registers of the message are written, and the length field holds the length. -/
structure PutsOk (str : Text) : Prop where
  writes : ∀ w ∈ (sysPuts str).writes, w.1 < msgMaxLength
  length : (sysPuts str).length = str.length + 1

/-- A string is printed if its length fits into the message. -/
theorem putsOk_iff (str : Text) : PutsOk str ↔ str.length < msgMaxLength := by
  constructor
  · intro h
    by_contra hlen
    have hmem : (msgMaxLength, (str.getD (msgMaxLength - 1) 0).toNat) ∈ (sysPuts str).writes := by
      refine List.mem_cons_of_mem _ (List.mem_map.mpr ⟨msgMaxLength - 1, ?_, rfl⟩)
      rw [List.mem_range]
      exact Nat.lt_of_lt_of_le (by decide) (Nat.not_lt.mp hlen)
    exact absurd (h.writes _ hmem) (Nat.lt_irrefl _)
  · intro hlen
    refine ⟨fun w hw => ?_, Nat.mod_eq_of_lt (Nat.lt_of_le_of_lt hlen (by decide))⟩
    rcases List.mem_cons.mp hw with rfl | hw
    · exact Nat.zero_lt_of_lt hlen
    · obtain ⟨i, hi, rfl⟩ := List.mem_map.mp hw
      exact Nat.lt_of_le_of_lt (List.mem_range.mp hi) hlen

/-! ## The print functions -/

/-- The loop of `put_dec` and `put_u64`: the digits of `val` go in front of `buf`, into the room that
is left. -/
def decLoop : ℕ → ℕ → Text → Text
  | 0, _, buf => buf
  | i + 1, val, buf =>
    if 0 < val then decLoop i (val / 10) (UInt8.ofNat (48 + val % 10) :: buf) else buf

def putDec (val : ℕ) : Text :=
  if val % 2 ^ 32 = 0 then ascii "0" else decLoop 11 (val % 2 ^ 32) []

def putU64 (val : ℕ) : Text :=
  if val % 2 ^ 64 = 0 then ascii "0" else decLoop 23 (val % 2 ^ 64) []

def hexChar (val : ℕ) : UInt8 := (ascii "0123456789ABCDEF").getD (val % 16) 0

def putHexByte (val : UInt8) : Text := [hexChar (val.toNat / 16), hexChar val.toNat]

def putThreeDigits (val : ℕ) : Text :=
  let val := if 999 < val then 999 else val
  [UInt8.ofNat (48 + val / 100), UInt8.ofNat (48 + val / 10 % 10), UInt8.ofNat (48 + val % 10)]

/-- The strings that `put_duration_us` prints. -/
def putDurationUs (us : ℕ) : List Text :=
  [putU64 (us / 1000), ascii ".", putThreeDigits (us % 1000), ascii " ms"]

/-- The strings that `put_ip` prints. -/
def putIp (ip : List UInt8) : List Text :=
  (List.range 4).flatMap fun i =>
    (if 0 < i then [ascii "."] else []) ++ [putDec (ip.getD i 0).toNat]

/-- A call of a print function. -/
inductive Piece
  /-- `sys_puts` of a string constant, and of an array -/
  | lit (s : String)
  | chars (s : Text)
  | dec (val : ℕ)
  | hex (val : UInt8)
  | duration (us : ℕ)
  | addr (ip : List UInt8)

/-- The strings that are given to `sys_puts`. -/
def Piece.texts : Piece → List Text
  | lit s => [ascii s]
  | chars s => [s]
  | dec val => [putDec val]
  | hex val => [putHexByte val]
  | duration us => putDurationUs us
  | addr ip => putIp ip

/-- The piece fits into a message. -/
def Piece.fits : Piece → Bool
  | lit s => s.length < msgMaxLength
  | chars s => s.length < msgMaxLength
  | _ => true

/-- Each round of the loop writes at most one digit. -/
theorem length_decLoop (i val : ℕ) (buf : Text) : (decLoop i val buf).length ≤ i + buf.length := by
  induction i generalizing val buf with
  | zero => exact Nat.le_add_left _ _
  | succ i ih =>
    rw [decLoop]
    split
    · have hlen := ih (val / 10) (UInt8.ofNat (48 + val % 10) :: buf)
      rw [List.length_cons] at hlen
      omega
    · omega

/-- `put_dec` prints at most 11 characters. -/
theorem length_putDec (val : ℕ) : (putDec val).length ≤ 11 := by
  rw [putDec]
  split
  · decide
  · exact length_decLoop _ _ _

/-- `put_u64` prints at most 23 characters. -/
theorem length_putU64 (val : ℕ) : (putU64 val).length ≤ 23 := by
  rw [putU64]
  split
  · decide
  · exact length_decLoop _ _ _

/-- Numbers and addresses always fit. -/
theorem Piece.texts_ok (p : Piece) : (∀ s ∈ p.texts, PutsOk s) ↔ p.fits = true := by
  have hmax : msgMaxLength = 120 := rfl
  simp only [putsOk_iff]
  cases p with
  | lit s =>
    have hlen : (ascii s).length = s.length := by
      rw [ascii, List.length_map, String.length_toList]
    simp only [texts, fits, List.forall_mem_singleton, hlen, decide_eq_true_iff]
  | chars s => simp only [texts, fits, List.forall_mem_singleton, decide_eq_true_iff]
  | dec val =>
    have hlen := length_putDec val
    refine iff_of_true (List.forall_mem_singleton.mpr ?_) rfl
    omega
  | hex val =>
    have hlen : (putHexByte val).length = 2 := rfl
    refine iff_of_true (List.forall_mem_singleton.mpr ?_) rfl
    omega
  | duration us =>
    have hlen := length_putU64 (us / 1000)
    have hthree : (putThreeDigits (us % 1000)).length = 3 := rfl
    refine iff_of_true ?_ rfl
    simp only [texts, putDurationUs, List.forall_mem_cons]
    exact ⟨by omega, by decide, by omega, by decide, by simp⟩
  | addr ip =>
    refine iff_of_true (fun s hs => ?_) rfl
    obtain ⟨i, -, hs⟩ := List.mem_flatMap.mp hs
    rcases List.mem_append.mp hs with hs | hs
    · split at hs
      · rw [List.mem_singleton.mp hs]
        decide
      · exact absurd hs List.not_mem_nil
    · have hlen := length_putDec (ip.getD i 0).toNat
      rw [List.mem_singleton.mp hs]
      omega

end PsychWard.Net
