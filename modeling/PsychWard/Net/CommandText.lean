import PsychWard.Common.Traced
import PsychWard.Common.Word
import Mathlib.Data.List.GetD
import Mathlib.Logic.Function.Basic
import Mathlib.Algebra.BigOperators.Ring.List
import Mathlib.Data.List.TakeWhile
import Mathlib.Tactic.Ring

/-!
# The text of a command

`net_send_text_command` of the shell packs at most 48 bytes of a text into message registers, eight to
a register; `copy_text_from_mrs` of the driver unpacks them into an array. What it unpacks is bounded
by the length that the message claims for the text, by the registers that the message has, and by the
array, so that no message leads it elsewhere.
-/

namespace PsychWard.Net

open Traced

/-- The message registers of a thread. -/
abbrev Registers := ℕ → ℕ

/-! ## The shell -/

/-- The bytes in front of the NUL, at most 48 of them; `clipped` of `net_send_text_command`. -/
def clippedText (text : List UInt8) : List UInt8 := (text.takeWhile (· ≠ 0)).take 48

/-- Eight bytes of the text, the first one lowest. -/
def packedWord (clipped : List UInt8) (w : ℕ) : ℕ :=
  ((List.range 8).map fun b =>
    if w * 8 + b < clipped.length then (clipped.getD (w * 8 + b) 0).toNat * 2 ^ (b * 8) else 0).sum

/-- A message as its sender leaves it: the length and the registers. -/
structure TextMessage where
  length : ℕ
  regs : Registers

/-- `net_send_text_command`; `none` is the null pointer. -/
def netSendTextCommand (regs : Registers) (cmd ip port : ℕ) (text : Option (List UInt8)) :
    TextMessage :=
  let clipped := clippedText (text.getD [])
  let wordCount := (clipped.length + 8 - 1) / 8
  { length := 4 + wordCount
    regs := fun i =>
      if i = 0 then cmd
      else if i = 1 then ip
      else if i = 2 then port
      else if i = 3 then clipped.length
      else if i < 4 + wordCount then packedWord clipped (i - 4)
      else regs i }

/-! ## The driver -/

/-- What `copy_text_from_mrs` touches: a register, or a byte of the destination. -/
inductive TextAccess
  | register (i : ℕ)
  | store (i : ℤ)
deriving DecidableEq, Repr

/-- The length of the text after the three cuts. -/
def cutTextLen (maxLen textLen msgWords : ℤ) : ℤ :=
  let available := (msgWords - 4) * 8
  let textLen := if available < textLen then available else textLen
  let textLen := if textLen < 0 then 0 else textLen
  if maxLen ≤ textLen then maxLen - 1 else textLen

/-- The loop of `copy_text_from_mrs` from `i` on, for `k` more bytes. -/
def copyTextLoop (dst : ℤ → UInt8) (i : ℕ) : ℕ → Traced Registers TextAccess (ℤ → UInt8)
  | 0 => return dst
  | k + 1 => do
    let word ← access (.register (4 + i / 8)) (· (4 + i / 8))
    let byte := UInt8.ofNat (word / 2 ^ (i % 8 * 8))
    let dst ← access (.store i) fun _ => Function.update dst i byte
    copyTextLoop dst (i + 1) k

/-- `copy_text_from_mrs`. A message has at most 127 registers, so no `int` overflows. -/
def copyTextFromMrs (dst : ℤ → UInt8) (maxLen textLen msgWords : ℤ) :
    Traced Registers TextAccess (ℤ → UInt8) := do
  let len := cutTextLen maxLen textLen msgWords
  let dst ← copyTextLoop dst 0 len.toNat
  access (.store len) fun _ => Function.update dst len 0

/-- The size of the arrays that the driver copies texts into. -/
def textSize : ℕ := 64

/-- What `net_handle_command` makes of a message: the text goes into an array of 64 bytes. -/
def commandText (dst : ℤ → UInt8) (length : ℕ) (regs : Registers) : ℤ → UInt8 :=
  (copyTextFromMrs dst textSize (toInt32 (regs 3)) length).val regs

/-! ## Packing -/

/-- A digit of a sum of bytes, each eight places above the one before. -/
theorem sum_bytes_digit {f : ℕ → ℕ} (hf : ∀ b, f b < 2 ^ 8) {n r : ℕ} (h : r < n) :
    ((List.range n).map fun b => f b * 2 ^ (b * 8)).sum / 2 ^ (r * 8) % 2 ^ 8 = f r := by
  induction n generalizing f r with
  | zero => exact absurd h (Nat.not_lt_zero r)
  | succ n ih =>
    have hsum : ((List.range (n + 1)).map fun b => f b * 2 ^ (b * 8)).sum =
        f 0 + 2 ^ 8 * ((List.range n).map fun b => f (b + 1) * 2 ^ (b * 8)).sum := by
      rw [List.range_succ_eq_map, List.map_cons, List.map_map, List.sum_cons, Nat.zero_mul,
        Nat.pow_zero, Nat.mul_one, ← List.sum_map_mul_left]
      congr 2
      refine List.map_congr_left fun b _ => ?_
      rw [Function.comp_apply, Nat.succ_eq_add_one, Nat.add_mul, Nat.pow_add]
      ring
    have h0 := hf 0
    rw [hsum]
    cases r with
    | zero => omega
    | succ r =>
      have hpow : 2 ^ ((r + 1) * 8) = 2 ^ 8 * 2 ^ (r * 8) := by ring
      rw [hpow, ← Nat.div_div_eq_div_mul, Nat.add_mul_div_left _ _ (by decide),
        Nat.div_eq_of_lt h0, Nat.zero_add]
      exact ih (fun b => hf (b + 1)) (by omega)

/-- A byte of a packed word. -/
theorem packedWord_byte (clipped : List UInt8) (i : ℕ) :
    UInt8.ofNat (packedWord clipped (i / 8) / 2 ^ (i % 8 * 8)) = clipped.getD i 0 := by
  have hterm : ∀ b, (if i / 8 * 8 + b < clipped.length then
      (clipped.getD (i / 8 * 8 + b) 0).toNat * 2 ^ (b * 8) else 0) =
        (clipped.getD (i / 8 * 8 + b) 0).toNat * 2 ^ (b * 8) := fun b => by
    split
    · rfl
    · rw [List.getD_eq_default _ _ (by omega), UInt8.toNat_zero, Nat.zero_mul]
  rw [← UInt8.toNat_inj, UInt8.toNat_ofNat', packedWord, List.map_congr_left fun b _ => hterm b,
    sum_bytes_digit (f := fun b => (clipped.getD (i / 8 * 8 + b) 0).toNat)
      (fun b => UInt8.toNat_lt _) (Nat.mod_lt i (by decide)), Nat.div_add_mod']

/-! ## Unpacking -/

section
variable {regs : Registers} {dst : ℤ → UInt8}

/-- The loop stores the bytes of the registers and nothing else. -/
theorem copyTextLoop_val (i k : ℕ) (j : ℤ) : (copyTextLoop dst i k).val regs j =
    if (i : ℤ) ≤ j ∧ j < i + k then
      UInt8.ofNat (regs (4 + j.toNat / 8) / 2 ^ (j.toNat % 8 * 8)) else dst j := by
  induction k generalizing i dst with
  | zero =>
    rw [if_neg (by omega)]
    rfl
  | succ k ih =>
    rw [copyTextLoop, val_bind, val_bind, val_access, val_access, ih]
    by_cases hj : j = i
    · subst hj
      rw [if_neg (by omega), if_pos (by omega), Function.update_self, Int.toNat_natCast]
    · rw [Function.update_of_ne hj]
      have hiff : ((i + 1 : ℕ) : ℤ) ≤ j ∧ j < (i + 1 : ℕ) + k ↔ (i : ℤ) ≤ j ∧ j < i + (k + 1 : ℕ) := by
        omega
      simp only [hiff]

theorem cutTextLen_nonneg {maxLen textLen msgWords : ℤ} (h : 0 < maxLen) :
    0 ≤ cutTextLen maxLen textLen msgWords := by
  rw [cutTextLen]
  split_ifs <;> omega

theorem cutTextLen_lt {maxLen textLen msgWords : ℤ} : cutTextLen maxLen textLen msgWords < maxLen := by
  rw [cutTextLen]
  split_ifs <;> omega

/-- All registers that are read for a text belong to the message. -/
theorem cutTextLen_le {maxLen textLen msgWords : ℤ} (h : 0 < cutTextLen maxLen textLen msgWords) :
    cutTextLen maxLen textLen msgWords ≤ (msgWords - 4) * 8 := by
  revert h
  rw [cutTextLen]
  split_ifs <;> omega

/-- The access stays inside a message of `msgWords` registers and an array of `maxLen` bytes. -/
def InMessage (maxLen msgWords : ℕ) : TextAccess → Prop
  | .register i => i < msgWords
  | .store i => 0 ≤ i ∧ i < maxLen

theorem within_copyTextLoop {maxLen msgWords : ℕ} (i k : ℕ) (hstore : i + k ≤ maxLen)
    (hread : 0 < k → i + k ≤ (msgWords - 4) * 8) :
    (copyTextLoop dst i k).Within (InMessage maxLen msgWords) := by
  induction k generalizing i dst with
  | zero => exact .pure _
  | succ k ih =>
    have hi := hread (by omega)
    have hregister : InMessage maxLen msgWords (.register (4 + i / 8)) :=
      show 4 + i / 8 < msgWords by omega
    have hbyte : InMessage maxLen msgWords (.store i) := ⟨by omega, by omega⟩
    apply Within.seq (.access _ hregister)
    intro word
    apply Within.seq (.access _ hbyte)
    intro dst
    exact ih (i + 1) (by omega) fun _ => by omega

/-- Whatever the message claims, nothing outside of it is read and nothing outside of the array is
written. -/
theorem within_copyTextFromMrs {maxLen : ℕ} (hmax : 0 < maxLen) (textLen : ℤ) (msgWords : ℕ) :
    (copyTextFromMrs dst maxLen textLen msgWords).Within (InMessage maxLen msgWords) := by
  have hlen : 0 ≤ cutTextLen maxLen textLen msgWords := cutTextLen_nonneg (by omega)
  have hlt : cutTextLen maxLen textLen msgWords < maxLen := cutTextLen_lt
  apply Within.seq
  · refine within_copyTextLoop _ _ (by omega) fun hpos => ?_
    have hle : cutTextLen maxLen textLen msgWords ≤ (msgWords - 4) * 8 := cutTextLen_le (by omega)
    omega
  · intro dst
    exact .access _ ⟨hlen, hlt⟩

/-- The length of a text that the shell has sent is left alone by the cuts. -/
theorem cutTextLen_sent {n : ℕ} (h : n ≤ 48) :
    cutTextLen textSize (toInt32 n) ((4 + (n + 8 - 1) / 8 : ℕ)) = n := by
  have hint : toInt32 n = n := by
    unfold toInt32
    exact Int.bmod_eq_of_le (by omega) (by omega)
  rw [hint, cutTextLen, textSize]
  split_ifs <;> omega

theorem length_clippedText (text : List UInt8) : (clippedText text).length ≤ 48 := by
  rw [clippedText, List.length_take]
  omega

/-- A byte of the text as the driver decodes it. -/
theorem commandText_val (old : Registers) (cmd ip port : ℕ) (text : Option (List UInt8))
    (hregs : ∀ i < (netSendTextCommand old cmd ip port text).length,
      regs i = (netSendTextCommand old cmd ip port text).regs i) {i : ℕ}
    (hi : i ≤ (clippedText (text.getD [])).length) :
    commandText dst (netSendTextCommand old cmd ip port text).length regs i =
      (clippedText (text.getD [])).getD i 0 := by
  generalize hclipped : clippedText (text.getD []) = clipped at hi ⊢
  have hlen : clipped.length ≤ 48 := hclipped ▸ length_clippedText _
  have hlength : (netSendTextCommand old cmd ip port text).length =
      4 + (clipped.length + 8 - 1) / 8 := by rw [netSendTextCommand, hclipped]
  have hthree : regs 3 = clipped.length := by
    rw [hregs 3 (by omega), netSendTextCommand, hclipped]
    rfl
  have hword : ∀ w < (clipped.length + 8 - 1) / 8, regs (4 + w) = packedWord clipped w := by
    intro w hw
    rw [hregs (4 + w) (by omega)]
    simp only [netSendTextCommand, hclipped]
    rw [if_neg (by omega), if_neg (by omega), if_neg (by omega), if_neg (by omega),
      if_pos (by omega), Nat.add_sub_cancel_left]
  rw [commandText, copyTextFromMrs, val_bind, val_access, hlength, hthree, cutTextLen_sent hlen]
  by_cases hend : i = clipped.length
  · rw [hend, Function.update_self, List.getD_eq_default _ _ le_rfl]
  · have hlt : i < clipped.length := by omega
    rw [Function.update_of_ne (by omega), copyTextLoop_val, if_pos (by omega), Int.toNat_natCast,
      hword (i / 8) (by omega), packedWord_byte]

end

/-- **The text of a command.** The driver decodes the first 48 bytes of the text that the shell has
sent, whatever its registers behind the message hold. No message makes it read a register behind the
message or write outside of its array. -/
theorem copyTextFromMrs_spec :
    (∀ (old regs : Registers) (dst : ℤ → UInt8) (cmd ip port : ℕ) (text : List UInt8), 0 ∉ text →
      (∀ i < (netSendTextCommand old cmd ip port (some text)).length,
        regs i = (netSendTextCommand old cmd ip port (some text)).regs i) →
      (List.range (min 48 text.length + 1)).map (fun i : ℕ =>
        commandText dst (netSendTextCommand old cmd ip port (some text)).length regs i) =
        text.take 48 ++ [0]) ∧
    ∀ (regs : Registers) (dst : ℤ → UInt8) (textLen : ℤ) (msgWords : ℕ),
      ∀ a ∈ (copyTextFromMrs dst textSize textLen msgWords).log regs,
        InMessage textSize msgWords a := by
  constructor
  · intro old regs dst cmd ip port text h0 hregs
    have hclipped : clippedText text = text.take 48 := by
      have hall : ∀ b ∈ text, decide (b ≠ 0) = true := fun b hb =>
        decide_eq_true fun hb0 => h0 (hb0 ▸ hb)
      rw [clippedText, List.takeWhile_eq_self_iff.mpr hall]
    have hlen : (text.take 48 ++ [0]).length = min 48 text.length + 1 := by
      rw [List.length_append, List.length_take, List.length_singleton]
    refine List.ext_getElem (by rw [List.length_map, List.length_range, hlen]) fun i hi hi' => ?_
    have hle : i ≤ (clippedText text).length := by
      rw [hclipped, List.length_take]
      omega
    rw [List.getElem_map, List.getElem_range]
    refine (commandText_val old cmd ip port (some text) hregs hle).trans ?_
    rw [Option.getD_some, hclipped]
    -- the bytes of the text, and behind them the terminator
    by_cases hend : i < (text.take 48).length
    · rw [List.getD_eq_getElem _ _ hend, List.getElem_append_left hend]
    · rw [List.getD_eq_default _ _ (by omega), List.getElem_append_right (by omega),
        List.getElem_singleton]
  · intro regs dst textLen msgWords a ha
    exact within_copyTextFromMrs (by decide) textLen msgWords regs a ha

/-- `send 10.0.2.2 hi`: two bytes in one register. -/
theorem copyTextFromMrs_spec_hi : (List.range 3).map (fun i : ℕ =>
    commandText (fun _ => 1) (netSendTextCommand (fun _ => 7) 2 0x0A000202 8080
      (some [104, 105])).length (netSendTextCommand (fun _ => 7) 2 0x0A000202 8080
      (some [104, 105])).regs i) = [104, 105, 0] :=
  copyTextFromMrs_spec.1 _ _ _ 2 0x0A000202 8080 [104, 105] (by decide) fun _ _ => rfl

end PsychWard.Net
