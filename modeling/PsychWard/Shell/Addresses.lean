import PsychWard.Fat32.Directory
import PsychWard.Net.DnsAnswer
import Mathlib.Data.List.Forall2
import Mathlib.Data.List.Induction
import Mathlib.Data.List.TakeWhile
import Mathlib.Data.Nat.Digits.Defs

/-!
# Addresses and ports on the command line

`parse_port` and `parse_ipv4` read a string of digits into an `int` and leave the loop as soon as the
value is out of range. Arithmetic on an `int` is checked here: a result that does not fit ends the
parse with `Failure.overflow`. A string is a list of bytes that ends at its first NUL, or at its end.
-/

namespace PsychWard.Shell

open Fat32

/-- Why nothing was parsed: the function returns `-1`, or an `int` overflows. -/
inductive Failure
  | minusOne
  | overflow
deriving DecidableEq, Repr

/-- The result of an operation on `int`s that are not negative. -/
def int (x : ℕ) : Except Failure ℕ := if x < 2 ^ 31 then .ok x else .error .overflow

/-- `*str >= '0' && *str <= '9'` -/
def isDigit (c : UInt8) : Bool := 48 ≤ c && c ≤ 57

/-- `value * 10 + (*str - '0')` -/
def pushDigit (value : ℕ) (c : UInt8) : Except Failure ℕ := do
  let tens ← int (value * 10)
  int (tens + (c.toNat - 48))

/-- The loop of `parse_port`: `value` and `str` after it. -/
def portDigits : CString → ℕ → Except Failure (ℕ × CString)
  | [], value => .ok (value, [])
  | c :: str, value =>
    if isDigit c then do
      let value ← pushDigit value c
      if value > 65535 then .error .minusOne else portDigits str value
    else .ok (value, c :: str)

/-- `parse_port`; `none` is the null pointer. -/
def parsePort : Option CString → Except Failure UInt16
  | none => .error .minusOne
  | some str =>
    if str.headD 0 = 0 then .error .minusOne
    else do
      let (value, str) ← portDigits str 0
      if str.headD 0 ≠ 0 ∨ value ≤ 0 then .error .minusOne else .ok (UInt16.ofNat value)

/-- The inner loop of `parse_ipv4`: `value`, `digits` and `str` after it. -/
def ipv4Digits : CString → ℕ → ℕ → Except Failure (ℕ × ℕ × CString)
  | [], value, digits => .ok (value, digits, [])
  | c :: str, value, digits =>
    if isDigit c then do
      let value ← pushDigit value c
      if value > 255 then .error .minusOne
      else do
        let digits ← int (digits + 1)
        ipv4Digits str value digits
    else .ok (value, digits, c :: str)

/-- The body of the outer loop up to `out[part] = (uint8_t)value`: the byte, and `str` after it. -/
def ipv4Part (str : CString) : Except Failure (UInt8 × CString) :=
  if isDigit (str.headD 0) then do
    let (value, digits, str) ← ipv4Digits str 0 0
    if digits = 0 then .error .minusOne else .ok (UInt8.ofNat value, str)
  else .error .minusOne

/-- The outer loop of `parse_ipv4` with `left` parts to go, and the test that follows it. -/
def ipv4Parts : ℕ → CString → Except Failure (List UInt8)
  | 0, str => if str.headD 0 = 0 then .ok [] else .error .minusOne
  | left + 1, str => do
    let (byte, str) ← ipv4Part str
    if left = 0 then do
      let out ← ipv4Parts left str
      .ok (byte :: out)
    else if str.headD 0 = dot then do
      let out ← ipv4Parts left str.tail
      .ok (byte :: out)
    else .error .minusOne

/-- `parse_ipv4`: the array `out`. -/
def parseIpv4 : Option CString → Except Failure (List UInt8)
  | none => .error .minusOne
  | some str => ipv4Parts 4 str

/-- `pack_ipv4` -/
def packIpv4 (ip : List UInt8) : ℕ :=
  (ip.getD 0 0).toNat <<< 24 ||| (ip.getD 1 0).toNat <<< 16 ||| (ip.getD 2 0).toNat <<< 8 |||
    (ip.getD 3 0).toNat

/-! ## What is accepted -/

/-- The value of a run of decimal digits. -/
def decimal (run : CString) : ℕ := Nat.ofDigits 10 (run.reverse.map fun c => c.toNat - 48)

/-- A run of decimal digits, at least one, of the value `v`. -/
structure IsNumeral (run : CString) (v : ℕ) : Prop where
  ne_nil : run ≠ []
  digits : ∀ c ∈ run, isDigit c
  value : decimal run = v

/-- `n` numerals with single dots between them, one for each byte of `ip`. -/
def IsDotted (n : ℕ) (s : CString) (ip : List UInt8) : Prop :=
  ∃ runs : List CString, s = [dot].intercalate runs ∧
    List.Forall₂ (fun run (b : UInt8) => IsNumeral run b.toNat) runs ip ∧ ip.length = n

/-! ## A parse in two halves -/

/-- A sequence of two steps succeeds if both do. -/
theorem bind_eq_ok {α β : Type} {x : Except Failure α} {f : α → Except Failure β} {b : β} :
    (x >>= f) = .ok b ↔ ∃ a, x = .ok a ∧ f a = .ok b := by
  cases x with
  | error e => exact ⟨fun h => (nomatch h), fun ⟨_, h, _⟩ => (nomatch h)⟩
  | ok a => exact ⟨fun h => ⟨a, rfl, h⟩, fun ⟨_, h, hf⟩ => Except.ok.inj h ▸ hf⟩

/-- A sequence overflows only in one of its steps. -/
theorem bind_ne_overflow {α β : Type} {x : Except Failure α} {f : α → Except Failure β}
    (hx : x ≠ .error .overflow) (hf : ∀ a, x = .ok a → f a ≠ .error .overflow) :
    (x >>= f) ≠ .error .overflow := by
  cases x with
  | error e => exact fun h => hx (congrArg Except.error (Except.error.inj h))
  | ok a => exact hf a rfl

/-! ## Digits -/

theorem isDigit_iff {c : UInt8} : isDigit c ↔ 48 ≤ c.toNat ∧ c.toNat ≤ 57 := by
  simp only [isDigit, Bool.and_eq_true, decide_eq_true_eq, UInt8.le_iff_toNat_le, UInt8.reduceToNat]

theorem decimal_nil : decimal [] = 0 := rfl

/-- One more digit. -/
theorem decimal_snoc (run : CString) (c : UInt8) :
    decimal (run ++ [c]) = decimal run * 10 + (c.toNat - 48) := by
  simp only [decimal, List.reverse_append, List.reverse_singleton, List.singleton_append,
    List.map_cons, Nat.ofDigits_cons]
  omega

/-- More digits never make the value smaller. -/
theorem decimal_le_append (run more : CString) : decimal run ≤ decimal (run ++ more) := by
  induction more using List.reverseRecOn with
  | nil => rw [List.append_nil]
  | append_singleton more c ih =>
    rw [← List.append_assoc, decimal_snoc]
    omega

/-- A value that is in range may take another digit. -/
theorem pushDigit_decimal {run : CString} {c : UInt8} (hrun : decimal run ≤ 65535)
    (hc : isDigit c) : pushDigit (decimal run) c = .ok (decimal (run ++ [c])) := by
  have hle := (isDigit_iff.mp hc).2
  have htens : int (decimal run * 10) = .ok (decimal run * 10) := if_pos (by omega)
  have hsum : int (decimal run * 10 + (c.toNat - 48)) = .ok (decimal run * 10 + (c.toNat - 48)) :=
    if_pos (by omega)
  rw [pushDigit, htens, decimal_snoc]
  exact hsum

/-! ## The bytes in front of the NUL -/

theorem headD_cString (s : CString) : (cString s).headD 0 = s.headD 0 := by
  cases s with
  | nil => rfl
  | cons c s =>
    by_cases hc : c = 0
    · rw [cString, List.takeWhile_cons_of_neg (by simpa using hc), hc, List.headD_nil,
        List.headD_cons]
    · rw [cString, List.takeWhile_cons_of_pos (by simpa using hc), List.headD_cons, List.headD_cons]

/-- A string is empty if its first byte is the terminator. -/
theorem cString_eq_nil_iff {s : CString} : cString s = [] ↔ s.headD 0 = 0 := by
  rw [← headD_cString]
  refine ⟨fun h => by rw [h, List.headD_nil], fun h => ?_⟩
  cases hs : cString s with
  | nil => rfl
  | cons c t =>
    have hc : c ≠ 0 := by simpa using List.mem_takeWhile_imp (hs ▸ List.mem_cons_self : c ∈ cString s)
    exact absurd (by simpa only [hs, List.headD_cons] using h) hc

theorem cString_cons {c : UInt8} (hc : c ≠ 0) (s : CString) : cString (c :: s) = c :: cString s :=
  List.takeWhile_cons_of_pos (by simpa using hc)

/-- The digits at the front are all in front of the NUL. -/
theorem cString_eq (s : CString) :
    cString s = s.takeWhile isDigit ++ cString (s.dropWhile isDigit) := by
  induction s with
  | nil => rfl
  | cons c s ih =>
    by_cases hc : isDigit c
    · have h0 : c ≠ 0 := fun h => absurd (h ▸ hc) (by decide)
      rw [List.takeWhile_cons_of_pos hc, List.dropWhile_cons_of_pos hc, cString_cons h0, ih,
        List.cons_append]
    · rw [List.takeWhile_cons_of_neg hc, List.dropWhile_cons_of_neg hc, List.nil_append]

/-- Behind a run of digits there is no digit. -/
theorem headD_dropWhile (s : CString) : ¬ isDigit ((s.dropWhile isDigit).headD 0) := by
  induction s with
  | nil => exact (by decide : ¬ isDigit 0)
  | cons c s ih =>
    by_cases hc : isDigit c
    · rwa [List.dropWhile_cons_of_pos hc]
    · rwa [List.dropWhile_cons_of_neg hc, List.headD_cons]

/-- A split of the string after its first digits is the one the loops make. -/
theorem split_digits {s run rest : CString} (h : cString s = run ++ rest)
    (hrun : ∀ c ∈ run, isDigit c) (hrest : ¬ isDigit (rest.headD 0)) :
    s.takeWhile isDigit = run ∧ cString (s.dropWhile isDigit) = rest := by
  have hmine := cString_eq s
  rw [h] at hmine
  have htake : ∀ {a b : CString}, (∀ c ∈ a, isDigit c) → ¬ isDigit (b.headD 0) →
      (a ++ b).takeWhile isDigit = a := by
    intro a b ha hb
    rw [List.takeWhile_append_of_pos ha]
    cases b with
    | nil => rw [List.takeWhile_nil, List.append_nil]
    | cons c b => rw [List.takeWhile_cons_of_neg (by simpa using hb), List.append_nil]
  have heq : run = s.takeWhile isDigit := by
    rw [← htake hrun hrest, hmine, htake (fun c hc => List.mem_takeWhile_imp hc)]
    rw [headD_cString]
    exact headD_dropWhile s
  rw [heq] at hmine
  exact ⟨heq.symm, (List.append_cancel_left hmine).symm⟩

/-! ## `parse_port` -/

/-- The loop has read `run`; it goes on through the digits in front of it. -/
theorem portDigits_eq (s run : CString) (hrun : decimal run ≤ 65535) :
    portDigits s (decimal run) =
      if decimal (run ++ s.takeWhile isDigit) ≤ 65535 then
        .ok (decimal (run ++ s.takeWhile isDigit), s.dropWhile isDigit)
      else .error .minusOne := by
  induction s generalizing run with
  | nil => rw [List.takeWhile_nil, List.append_nil, if_pos hrun, portDigits, List.dropWhile_nil]
  | cons c s ih =>
    by_cases hc : isDigit c
    · have happend : run ++ c :: s.takeWhile isDigit = (run ++ [c]) ++ s.takeWhile isDigit := by simp
      rw [portDigits, if_pos hc, pushDigit_decimal hrun hc, List.takeWhile_cons_of_pos hc,
        List.dropWhile_cons_of_pos hc, happend]
      have hmono := decimal_le_append (run ++ [c]) (s.takeWhile isDigit)
      by_cases hin : decimal (run ++ [c]) ≤ 65535
      · rw [← ih _ hin]
        exact if_neg (by omega)
      · rw [if_neg (by omega)]
        exact if_pos (by omega)
    · rw [portDigits, if_neg hc, List.takeWhile_cons_of_neg hc, List.dropWhile_cons_of_neg hc,
        List.append_nil, if_pos hrun]

/-- `parse_port`, by the run of digits in front and what is behind it. -/
theorem parsePort_eq (s : CString) :
    parsePort (some s) =
      if decimal (s.takeWhile isDigit) ≤ 65535 ∧ (s.dropWhile isDigit).headD 0 = 0 ∧
          0 < decimal (s.takeWhile isDigit) then
        .ok (UInt16.ofNat (decimal (s.takeWhile isDigit)))
      else .error .minusOne := by
  have hloop := portDigits_eq s [] (by decide)
  rw [decimal_nil, List.nil_append] at hloop
  rw [parsePort]
  by_cases h0 : s.headD 0 = 0
  · have hnil : s.takeWhile isDigit = [] := by
      cases s with
      | nil => rfl
      | cons c s =>
        rw [List.headD_cons] at h0
        rw [h0]
        exact List.takeWhile_cons_of_neg (by decide)
    rw [if_pos h0, hnil, if_neg fun h => absurd h.2.2 (by decide)]
  · rw [if_neg h0, hloop]
    by_cases hin : decimal (s.takeWhile isDigit) ≤ 65535
    · rw [if_pos hin]
      by_cases hok : (s.dropWhile isDigit).headD 0 = 0 ∧ 0 < decimal (s.takeWhile isDigit)
      · rw [if_pos ⟨hin, hok⟩]
        exact if_neg fun h => h.elim (· hok.1) (by omega)
      · rw [if_neg fun h => hok h.2]
        refine if_pos ?_
        by_contra h
        exact hok ⟨not_not.mp fun hne => h (.inl hne), by omega⟩
    · rw [if_neg hin, if_neg fun h => hin h.1]
      rfl

/-- A port is refused before its value can overflow. -/
theorem parsePort_ne_overflow (s : CString) : parsePort (some s) ≠ .error .overflow := by
  rw [parsePort_eq]
  split <;> simp

/-- A port is accepted if it is a numeral from 1 to 65535. -/
theorem parsePort_eq_ok (s : CString) (port : UInt16) :
    parsePort (some s) = .ok port ↔ IsNumeral (cString s) port.toNat ∧ 1 ≤ port.toNat := by
  rw [parsePort_eq]
  constructor
  · intro h
    split at h
    next hc =>
      have hport : port.toNat = decimal (s.takeWhile isDigit) := by
        rw [← Except.ok.inj h, UInt16.toNat_ofNat']
        omega
      have hs : cString s = s.takeWhile isDigit := by
        rw [cString_eq, cString_eq_nil_iff.mpr hc.2.1, List.append_nil]
      rw [hs]
      refine ⟨⟨fun hnil => ?_, fun c hc => List.mem_takeWhile_imp hc, hport.symm⟩, by omega⟩
      rw [hnil] at hc
      exact absurd hc.2.2 (by decide)
    next => cases h
  · rintro ⟨hnum, hpos⟩
    obtain ⟨htake, hdrop⟩ := split_digits (List.append_nil _).symm hnum.digits (by decide)
    have hv := hnum.value
    have hlt := port.toNat_lt
    rw [htake, hv, if_pos ⟨by omega, cString_eq_nil_iff.mp hdrop, by omega⟩, UInt16.ofNat_toNat]

/-! ## `parse_ipv4` -/

/-- The loop has read `run`, and counted its digits; the counter holds the digits in front of it. -/
theorem ipv4Digits_eq (s run : CString) (hrun : decimal run ≤ 255)
    (hlen : run.length + (s.takeWhile isDigit).length < 2 ^ 31) :
    ipv4Digits s (decimal run) run.length =
      if decimal (run ++ s.takeWhile isDigit) ≤ 255 then
        .ok (decimal (run ++ s.takeWhile isDigit), run.length + (s.takeWhile isDigit).length,
          s.dropWhile isDigit)
      else .error .minusOne := by
  induction s generalizing run with
  | nil =>
    rw [List.takeWhile_nil, List.append_nil, if_pos hrun, ipv4Digits, List.dropWhile_nil,
      List.length_nil, Nat.add_zero]
  | cons c s ih =>
    by_cases hc : isDigit c
    · have happend : run ++ c :: s.takeWhile isDigit = (run ++ [c]) ++ s.takeWhile isDigit := by simp
      have hlength : (run ++ [c]).length = run.length + 1 := List.length_append
      rw [List.takeWhile_cons_of_pos hc, List.length_cons] at hlen ⊢
      rw [ipv4Digits, if_pos hc, pushDigit_decimal (by omega) hc, List.dropWhile_cons_of_pos hc,
        happend]
      -- the value only grows, so a run that leaves the byte once is refused
      have hmono := decimal_le_append (run ++ [c]) (s.takeWhile isDigit)
      by_cases hin : decimal (run ++ [c]) ≤ 255
      · have hcount : int (run.length + 1) = .ok (run.length + 1) := if_pos (by omega)
        have hih := ih _ hin (by omega)
        rw [hlength] at hih
        rw [← Nat.add_assoc, Nat.add_right_comm, ← hih]
        refine (if_neg (by omega)).trans ?_
        rw [hcount]
        rfl
      · rw [if_neg (by omega)]
        exact if_pos (by omega)
    · rw [List.takeWhile_cons_of_neg hc] at hlen ⊢
      rw [ipv4Digits, if_neg hc, List.dropWhile_cons_of_neg hc, List.append_nil, if_pos hrun,
        List.length_nil, Nat.add_zero]

/-- One part of an address, by the run of digits in front. -/
theorem ipv4Part_eq (s : CString) (hlen : (s.takeWhile isDigit).length < 2 ^ 31) :
    ipv4Part s =
      if s.takeWhile isDigit ≠ [] ∧ decimal (s.takeWhile isDigit) ≤ 255 then
        .ok (UInt8.ofNat (decimal (s.takeWhile isDigit)), s.dropWhile isDigit)
      else .error .minusOne := by
  have hloop := ipv4Digits_eq s [] (by decide) (by rwa [List.length_nil, Nat.zero_add])
  rw [decimal_nil, List.nil_append, List.length_nil, Nat.zero_add] at hloop
  rw [ipv4Part]
  by_cases h0 : isDigit (s.headD 0)
  · have hne : s.takeWhile isDigit ≠ [] := by
      cases s with
      | nil => exact absurd h0 (by decide)
      | cons c s =>
        rw [List.takeWhile_cons_of_pos (by simpa using h0)]
        exact List.cons_ne_nil _ _
    rw [if_pos h0, hloop]
    by_cases hin : decimal (s.takeWhile isDigit) ≤ 255
    · rw [if_pos hin, if_pos ⟨hne, hin⟩]
      exact if_neg fun h => hne (List.length_eq_zero_iff.mp h)
    · rw [if_neg hin, if_neg fun h => hin h.2]
      rfl
  · have hnil : s.takeWhile isDigit = [] := by
      cases s with
      | nil => rfl
      | cons c s => exact List.takeWhile_cons_of_neg (by simpa using h0)
    rw [if_neg h0, if_neg fun h => h.1 hnil]

/-- No run of digits in the string is too long for a counter. -/
def RunsFit (s : CString) : Prop :=
  ∀ run, run <:+: s → (∀ c ∈ run, isDigit c) → run.length < 2 ^ 31

/-- The first run is short enough for the counter. -/
theorem RunsFit.takeWhile {s : CString} (h : RunsFit (cString s)) :
    (s.takeWhile isDigit).length < 2 ^ 31 :=
  h _ ⟨[], cString (s.dropWhile isDigit), by rw [List.nil_append, ← cString_eq]⟩
    fun _ hc => List.mem_takeWhile_imp hc

/-- The part at the front of the string: a numeral, up to a byte that is no digit. -/
theorem ipv4Part_eq_ok {s : CString} (h : RunsFit (cString s)) (b : UInt8) (str : CString) :
    ipv4Part s = .ok (b, str) ↔
      IsNumeral (s.takeWhile isDigit) b.toNat ∧ str = s.dropWhile isDigit := by
  rw [ipv4Part_eq s h.takeWhile]
  constructor
  · intro hok
    split at hok
    next hc =>
      obtain ⟨rfl, rfl⟩ := Prod.mk.inj (Except.ok.inj hok)
      refine ⟨⟨hc.1, fun c hc => List.mem_takeWhile_imp hc, ?_⟩, rfl⟩
      rw [UInt8.toNat_ofNat', Nat.mod_eq_of_lt (by omega)]
    next => cases hok
  · rintro ⟨hnum, rfl⟩
    have hv := hnum.value
    have hlt := b.toNat_lt
    rw [hv, if_pos ⟨hnum.ne_nil, by omega⟩, UInt8.ofNat_toNat]

/-- The runs behind a dot are runs of the string. -/
theorem RunsFit.tail {run rest : CString} {c : UInt8} (h : RunsFit (run ++ c :: rest)) :
    RunsFit rest := fun r hr =>
  h r (hr.trans ⟨run ++ [c], [], by simp⟩)

/-- The last part has no dot behind it. -/
theorem isDotted_one {s : CString} {ip : List UInt8} :
    IsDotted 1 s ip ↔ ∃ b, ip = [b] ∧ IsNumeral s b.toNat := by
  constructor
  · rintro ⟨runs, rfl, hall, hlen⟩
    obtain ⟨b, rfl⟩ := List.length_eq_one_iff.mp hlen
    obtain ⟨run, runs, hnum, hnil, rfl⟩ := List.forall₂_cons_right_iff.mp hall
    obtain rfl := List.forall₂_nil_right_iff.mp hnil
    exact ⟨b, rfl, List.intercalate_singleton ▸ hnum⟩
  · rintro ⟨b, rfl, hnum⟩
    exact ⟨[s], List.intercalate_singleton.symm, .cons hnum .nil, rfl⟩

/-- Any other part has one. -/
theorem isDotted_succ {n : ℕ} {s : CString} {ip : List UInt8} :
    IsDotted (n + 2) s ip ↔ ∃ run rest b out, s = run ++ dot :: rest ∧ ip = b :: out ∧
      IsNumeral run b.toNat ∧ IsDotted (n + 1) rest out := by
  constructor
  · rintro ⟨runs, rfl, hall, hlen⟩
    obtain ⟨b, out, rfl⟩ := List.exists_cons_of_length_eq_add_one hlen
    obtain ⟨run, runs, hnum, hrest, rfl⟩ := List.forall₂_cons_right_iff.mp hall
    have hout : out.length = n + 1 := Nat.succ.inj hlen
    obtain ⟨run', runs, rfl⟩ := List.exists_cons_of_length_eq_add_one (hrest.length_eq.trans hout)
    exact ⟨run, _, b, out, by simp [List.intercalate_cons_cons], rfl, hnum, _, rfl, hrest, hout⟩
  · rintro ⟨run, rest, b, out, rfl, rfl, hnum, runs, rfl, hall, hlen⟩
    obtain ⟨run', runs, rfl⟩ := List.exists_cons_of_length_eq_add_one (hall.length_eq.trans hlen)
    exact ⟨run :: run' :: runs, by simp [List.intercalate_cons_cons], .cons hnum hall,
      congrArg (· + 1) hlen⟩

/-- A byte of the string that is not its end. -/
theorem cString_of_headD {s : CString} {c : UInt8} (h : s.headD 0 = c) (hc : c ≠ 0) :
    cString s = c :: cString s.tail := by
  cases s with
  | nil => exact absurd h.symm hc
  | cons x s =>
    obtain rfl : x = c := h
    exact cString_cons hc s

/-- The parts are accepted if the string is dotted. -/
theorem ipv4Parts_eq_ok (left : ℕ) {s : CString} (h : RunsFit (cString s)) (ip : List UInt8) :
    ipv4Parts (left + 1) s = .ok ip ↔ IsDotted (left + 1) (cString s) ip := by
  -- on the parts to go: behind the last one the string ends, behind the others there is a dot
  induction left generalizing s ip with
  | zero =>
    rw [isDotted_one, ipv4Parts, bind_eq_ok]
    constructor
    · rintro ⟨⟨b, str⟩, hpart, hrest⟩
      obtain ⟨hnum, rfl⟩ := (ipv4Part_eq_ok h b str).mp hpart
      obtain ⟨out, hout, hip⟩ := bind_eq_ok.mp hrest
      rw [ipv4Parts] at hout
      split at hout
      next hend =>
        cases hout
        refine ⟨b, (Except.ok.inj hip).symm, ?_⟩
        rwa [cString_eq, cString_eq_nil_iff.mpr hend, List.append_nil]
      next => cases hout
    · rintro ⟨b, rfl, hnum⟩
      obtain ⟨htake, hdrop⟩ := split_digits (List.append_nil _).symm hnum.digits (by decide)
      refine ⟨_, (ipv4Part_eq_ok h b _).mpr ⟨htake ▸ hnum, rfl⟩, ?_⟩
      exact bind_eq_ok.mpr ⟨[], if_pos (cString_eq_nil_iff.mp hdrop), rfl⟩
  | succ left ih =>
    rw [isDotted_succ, ipv4Parts, bind_eq_ok]
    constructor
    · rintro ⟨⟨b, str⟩, hpart, hrest⟩
      obtain ⟨hnum, rfl⟩ := (ipv4Part_eq_ok h b str).mp hpart
      simp only [if_neg (Nat.succ_ne_zero left)] at hrest
      split at hrest
      next hdot =>
        have hs := cString_eq s
        rw [cString_of_headD hdot (by decide)] at hs
        rw [hs] at h ⊢
        obtain ⟨out, hout, hip⟩ := bind_eq_ok.mp hrest
        exact ⟨_, _, b, out, rfl, (Except.ok.inj hip).symm, hnum, (ih h.tail out).mp hout⟩
      next => cases hrest
    · rintro ⟨run, rest, b, out, hs, rfl, hnum, hrest⟩
      have hdotIs : ¬ isDigit dot := by decide
      obtain ⟨htake, hdrop⟩ := split_digits hs hnum.digits hdotIs
      have hdot : (s.dropWhile isDigit).headD 0 = dot := by
        rw [← headD_cString, hdrop, List.headD_cons]
      have htail : cString (s.dropWhile isDigit).tail = rest :=
        (List.cons.inj ((cString_of_headD hdot (by decide)).symm.trans hdrop)).2
      refine ⟨_, (ipv4Part_eq_ok h b _).mpr ⟨htake ▸ hnum, rfl⟩, ?_⟩
      rw [hs] at h
      have hout := (ih (htail ▸ h.tail) out).mpr (htail ▸ hrest)
      simp only [if_neg (Nat.succ_ne_zero left), if_pos hdot]
      exact bind_eq_ok.mpr ⟨out, hout, rfl⟩

/-- Where all runs are short enough the counter never overflows. -/
theorem ipv4Parts_ne_overflow (left : ℕ) {s : CString} (h : RunsFit (cString s)) :
    ipv4Parts left s ≠ .error .overflow := by
  induction left generalizing s with
  | zero =>
    rw [ipv4Parts]
    split <;> simp
  | succ left ih =>
    refine bind_ne_overflow ?_ fun r hr => ?_
    · rw [ipv4Part_eq s h.takeWhile]
      split <;> simp
    · obtain ⟨b, str⟩ := r
      obtain ⟨-, rfl⟩ := (ipv4Part_eq_ok h b str).mp hr
      simp only
      split
      next hlast =>
        subst hlast
        refine bind_ne_overflow ?_ fun out _ => by simp
        rw [ipv4Parts]
        split <;> simp
      next =>
        split
        next hdot =>
          rw [cString_eq, cString_of_headD hdot (by decide)] at h
          exact bind_ne_overflow (ih h.tail) fun out _ => by simp
        next => simp

/-! ## `pack_ipv4` -/

/-- The driver gets back the four bytes that the shell has packed. -/
theorem unpackIpv4_packIpv4 {ip : List UInt8} (h : ip.length = 4) :
    Net.unpackIpv4 (packIpv4 ip) = ip := by
  obtain ⟨a, b, c, d, rfl⟩ : ∃ a b c d, ip = [a, b, c, d] := by
    match ip, h with
    | [a, b, c, d], _ => exact ⟨a, b, c, d, rfl⟩
  have ha := a.toNat_lt
  have hb := b.toNat_lt
  have hc := c.toNat_lt
  have hd := d.toNat_lt
  have hword : packIpv4 [a, b, c, d] =
      a.toNat * 2 ^ 24 + b.toNat * 2 ^ 16 + c.toNat * 2 ^ 8 + d.toNat := by
    have hlow : c.toNat <<< 8 ||| d.toNat = c.toNat <<< 8 + d.toNat :=
      (Nat.shiftLeft_add_eq_or_of_lt hd _).symm
    have hmid : b.toNat <<< 16 ||| (c.toNat <<< 8 + d.toNat) =
        b.toNat <<< 16 + (c.toNat <<< 8 + d.toNat) := by
      refine (Nat.shiftLeft_add_eq_or_of_lt ?_ _).symm
      rw [Nat.shiftLeft_eq]
      omega
    have hhigh : a.toNat <<< 24 ||| (b.toNat <<< 16 + (c.toNat <<< 8 + d.toNat)) =
        a.toNat <<< 24 + (b.toNat <<< 16 + (c.toNat <<< 8 + d.toNat)) := by
      refine (Nat.shiftLeft_add_eq_or_of_lt ?_ _).symm
      rw [Nat.shiftLeft_eq, Nat.shiftLeft_eq]
      omega
    simp only [packIpv4, List.getD_cons_zero, List.getD_cons_succ]
    rw [Nat.or_assoc, Nat.or_assoc, hlow, hmid, hhigh, Nat.shiftLeft_eq, Nat.shiftLeft_eq,
      Nat.shiftLeft_eq]
    omega
  have hbyte : ∀ (w : ℕ) (x : UInt8), w % 2 ^ 8 = x.toNat → UInt8.ofNat w = x := fun w x hw =>
    UInt8.toNat_inj.mp (UInt8.toNat_ofNat'.trans hw)
  rw [hword, Net.unpackIpv4, hbyte _ a (by omega), hbyte _ b (by omega), hbyte _ c (by omega),
    hbyte _ d (by omega)]

/-! ## Every string -/

/-- Exactly the numerals from 1 to 65535 are ports and exactly the dotted quadruples of bytes are
addresses, as long as no run of digits of an address is too long for the counter. -/
theorem parse_iff (s : CString) :
    (∀ port, parsePort (some s) = .ok port ↔
        IsNumeral (cString s) port.toNat ∧ 1 ≤ port.toNat) ∧
      parsePort (some s) ≠ .error .overflow ∧
      (RunsFit (cString s) →
        (∀ ip, parseIpv4 (some s) = .ok ip ↔ IsDotted 4 (cString s) ip) ∧
          parseIpv4 (some s) ≠ .error .overflow) ∧
      ∀ ip : List UInt8, ip.length = 4 → Net.unpackIpv4 (packIpv4 ip) = ip :=
  ⟨parsePort_eq_ok s, parsePort_ne_overflow s,
    fun h => ⟨ipv4Parts_eq_ok 3 h, ipv4Parts_ne_overflow 4 h⟩, fun _ => unpackIpv4_packIpv4⟩

/-- A string below the limit has only runs below the limit. -/
theorem runsFit_of_length {s : CString} (h : s.length < 2 ^ 31) : RunsFit s :=
  fun _ hr _ => hr.length_le.trans_lt h

/-- `10.0.2.2` -/
def gatewayText : CString := [49, 48, 46, 48, 46, 50, 46, 50]

/-- The address of the gateway is parsed and packed. -/
theorem parse_gatewayText : RunsFit (cString gatewayText) ∧
    parseIpv4 (some gatewayText) ≠ .error .overflow ∧
    Net.unpackIpv4 (packIpv4 [10, 0, 2, 2]) = [10, 0, 2, 2] :=
  have h : RunsFit (cString gatewayText) := runsFit_of_length (by decide)
  ⟨h, ((parse_iff gatewayText).2.2.1 h).2, (parse_iff gatewayText).2.2.2 _ rfl⟩

example : parseIpv4 (some [49, 46, 50, 46, 51, 46, 48, 52]) = .ok [1, 2, 3, 4] := by decide

/-! ## A run that the counter cannot hold -/

/-- A run of zeros is counted until the counter overflows. -/
theorem ipv4Digits_zeros (n : ℕ) {digits : ℕ} (s : CString) (hdigits : digits < 2 ^ 31)
    (hn : 2 ^ 31 ≤ digits + n) :
    ipv4Digits (List.replicate n 48 ++ s) 0 digits = .error .overflow := by
  induction n generalizing digits with
  | zero => omega
  | succ n ih =>
    have hzero : pushDigit 0 48 = .ok 0 := by decide
    rw [List.replicate_succ, List.cons_append, ipv4Digits, if_pos (by decide), hzero]
    change (int (digits + 1) >>= fun digits => ipv4Digits (List.replicate n 48 ++ s) 0 digits) = _
    by_cases hlast : digits + 1 < 2 ^ 31
    · have hcount : int (digits + 1) = .ok (digits + 1) := if_pos hlast
      rw [hcount]
      exact ih hlast (by omega)
    · have hcount : int (digits + 1) = .error .overflow := if_neg hlast
      rw [hcount]
      rfl

/-- Zeros are worth nothing. -/
theorem decimal_zeros (n : ℕ) : decimal (List.replicate n 48) = 0 := by
  induction n with
  | zero => rfl
  | succ n ih => rw [List.replicate_succ', decimal_snoc, ih]; rfl

/-- `0…0.0.0.0`, with `n` digits in the first part -/
def zeros (n : ℕ) : CString := List.replicate n 48 ++ [46, 48, 46, 48, 46, 48]

/-- A run of zeros is a well-formed part. -/
theorem isDotted_zeros {n : ℕ} (hn : 0 < n) : IsDotted 4 (zeros n) [0, 0, 0, 0] := by
  have hone : IsNumeral [48] (0 : UInt8).toNat :=
    ⟨by decide, List.forall_mem_singleton.mpr (by decide), decimal_zeros 1⟩
  refine ⟨[List.replicate n 48, [48], [48], [48]], ?_, .cons ⟨?_, ?_, decimal_zeros n⟩
    (.cons hone (.cons hone (.cons hone .nil))), rfl⟩
  · simp [zeros, List.intercalate_cons_cons, dot]
  · exact fun h => absurd (congrArg List.length h) (by simp; omega)
  · intro c hc
    rw [List.eq_of_mem_replicate hc]
    decide

/-- An address that starts with `2 ^ 31` zeros overflows the counter. -/
theorem parseIpv4_zeros {n : ℕ} (hn : 2 ^ 31 ≤ n) :
    parseIpv4 (some (zeros n)) = .error .overflow := by
  have hloop := ipv4Digits_zeros n [46, 48, 46, 48, 46, 48] (Nat.two_pow_pos 31) (by omega)
  obtain ⟨m, rfl⟩ := Nat.exists_eq_add_one.mpr (by omega : 0 < n)
  have hhead : isDigit ((zeros (m + 1)).headD 0) := by
    rw [zeros, List.replicate_succ, List.cons_append, List.headD_cons]
    decide
  rw [parseIpv4, ipv4Parts, ipv4Part, if_pos hhead, zeros, hloop]
  rfl

/-- Four parts of the value 0, and yet the counter of the digits overflows. -/
theorem overflow_of_zeros : IsDotted 4 (zeros (2 ^ 31)) [0, 0, 0, 0] ∧
    parseIpv4 (some (zeros (2 ^ 31))) = .error .overflow :=
  ⟨isDotted_zeros (Nat.two_pow_pos 31), parseIpv4_zeros (Nat.le_refl _)⟩

end PsychWard.Shell
