import PsychWard.Common.OnesComplement
import Mathlib.Data.List.GetD

/-!
# The checksum of the headers

`calculate_checksum` adds the words of a header with end-around carry, from `0xffff` on, which is zero
in its other representation. With the result in the checksum field the words of the header come to
zero; the result is the complement of their one's complement sum, except that a header of zeros gives
`0` where the complement of the sum `0` is `0xffff`.
-/

namespace PsychWard.Net

/-- `htons`. -/
def htons (x : ℕ) : ℕ := x / 2 ^ 8 % 2 ^ 8 + x % 2 ^ 8 * 2 ^ 8

/-- `acc += word; if (acc > 0xffff) acc -= 0xffff;` -/
def addWord (acc word : ℕ) : ℕ :=
  if 0xffff < acc + word then acc + word - 0xffff else acc + word

/-- The two bytes at `i` as a word in network byte order. -/
def wordAt (data : List UInt8) (i : ℕ) : ℕ :=
  (data.getD i 0).toNat * 2 ^ 8 + (data.getD (i + 1) 0).toNat

/-- The accumulator of `calculate_checksum` at its end. The loop visits the even `i` with
`i + 1 < length`. -/
def checksumAcc (data : List UInt8) (acc : ℕ) : ℕ :=
  let acc := (List.range (data.length / 2)).foldl (fun acc k => addWord acc (wordAt data (2 * k))) acc
  if data.length % 2 = 1 then addWord acc ((data.getD (data.length - 1) 0).toNat * 2 ^ 8) else acc

/-- `calculate_checksum`. The complement is that of a `uint32_t`, cut to 16 bits. -/
def calculateChecksum (data : List UInt8) : ℕ :=
  htons ((2 ^ 32 - 1 - checksumAcc data 0xffff) % 2 ^ 16)

/-- A `uint16_t` is stored at `p`, low byte first. -/
def storeHost16 (data : List UInt8) (p v : ℕ) : List UInt8 :=
  (data.set p (UInt8.ofNat v)).set (p + 1) (UInt8.ofNat (v / 2 ^ 8))

/-- The words of a buffer in network byte order, an odd last byte padded by a zero. -/
def networkWords : List UInt8 → List ℕ
  | [] => []
  | [a] => [a.toNat * 2 ^ 8]
  | a :: b :: data => (a.toNat * 2 ^ 8 + b.toNat) :: networkWords data

theorem networkWords_lt (data : List UInt8) : ∀ x ∈ networkWords data, x < 2 ^ 16 := by
  induction data using networkWords.induct with
  | case1 => exact fun x hx => absurd hx List.not_mem_nil
  | case2 a =>
    have ha := a.toNat_lt
    intro x hx
    rw [List.mem_singleton.mp hx]
    omega
  | case3 a b data ih =>
    have ha := a.toNat_lt
    have hb := b.toNat_lt
    exact List.forall_mem_cons.mpr ⟨by omega, ih⟩

theorem sum_networkWords_eq_zero {data : List UInt8} :
    (networkWords data).sum = 0 ↔ ∀ b ∈ data, b = 0 := by
  have hzero : ∀ b : UInt8, b.toNat = 0 ↔ b = 0 := fun b => by
    rw [← UInt8.toNat_inj, UInt8.toNat_zero]
  induction data using networkWords.induct with
  | case1 => exact iff_of_true rfl fun b hb => absurd hb List.not_mem_nil
  | case2 a =>
    rw [networkWords, List.sum_singleton, List.forall_mem_singleton, ← hzero]
    omega
  | case3 a b data ih =>
    rw [networkWords, List.sum_cons, Nat.add_eq_zero_iff, List.forall_mem_cons,
      List.forall_mem_cons, ← hzero a, ← hzero b]
    constructor
    · rintro ⟨h, hdata⟩
      exact ⟨by omega, by omega, ih.mp hdata⟩
    · rintro ⟨ha, hb, hdata⟩
      exact ⟨by omega, ih.mpr hdata⟩

theorem addWord_eq {acc word : ℕ} (hacc : acc < 2 ^ 16) (hword : word < 2 ^ 16) :
    addWord acc word = onesAdd 16 acc word := by
  rw [addWord]
  split
  · rw [onesAdd_of_ge hacc hword (by omega)]
    rfl
  · rw [onesAdd_of_lt (by omega)]

/-- The accumulator adds up the words one by one. -/
theorem checksumAcc_eq_foldl (data : List UInt8) (acc : ℕ) :
    checksumAcc data acc = (networkWords data).foldl addWord acc := by
  induction data using networkWords.induct generalizing acc with
  | case1 => simp [checksumAcc, networkWords]
  | case2 a => simp [checksumAcc, networkWords]
  | case3 a b data ih =>
    have hhalf : (a :: b :: data).length / 2 = data.length / 2 + 1 := by
      rw [List.length_cons, List.length_cons]
      omega
    have hodd : (a :: b :: data).length % 2 = data.length % 2 := by
      rw [List.length_cons, List.length_cons]
      omega
    have hlast : data.length % 2 = 1 → (a :: b :: data).getD ((a :: b :: data).length - 1) 0 =
        data.getD (data.length - 1) 0 := fun h => by
      have hlen : (a :: b :: data).length - 1 = data.length - 1 + 1 + 1 := by
        rw [List.length_cons, List.length_cons]
        omega
      rw [hlen, List.getD_cons_succ, List.getD_cons_succ]
    rw [networkWords, List.foldl_cons, ← ih, checksumAcc, checksumAcc, hhalf, hodd,
      List.range_succ_eq_map, List.foldl_cons, List.foldl_map]
    split
    · rw [hlast ‹_›]
      rfl
    · rfl

theorem foldl_addWord_eq {ws : List ℕ} {acc : ℕ} (h : ∀ x ∈ ws, x < 2 ^ 16) (hacc : acc < 2 ^ 16) :
    ws.foldl addWord acc = ws.foldl (onesAdd 16) acc := by
  induction ws generalizing acc with
  | nil => rfl
  | cons x ws ih =>
    obtain ⟨hx, hws⟩ := List.forall_mem_cons.mp h
    rw [List.foldl_cons, List.foldl_cons, addWord_eq hacc hx]
    exact ih hws (onesAdd_lt hacc hx)

theorem checksumAcc_eq (data : List UInt8) :
    checksumAcc data 0xffff = (networkWords data).foldl (onesAdd 16) (2 ^ 16 - 1) := by
  rw [checksumAcc_eq_foldl]
  exact foldl_addWord_eq (networkWords_lt data) (by decide)

theorem htons_htons {x : ℕ} (h : x < 2 ^ 16) : htons (htons x) = x := by
  have hhigh : htons x / 2 ^ 8 = x % 2 ^ 8 := by
    rw [htons]
    omega
  have hlow : htons x % 2 ^ 8 = x / 2 ^ 8 := by
    rw [htons]
    omega
  rw [htons, hhigh, hlow]
  omega

/-- The result, read in network byte order. -/
theorem htons_calculateChecksum (data : List UInt8) :
    htons (calculateChecksum data) = onesNot 16 (checksumAcc data 0xffff) := by
  have hlt : checksumAcc data 0xffff < 2 ^ 16 := by
    rw [checksumAcc_eq]
    exact foldl_onesAdd_lt (networkWords_lt data) (by decide)
  rw [calculateChecksum, htons_htons (Nat.mod_lt _ (by decide)), onesNot]
  omega

/-- Storing a value in two zero bytes of an even place adds it to the words. -/
theorem sum_networkWords_store {data : List UInt8} {p v : ℕ} (heven : p % 2 = 0)
    (hp : p + 1 < data.length) (h₀ : data.getD p 0 = 0) (h₁ : data.getD (p + 1) 0 = 0) :
    (networkWords (storeHost16 data p v)).sum = (networkWords data).sum + htons v := by
  induction data using networkWords.induct generalizing p with
  | case1 => exact absurd hp (Nat.not_lt_zero _)
  | case2 a =>
    rw [List.length_singleton] at hp
    omega
  | case3 a b data ih =>
    rcases p with _ | _ | p
    · obtain rfl : a = 0 := h₀
      obtain rfl : b = 0 := h₁
      have hword : (UInt8.ofNat v).toNat * 2 ^ 8 + (UInt8.ofNat (v / 2 ^ 8)).toNat = htons v := by
        rw [UInt8.toNat_ofNat', UInt8.toNat_ofNat', htons]
        omega
      have hstore : storeHost16 (0 :: 0 :: data) 0 v =
          UInt8.ofNat v :: UInt8.ofNat (v / 2 ^ 8) :: data := rfl
      rw [hstore, networkWords, networkWords, hword, List.sum_cons, List.sum_cons, UInt8.toNat_zero]
      omega
    · omega
    · have hstore : storeHost16 (a :: b :: data) (p + 1 + 1) v = a :: b :: storeHost16 data p v := rfl
      rw [List.getD_cons_succ, List.getD_cons_succ] at h₀ h₁
      rw [List.length_cons, List.length_cons] at hp
      rw [hstore, networkWords, networkWords, List.sum_cons, List.sum_cons,
        ih (by omega) (by omega) h₀ h₁, Nat.add_assoc, Nat.add_assoc, Nat.add_assoc]

/-- **The checksum of a header.** With the result stored in the checksum field, which was zero, the
checksum of the header is zero. Read in network byte order the result is the complement of the one's
complement sum of the words; only for a buffer of zeros it is the complement of the other zero. -/
theorem calculateChecksum_spec (data : List UInt8) :
    (∀ p, p % 2 = 0 → p + 1 < data.length → data.getD p 0 = 0 → data.getD (p + 1) 0 = 0 →
      calculateChecksum (storeHost16 data p (calculateChecksum data)) = 0) ∧
    htons (calculateChecksum data) =
      if data.all (· == 0) then 0 else onesNot 16 (onesSum 16 (networkWords data)) := by
  have hwords := networkWords_lt data
  constructor
  · intro p heven hp h₀ h₁
    -- the start value 0xffff is zero modulo `2 ^ 16 - 1`
    have hacc : checksumAcc data 0xffff ≡ (networkWords data).sum [MOD 2 ^ 16 - 1] := by
      rw [checksumAcc_eq]
      refine (foldl_onesAdd_modEq hwords (by decide)).trans ?_
      rw [Nat.ModEq, Nat.add_mod_left]
    have hle : checksumAcc data 0xffff ≤ 2 ^ 16 - 1 := by
      have := foldl_onesAdd_lt (a := 2 ^ 16 - 1) hwords (by decide)
      rw [checksumAcc_eq]
      omega
    have hsum : (networkWords (storeHost16 data p (calculateChecksum data))).sum ≡ 0
        [MOD 2 ^ 16 - 1] := by
      rw [sum_networkWords_store heven hp h₀ h₁, htons_calculateChecksum]
      refine (hacc.symm.add_right _).trans ?_
      rw [onesNot, Nat.add_sub_cancel' hle]
      rfl
    rw [calculateChecksum, checksumAcc_eq,
      foldl_onesAdd_ones_eq (networkWords_lt _) (by decide) hsum]
    rfl
  · rw [htons_calculateChecksum, checksumAcc_eq]
    split
    · rename_i hall
      have hzero : ∀ b ∈ data, b = 0 := by simpa using hall
      have hmod : (networkWords data).sum ≡ 0 [MOD 2 ^ 16 - 1] := by
        rw [sum_networkWords_eq_zero.mpr hzero]
      rw [foldl_onesAdd_ones_eq hwords (by decide) hmod]
      rfl
    · rename_i hne
      have hpos : 0 < (networkWords data).sum := by
        rw [Nat.pos_iff_ne_zero]
        intro hsum
        have hzero := sum_networkWords_eq_zero.mp hsum
        exact hne (by simpa using hzero)
      rw [foldl_onesAdd_ones hwords (by decide) hpos]

/-- A header of three bytes with its field in front. -/
theorem calculateChecksum_spec_three :
    calculateChecksum (storeHost16 [0, 0, 0x45] 0 (calculateChecksum [0, 0, 0x45])) = 0 :=
  (calculateChecksum_spec [0, 0, 0x45]).1 0 rfl (by decide) rfl rfl

/-- A buffer of zeros: the result is the complement of no sum that starts from zero. -/
theorem not_complement_zeros : ¬ ∀ data : List UInt8,
    calculateChecksum data = onesNot 16 (onesSum 16 (networkWords data)) ∨
      htons (calculateChecksum data) = onesNot 16 (onesSum 16 (networkWords data)) := by
  intro h
  have hzeros := h [0, 0]
  revert hzeros
  decide

end PsychWard.Net
