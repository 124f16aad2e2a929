import PsychWard.Fat32.WalkSpec
import PsychWard.Fat32.EntrySpec
import Mathlib.Data.List.GetD
import Mathlib.Data.List.TakeWhile
import Mathlib.Tactic.IntervalCases

/-!
# Long names

A long name is cut into pieces of 13 characters, which are stored in front of its short entry, the
last piece first. A search puts the pieces into a buffer by their numbers. `lfnAfter_lfnEntries` says
that the buffer then holds the name.
-/

namespace PsychWard.Fat32

/-! ## Comparison -/

/-- `my_strcasecmp` tells names apart up to the case of their letters. -/
theorem myStrcasecmp_eq_zero {a b : CString} (ha : 0 ∉ a) (hb : 0 ∉ b) :
    myStrcasecmp a b = 0 ↔ a.map toUpper = b.map toUpper := by
  have hpos : ∀ {x : UInt8}, x ≠ 0 → x.toNat ≠ 0 := fun hx h => hx (UInt8.toNat_inj.mp h)
  induction a generalizing b with
  | nil =>
    cases b with
    | nil => simp [myStrcasecmp]
    | cons x b =>
      have := hpos (x := x) fun h => hb (by simp [h])
      simp only [myStrcasecmp, List.headD_nil, List.headD_cons, List.map_nil, List.map_cons,
        reduceCtorEq, iff_false, UInt8.toNat_zero]
      omega
  | cons y a ih =>
    have hy := hpos (x := y) fun h => ha (by simp [h])
    cases b with
    | nil =>
      simp only [myStrcasecmp, List.headD_nil, List.headD_cons, List.map_nil, List.map_cons,
        reduceCtorEq, iff_false, UInt8.toNat_zero]
      omega
    | cons x b =>
      rw [myStrcasecmp, List.map_cons, List.map_cons, List.cons.injEq]
      by_cases h : toUpper y = toUpper x
      · have ih := ih (b := b) (fun h => ha (by simp [h])) fun h => hb (by simp [h])
        rw [if_neg (not_not.mpr h)]
        exact ⟨fun hab => ⟨h, ih.mp hab⟩, fun hab => ih.mpr hab.2⟩
      · rw [if_pos h]
        have : (toUpper y).toNat ≠ (toUpper x).toNat := fun heq => h (UInt8.toNat_inj.mp heq)
        simp only [h, false_and, iff_false]
        omega

/-- A name in the buffer has no NUL. -/
theorem zero_notMem_str (buf : LfnBuf) : 0 ∉ buf.str := by
  intro h
  have hne := List.mem_takeWhile_imp h
  simp at hne

/-- A dot is no letter. -/
theorem toUpper_eq_dot {x : UInt8} : toUpper x = dot ↔ x = dot :=
  toUpper_eq_iff (by decide) (by decide)

/-- Dots are compared as they are. -/
theorem map_toUpper_eq_dots {a : CString} {n : ℕ} :
    a.map toUpper = List.replicate n dot ↔ a = List.replicate n dot := by
  rw [List.eq_replicate_iff, List.eq_replicate_iff, List.length_map]
  simp [toUpper_eq_dot]

/-- The short form of a name does not depend on the case of its letters. -/
theorem formatFat32Name_congr {a b : CString} (ha : 0 ∉ a) (hb : 0 ∉ b)
    (h : a.map toUpper = b.map toUpper) : formatFat32Name a = formatFat32Name b := by
  have hdots : ∀ n, a = List.replicate n dot ↔ b = List.replicate n dot := fun n => by
    rw [← map_toUpper_eq_dots, h, map_toUpper_eq_dots]
  have hp : ((fun x => decide (x ≠ dot)) ∘ toUpper) = fun x => decide (x ≠ dot) := by
    funext x
    simp [toUpper_eq_dot]
  have htake : ∀ s : CString, ((s.takeWhile (· ≠ dot)).take 8).map toUpper =
      ((s.map toUpper).takeWhile (· ≠ dot)).take 8 := fun s => by
    rw [List.map_take, List.takeWhile_map, hp]
  have hdrop : ∀ s : CString, (((s.dropWhile (· ≠ dot)).drop 1).take 3).map toUpper =
      (((s.map toUpper).dropWhile (· ≠ dot)).drop 1).take 3 := fun s => by
    rw [List.map_take, List.map_drop, List.dropWhile_map, hp]
  have h1 : myStrcmp a [dot] = 0 ↔ myStrcmp b [dot] = 0 := by
    rw [myStrcmp_eq_zero ha (by decide), myStrcmp_eq_zero hb (by decide)]
    exact hdots 1
  have h2 : myStrcmp a [dot, dot] = 0 ↔ myStrcmp b [dot, dot] = 0 := by
    rw [myStrcmp_eq_zero ha (by decide), myStrcmp_eq_zero hb (by decide)]
    exact hdots 2
  rw [formatFat32Name, formatFat32Name]
  simp only [h1, h2, htake, hdrop, h]

/-! ## The pieces of a name -/

/-- The byte that a long-name entry stores for the character with number `i`. -/
def pieceByte (name : CString) (i : ℕ) : UInt8 :=
  if i < name.length then name.getD i 0 else if i = name.length then 0 else 0xFF

/-- An entry holds 13 characters of the name, padded. -/
theorem map_lfnEntry (name : CString) (sum : UInt8) (count seq : ℕ) :
    lfnPositions.map (lfnEntry name sum count seq) =
      (List.range 13).map fun k => pieceByte name ((seq - 1) * 13 + k) := by
  have hbyte : ∀ i, UInt8.ofNat (if i < name.length then (name.getD i 0).toNat
      else if i = name.length then 0 else 0xFFFF) = pieceByte name i := by
    intro i
    rw [pieceByte]
    split
    · exact UInt8.ofNat_toNat
    · split <;> rfl
  simp only [← hbyte]
  rfl

/-- The characters of a piece. -/
theorem lfnChars_lfnEntry {name : CString} (sum : UInt8) (count seq : ℕ) (h0 : 0 ∉ name)
    (hfill : 0xFF ∉ name) :
    lfnChars (lfnEntry name sum count seq) = (name.drop ((seq - 1) * 13)).take 13 := by
  rw [lfnChars, map_lfnEntry]
  generalize (seq - 1) * 13 = base
  generalize 13 = n
  induction n with
  | zero => simp
  | succ n ih =>
    rw [List.range_succ, List.map_append, List.filter_append, ih, List.take_add_one, List.getElem?_drop]
    congr 1
    by_cases hlt : base + n < name.length
    · have hmem : name[base + n] ∈ name := List.getElem_mem hlt
      have h1 : name[base + n] ≠ 0 := fun h => h0 (h ▸ hmem)
      have h2 : name[base + n] ≠ 0xFF := fun h => hfill (h ▸ hmem)
      simp [pieceByte, hlt, h1, h2]
    · rw [List.getElem?_eq_none (by omega)]
      by_cases heq : base + n = name.length <;> simp [pieceByte, hlt, heq]

/-- The number of an entry is read back. -/
theorem lfnSeq_lfnEntry (name : CString) (sum : UInt8) (count : ℕ) {seq : ℕ} (h : seq ≤ 20) :
    lfnSeq (lfnEntry name sum count seq) = seq := by
  have hbyte : lfnEntry name sum count seq 0 =
      UInt8.ofNat (if seq = count then seq ||| 0x40 else seq) := rfl
  rw [lfnSeq, hbyte]
  split
  · clear hbyte
    interval_cases seq <;> rfl
  · rw [UInt8.toNat_ofNat']
    omega

/-- A long-name entry is no free slot. -/
theorem not_isFree_lfnEntry (name : CString) (sum : UInt8) (count : ℕ) {seq : ℕ} (h1 : 1 ≤ seq)
    (h : seq ≤ 20) : ¬ (lfnEntry name sum count seq).IsFree := by
  have hbyte : lfnEntry name sum count seq 0 =
      UInt8.ofNat (if seq = count then seq ||| 0x40 else seq) := rfl
  rw [Entry.IsFree, hbyte]
  split
  · clear hbyte
    interval_cases seq <;> decide
  · clear hbyte
    interval_cases seq <;> decide

/-- The buffer with the characters of the name from number `i` on. -/
def LfnBuf.suffix (name : CString) (i : ℕ) : LfnBuf := fun k => if i ≤ k then name.getD k 0 else 0

/-- Storing an entry fills its 13 characters in. -/
theorem store_apply {buf : LfnBuf} {e : Entry} (h : 1 ≤ lfnSeq e ∧ lfnSeq e ≤ 20) (k : ℕ) :
    buf.store e k = if (lfnSeq e - 1) * 13 ≤ k ∧ k - (lfnSeq e - 1) * 13 < (lfnChars e).length then
      (lfnChars e).getD (k - (lfnSeq e - 1) * 13) 0 else buf k := by
  have hstore : buf.store e = _ := if_pos h
  exact congrFun hstore k

/-- One more piece. -/
theorem suffix_store {name : CString} (sum : UInt8) (count : ℕ) {seq : ℕ} (h0 : 0 ∉ name)
    (hfill : 0xFF ∉ name) (h : seq < 20) :
    (LfnBuf.suffix name ((seq + 1) * 13)).store (lfnEntry name sum count (seq + 1)) =
      LfnBuf.suffix name (seq * 13) := by
  have hseq := lfnSeq_lfnEntry name sum count (show seq + 1 ≤ 20 by omega)
  funext k
  rw [store_apply (by omega), hseq, lfnChars_lfnEntry _ _ _ h0 hfill]
  simp only [Nat.add_sub_cancel, List.length_take, List.length_drop, LfnBuf.suffix]
  by_cases hk : seq * 13 ≤ k
  · by_cases hin : k - seq * 13 < min 13 (name.length - seq * 13)
    · rw [if_pos ⟨hk, hin⟩, if_pos hk]
      simp only [List.getD_eq_getElem?_getD]
      rw [List.getElem?_take_of_lt (by omega), List.getElem?_drop,
        show seq * 13 + (k - seq * 13) = k by omega]
    · rw [if_neg (fun h => hin h.2), if_pos hk]
      split
      · rfl
      · rw [List.getD_eq_default _ _ (by omega)]
  · rw [if_neg (fun h => hk h.1), if_neg hk, if_neg (by omega)]

/-- The long-name entries of a name in the order of the disk, from number `seq` on. -/
def lfnEntries (name : CString) (sum : UInt8) (count : ℕ) : ℕ → List Entry
  | 0 => []
  | seq + 1 => lfnEntry name sum count (seq + 1) :: lfnEntries name sum count seq

/-- The entries of a name have the numbers from 1 on. -/
theorem mem_lfnEntries {name : CString} {sum : UInt8} {count seq : ℕ} {e : Entry} :
    e ∈ lfnEntries name sum count seq ↔ ∃ k, 1 ≤ k ∧ k ≤ seq ∧ e = lfnEntry name sum count k := by
  induction seq with
  | zero =>
    refine iff_of_false List.not_mem_nil ?_
    rintro ⟨k, h1, h2, -⟩
    omega
  | succ seq ih =>
    rw [lfnEntries, List.mem_cons, ih]
    constructor
    · rintro (rfl | ⟨k, h1, h2, rfl⟩)
      · exact ⟨seq + 1, by omega, le_refl _, rfl⟩
      · exact ⟨k, h1, by omega, rfl⟩
    · rintro ⟨k, h1, h2, rfl⟩
      rcases h2.lt_or_eq with hlt | rfl
      · exact .inr ⟨k, h1, by omega, rfl⟩
      · exact .inl rfl

/-- The pieces from number `seq` on complete the buffer. -/
theorem foldl_lfnEntries {name : CString} (sum : UInt8) (count : ℕ) {seq : ℕ} (h0 : 0 ∉ name)
    (hfill : 0xFF ∉ name) (h : seq ≤ 20) :
    (lfnEntries name sum count seq).foldl lfnStep (LfnBuf.suffix name (seq * 13)) =
      LfnBuf.suffix name 0 := by
  induction seq with
  | zero => rw [Nat.zero_mul]; rfl
  | succ seq ih =>
    have hattr : (lfnEntry name sum count (seq + 1)).attr = 0x0F := lfnEntry_attr _ _ _ _
    have hfree := not_isFree_lfnEntry name sum count (show 1 ≤ seq + 1 by omega) h
    rw [lfnEntries, List.foldl_cons, lfnStep, if_neg hfree, if_pos hattr,
      suffix_store _ _ h0 hfill (by omega)]
    exact ih (by omega)

/-- Behind the name the buffer is clear. -/
theorem suffix_eq_clear {name : CString} {i : ℕ} (h : name.length ≤ i) :
    LfnBuf.suffix name i = .clear := by
  funext k
  rw [LfnBuf.suffix]
  split
  · exact List.getD_eq_default _ _ (by omega)
  · rfl

/-- The buffer holds the name. -/
theorem str_suffix {name : CString} (h0 : 0 ∉ name) (hlen : name.length ≤ 260) :
    (LfnBuf.suffix name 0).str = name := by
  obtain ⟨n, hn⟩ : ∃ n, 261 = name.length + (n + 1) := ⟨260 - name.length, by omega⟩
  have hmap : (List.range 261).map (fun k => name.getD k 0) =
      name ++ List.replicate (n + 1) 0 := by
    refine List.ext_getElem (by rw [List.length_map, List.length_range]; simp [hn]) ?_
    intro i h1 h2
    rw [List.getElem_map, List.getElem_range, List.getD_eq_getElem?_getD, List.getElem_append]
    split
    · rw [List.getElem?_eq_getElem ‹_›, Option.getD_some]
    · rw [List.getElem?_eq_none (by omega), List.getElem_replicate]
      rfl
  have hstr : (LfnBuf.suffix name 0).str =
      ((List.range 261).map fun k => name.getD k 0).takeWhile (· ≠ 0) := rfl
  rw [hstr, hmap, List.takeWhile_append_of_pos fun x hx => ?_, List.replicate_succ,
    List.takeWhile_cons_of_neg (by simp), List.append_nil]
  exact decide_eq_true fun h => h0 (h ▸ hx)

end PsychWard.Fat32
