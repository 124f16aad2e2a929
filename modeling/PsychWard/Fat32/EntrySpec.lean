import PsychWard.Fat32.Volume
import PsychWard.Fat32.Files
import Mathlib.Tactic.IntervalCases

/-!
# Names and entries

The fields of an entry after the driver stored some of them, and the short name of a file name: where
it starts, and when an entry with it names a file.
-/

namespace PsychWard.Fat32

/-! ## Fields of an entry -/

namespace Entry

variable (e : Entry)

/-- The name field is bytes 0 to 10 of the record. -/
theorem name_eq : e.name =
    [e 0, e 1, e 2, e 3, e 4, e 5, e 6, e 7, e 8, e 9, e 10] := rfl

/-- The two halves of the first cluster read back as the number stored. -/
theorem clus_setClus {c : ℕ} (h : c < 2 ^ 32) : (e.setClus c).clus = c := by
  simp only [clus, setClus, Fin.isValue, reduceIte, Fin.reduceEq, UInt8.toNat_ofNat']
  omega

/-- The first cluster of any record is a 32-bit number. -/
theorem clus_lt : e.clus < 2 ^ 32 := by
  have h1 := (e 20).toNat_lt
  have h2 := (e 21).toNat_lt
  have h3 := (e 26).toNat_lt
  have h4 := (e 27).toNat_lt
  simp only [clus]
  omega

/-- Storing a size leaves the first cluster alone. -/
theorem clus_setSize (n : ℕ) : (e.setSize n).clus = e.clus := rfl

/-- A 32-bit size reads back as stored. -/
theorem size_setSize {n : ℕ} (h : n < 2 ^ 32) : (e.setSize n).size = n := by
  simp only [size, setSize, Fin.isValue, reduceIte, Fin.reduceEq, UInt8.toNat_ofNat']
  omega

/-- The size is the last four bytes; every byte before them stays. -/
theorem setSize_of_lt (n : ℕ) {i : Fin 32} (h : i < 28) : e.setSize n i = e i := by
  rw [setSize, if_neg, if_neg, if_neg, if_neg] <;> omega

/-- The name, the attribute and the time stamps of creation come before the cluster. -/
theorem setClus_of_lt (c : ℕ) {i : Fin 32} (h : i < 20) : e.setClus c i = e i := by
  rw [setClus, if_neg, if_neg, if_neg, if_neg] <;> omega

/-- Renaming a record keeps its chain. -/
theorem clus_setName (n : List UInt8) : (e.setName n).clus = e.clus := rfl

/-- Renaming a record keeps its attribute. -/
theorem attr_setName (n : List UInt8) : (e.setName n).attr = e.attr := rfl

/-- Byte 0 of a renamed record is the first byte of the name. -/
theorem setName_zero (n : List UInt8) : e.setName n 0 = n.getD 0 0 := rfl

/-- An 8.3 name of eleven bytes reads back as stored. -/
theorem name_setName {n : List UInt8} (h : n.length = 11) : (e.setName n).name = n := by
  obtain ⟨a0, a1, a2, a3, a4, a5, a6, a7, a8, a9, a10, rfl⟩ :
      ∃ a0 a1 a2 a3 a4 a5 a6 a7 a8 a9 a10, n = [a0, a1, a2, a3, a4, a5, a6, a7, a8, a9, a10] := by
    match n, h with
    | [a0, a1, a2, a3, a4, a5, a6, a7, a8, a9, a10], _ => exact ⟨_, _, _, _, _, _, _, _, _, _, _, rfl⟩
  rfl

/-- Storing cluster and size keeps the name and the attribute. -/
theorem setClus_setSize_of_lt (c n : ℕ) {i : Fin 32} (h : i < 20) :
    (e.setClus c).setSize n i = e i := by
  rw [setSize_of_lt _ _ (by omega), setClus_of_lt _ _ h]

/-- The update of a written file keeps the name. -/
theorem name_setClus_setSize (c n : ℕ) : ((e.setClus c).setSize n).name = e.name := by
  simp only [name_eq]
  iterate 11 rw [setClus_setSize_of_lt e c n (by decide)]

/-- The update of a written file keeps the attribute. -/
theorem attr_setClus_setSize (c n : ℕ) : ((e.setClus c).setSize n).attr = e.attr :=
  setClus_setSize_of_lt e c n (by decide)

/-- Whether a record has a name rests on byte 0 and the attribute alone. -/
theorem isNamed_congr {e e' : Entry} (h0 : e' 0 = e 0) (hattr : e'.attr = e.attr) :
    e'.IsNamed ↔ e.IsNamed := by
  rw [IsNamed, IsNamed, IsFree, IsFree, h0, hattr]

/-- `.` and `..` are told from other records by the name. -/
theorem isDot_congr {e e' : Entry} (h : e'.name = e.name) : e'.IsDot ↔ e.IsDot := by
  rw [IsDot, IsDot, h]

/-- Directories are told from files by the attribute. -/
theorem isDir_congr {e e' : Entry} (h : e'.attr = e.attr) : e'.isDir = e.isDir := by
  rw [isDir, isDir, h]

end Entry

section ShortEntry

variable (name : List UInt8) (attr : UInt8) (c n : ℕ)

/-- Byte 0 of a new record is the first byte of its name. -/
theorem shortEntry_zero : shortEntry name attr c n 0 = name.getD 0 0 := rfl

/-- A new record has the attribute it was made with. -/
theorem shortEntry_attr : (shortEntry name attr c n).attr = attr := rfl

/-- A new record has the first cluster it was made with. -/
theorem shortEntry_clus (h : c < 2 ^ 32) : (shortEntry name attr c n).clus = c := by
  rw [shortEntry, Entry.clus_setSize, Entry.clus_setClus _ h]

/-- A new record has the size it was made with. -/
theorem shortEntry_size (h : n < 2 ^ 32) : (shortEntry name attr c n).size = n :=
  Entry.size_setSize _ h

/-- A new record has the name it was made with. -/
theorem shortEntry_name (h : name.length = 11) : (shortEntry name attr c n).name = name := by
  rw [shortEntry, Entry.name_setClus_setSize]
  exact Entry.name_setName Entry.zero h

end ShortEntry

/-! ## Short names -/

/-- Padding makes a short list `n` bytes long and cuts nothing. -/
theorem length_padBlank (n : ℕ) (l : List UInt8) : (padBlank n l).length = max n l.length := by
  rw [padBlank, List.length_append, List.length_replicate]
  omega

/-- What stands in front of the padding. -/
theorem takeWhile_append_blanks {l : List UInt8} (h : blank ∉ l) (n : ℕ) :
    (l ++ List.replicate n blank).takeWhile (· ≠ blank) = l := by
  have hne : ∀ c ∈ l, decide (c ≠ blank) = true := fun c hc =>
    decide_eq_true (ne_of_mem_of_not_mem hc h)
  rw [List.takeWhile_append_of_pos hne, List.takeWhile_replicate_eq_filter,
    List.filter_replicate_of_neg (by decide), List.append_nil]

/-- The byte of a decimal digit. -/
theorem toNat_digit {n : ℕ} {c : Char} (h : c ∈ Nat.toDigits 10 n) :
    (UInt8.ofNat c.toNat).toNat = c.toNat ∧ 48 ≤ c.toNat ∧ c.toNat ≤ 57 := by
  have hdigit := Nat.isDigit_of_mem_toDigits (by decide) (by decide) h
  rw [Char.isDigit, Bool.and_eq_true, decide_eq_true_eq, decide_eq_true_eq] at hdigit
  have h1 : 48 ≤ c.toNat := hdigit.1
  have h2 : c.toNat ≤ 57 := hdigit.2
  refine ⟨?_, h1, h2⟩
  rw [UInt8.toNat_ofNat']
  omega

/-- The digits of an alias number are the ASCII digits. -/
theorem mem_digits {n : ℕ} {x : UInt8} (h : x ∈ digits n) : 48 ≤ x ∧ x ≤ 57 := by
  obtain ⟨c, hc, rfl⟩ := List.mem_map.mp h
  rw [UInt8.le_iff_toNat_le, UInt8.le_iff_toNat_le, (toNat_digit hc).1]
  exact (toNat_digit hc).2

/-- `my_strcmp` returns 0 on equal texts only, where neither has a NUL inside. -/
theorem myStrcmp_eq_zero {a b : CString} (ha : 0 ∉ a) (hb : 0 ∉ b) : myStrcmp a b = 0 ↔ a = b := by
  induction a generalizing b with
  | nil =>
    cases b with
    | nil => simp [myStrcmp]
    | cons x b =>
      have hx : x ≠ 0 := fun h => hb (by simp [h])
      have : x.toNat ≠ 0 := fun h => hx (UInt8.toNat_inj.mp h)
      simp only [myStrcmp, List.headD_nil, List.headD_cons, reduceCtorEq, iff_false]
      simp only [UInt8.toNat_zero]
      omega
  | cons y a ih =>
    have hy : y ≠ 0 := fun h => ha (by simp [h])
    have hyn : y.toNat ≠ 0 := fun h => hy (UInt8.toNat_inj.mp h)
    cases b with
    | nil =>
      simp only [myStrcmp, List.headD_nil, List.headD_cons, reduceCtorEq, iff_false]
      simp only [UInt8.toNat_zero]
      omega
    | cons x b =>
      rw [myStrcmp]
      by_cases h : y = x
      · rw [if_pos h, ih (fun hh => ha (by simp [hh])) fun hh => hb (by simp [hh]), h]
        simp
      · have : y.toNat ≠ x.toNat := fun hh => h (UInt8.toNat_inj.mp hh)
        rw [if_neg h]
        simp only [List.cons.injEq, h, false_and, iff_false]
        omega

/-- `format_fat32_name` always writes eleven bytes. -/
theorem length_formatFat32Name (name : CString) : (formatFat32Name name).length = 11 := by
  unfold formatFat32Name
  split
  · rw [length_padBlank]; rfl
  · split
    · rw [length_padBlank]; rfl
    · simp only [List.length_append, length_padBlank, List.length_map, List.length_take]
      omega

/-- The names whose short entry names a file: neither `.` nor `..`, and not starting with the mark of
deleted entries. -/
def NameOk (name : CString) : Prop :=
  name ≠ [dot] ∧ name ≠ [dot, dot] ∧ name.head? ≠ some deleted

/-- A byte that is no letter is the upper case of itself alone. -/
theorem toUpper_eq_iff {c x : UInt8} (hx : ¬ (65 ≤ x ∧ x ≤ 90)) (hx' : ¬ (97 ≤ x ∧ x ≤ 122)) :
    toUpper c = x ↔ c = x := by
  unfold toUpper
  split
  case isTrue h =>
    constructor
    · rintro rfl
      refine absurd ?_ hx
      have h1 := UInt8.le_iff_toNat_le.mp h.1
      have h2 := UInt8.le_iff_toNat_le.mp h.2
      have h3 : (c - 32).toNat = c.toNat - 32 := UInt8.toNat_sub_of_le _ _ (by
        rw [UInt8.le_iff_toNat_le]
        exact le_trans (by decide) h1)
      rw [UInt8.le_iff_toNat_le, UInt8.le_iff_toNat_le, h3]
      have e1 : (97 : UInt8).toNat = 97 := rfl
      have e2 : (122 : UInt8).toNat = 122 := rfl
      have e3 : (65 : UInt8).toNat = 65 := rfl
      have e4 : (90 : UInt8).toNat = 90 := rfl
      omega
    · rintro rfl
      exact absurd h hx'
  case isFalse => exact Iff.rfl

/-- The first byte of a padded base is the first byte of the base, or a blank. -/
theorem getD_padBlank_append (l m : List UInt8) :
    (padBlank 8 l ++ m).getD 0 0 = l.headD blank := by
  cases l <;> rfl

/-- The short name of anything but `.` and `..` has two parts. -/
theorem formatFat32Name_eq {name : CString} (h0 : 0 ∉ name) (h1 : name ≠ [dot])
    (h2 : name ≠ [dot, dot]) : formatFat32Name name =
      padBlank 8 (((name.takeWhile (· ≠ dot)).take 8).map toUpper) ++
        padBlank 3 ((((name.dropWhile (· ≠ dot)).drop 1).take 3).map toUpper) := by
  have hd : (0 : UInt8) ∉ [dot] := by decide
  have hdd : (0 : UInt8) ∉ [dot, dot] := by decide
  rw [formatFat32Name, if_neg fun h => h1 ((myStrcmp_eq_zero h0 hd).mp h),
    if_neg fun h => h2 ((myStrcmp_eq_zero h0 hdd).mp h)]

/-- The first byte of the short name of anything but `.` and `..`. -/
theorem formatFat32Name_getD {name : CString} (h0 : 0 ∉ name) (h1 : name ≠ [dot])
    (h2 : name ≠ [dot, dot]) : (formatFat32Name name).getD 0 0 =
      ((name.takeWhile (· ≠ dot)).map toUpper).headD blank := by
  rw [formatFat32Name_eq h0 h1 h2, getD_padBlank_append]
  cases name.takeWhile (· ≠ dot) with
  | nil => rfl
  | cons x l => rfl

/-- The short name never starts with the end mark. -/
theorem formatFat32Name_ne_zero {name : CString} (h0 : 0 ∉ name) :
    (formatFat32Name name).getD 0 0 ≠ 0 := by
  by_cases h1 : name = [dot]
  · subst h1
    decide
  by_cases h2 : name = [dot, dot]
  · subst h2
    decide
  rw [formatFat32Name_getD h0 h1 h2]
  cases h : name.takeWhile (· ≠ dot) with
  | nil => decide
  | cons x l =>
    have hx : x ∈ name := (List.takeWhile_sublist _).subset (by rw [h]; simp)
    intro hz
    refine h0 ?_
    rwa [← (toUpper_eq_iff (by decide) (by decide)).mp hz]

/-- The short name of a name without the mark of deleted entries does not start with it. -/
theorem formatFat32Name_ne_deleted {name : CString} (h0 : 0 ∉ name) (hd : deleted ∉ name) :
    (formatFat32Name name).getD 0 0 ≠ deleted := by
  by_cases h1 : name = [dot]
  · subst h1
    decide
  by_cases h2 : name = [dot, dot]
  · subst h2
    decide
  rw [formatFat32Name_getD h0 h1 h2]
  cases h : name.takeWhile (· ≠ dot) with
  | nil => decide
  | cons x l =>
    have hx : x ∈ name := (List.takeWhile_sublist _).subset (by rw [h]; simp)
    intro hz
    refine hd ?_
    rwa [← (toUpper_eq_iff (by decide) (by decide)).mp hz]

/-- Padding adds blanks and nothing else. -/
theorem mem_padBlank {n : ℕ} {l : List UInt8} {x : UInt8} (h : x ∈ padBlank n l) :
    x ∈ l ∨ x = blank :=
  (List.mem_append.mp h).imp_right List.eq_of_mem_replicate

/-- The short name has no zero byte. -/
theorem zero_notMem_formatFat32Name {name : CString} (h0 : 0 ∉ name) :
    0 ∉ formatFat32Name name := by
  have hupper : ∀ l : List UInt8, l ⊆ name → 0 ∉ l.map toUpper := by
    intro l hl hz
    obtain ⟨c, hc, hc0⟩ := List.mem_map.mp hz
    rw [(toUpper_eq_iff (by decide) (by decide)).mp hc0] at hc
    exact h0 (hl hc)
  rw [formatFat32Name]
  split
  · decide
  · split
    · decide
    · intro hz
      rcases List.mem_append.mp hz with hz | hz
      · refine (mem_padBlank hz).elim (hupper _ fun x hx => ?_) (by decide)
        exact (List.takeWhile_sublist _).subset (List.mem_of_mem_take hx)
      · refine (mem_padBlank hz).elim (hupper _ fun x hx => ?_) (by decide)
        exact (List.dropWhile_sublist _).subset
          (List.mem_of_mem_drop (List.mem_of_mem_take hx))

/-- `my_strcmp` finds a text equal to itself, with NULs in it too. -/
theorem myStrcmp_self (a : CString) : myStrcmp a a = 0 := by
  induction a with
  | nil => rfl
  | cons x a ih => rw [myStrcmp, if_pos rfl, ih]

/-- With a permitted name the short entry is no deleted one and none of `.` and `..`. -/
theorem formatFat32Name_of_nameOk {name : CString} (h0 : 0 ∉ name) (h : NameOk name) :
    (formatFat32Name name).getD 0 0 ≠ deleted ∧ (formatFat32Name name).getD 0 0 ≠ dot := by
  obtain ⟨h1, h2, h3⟩ := h
  rw [formatFat32Name_getD h0 h1 h2]
  cases name with
  | nil => decide
  | cons x l =>
    by_cases hx : x = dot
    · subst hx
      rw [List.takeWhile_cons, if_neg (by decide)]
      decide
    · have htw : (x :: l).takeWhile (· ≠ dot) = x :: l.takeWhile (· ≠ dot) := by
        rw [List.takeWhile_cons, if_pos (by simpa using hx)]
      rw [htw, List.map_cons, List.headD_cons]
      refine ⟨fun hd => h3 ?_, fun hd => hx ((toUpper_eq_iff (by decide) (by decide)).mp hd)⟩
      rw [(toUpper_eq_iff (by decide) (by decide)).mp hd]
      rfl

/-- A record that does not start with a dot is neither `.` nor `..`. -/
theorem not_isDot_of_zero {e : Entry} (h : e 0 ≠ dot) : ¬ e.IsDot := by
  rintro (hd | hd)
  · exact h (congrArg (fun l => l.headD 0) hd)
  · exact h (congrArg (fun l => l.headD 0) hd)

/-- The short entry of a permitted name names a file or directory. -/
theorem shortEntry_isNamed (attr : UInt8) {name : CString} (h0 : 0 ∉ name) (h : NameOk name)
    (hattr : attr ≠ 0x0F) (hvol : attr &&& 0x08 = 0) (c n : ℕ) :
    (shortEntry (formatFat32Name name) attr c n).IsNamed ∧
      ¬ (shortEntry (formatFat32Name name) attr c n).IsDot := by
  obtain ⟨h1, h2⟩ := formatFat32Name_of_nameOk h0 h
  refine ⟨⟨?_, hattr, hvol⟩, not_isDot_of_zero h2⟩
  rintro (hz | hd)
  · exact formatFat32Name_ne_zero h0 hz
  · exact h1 hd

/-- An entry without clusters stands for no chain. -/
theorem Entry.not_refers_of_clus {e : Entry} (h : e.clus < 2) (c : ℕ) (b : Bool) :
    ¬ e.Refers c b := by
  rintro ⟨-, -, hc, h2, -⟩
  omega

/-- A free record holds no chain. -/
theorem Entry.not_refers_of_free {e : Entry} (h : e.IsFree) (c : ℕ) (b : Bool) : ¬ e.Refers c b :=
  fun hr => hr.1.1 h

/-- An LFN record holds no chain. -/
theorem Entry.not_refers_of_lfn {e : Entry} (h : e.attr = 0x0F) (c : ℕ) (b : Bool) :
    ¬ e.Refers c b := fun hr => hr.1.2.1 h

/-! ## Long-name entries -/

/-- Every LFN record has the attribute `0x0F`. -/
theorem lfnEntry_attr (name : CString) (sum : UInt8) (count seq : ℕ) :
    (lfnEntry name sum count seq).attr = 0x0F := rfl

/-- An LFN record does not look like the end of the directory. -/
theorem lfnEntry_zero {name : CString} {sum : UInt8} {count seq : ℕ} (h1 : 1 ≤ seq) (h2 : seq < 64) :
    lfnEntry name sum count seq 0 ≠ 0 := by
  have heq : lfnEntry name sum count seq 0 =
      UInt8.ofNat (if seq = count then seq ||| 0x40 else seq) := rfl
  rw [heq]
  split
  · interval_cases seq <;> decide
  · interval_cases seq <;> decide

/-! ## Aliases -/

/-- The base of an alias is of upper-case letters, digits and `_`. -/
theorem mem_aliasPrimary {name : CString} {x : UInt8} (h : x ∈ aliasPrimary name) :
    x = 95 ∨ (65 ≤ x ∧ x ≤ 90) ∨ 48 ≤ x ∧ x ≤ 57 := by
  unfold aliasPrimary at h
  simp only at h
  split at h
  · exact .inl (List.mem_singleton.mp h)
  · have h := (List.mem_filter.mp (List.mem_of_mem_take h)).2
    simpa using Or.inr h

/-- An alias never starts with its `~`. -/
theorem aliasPrimary_ne_nil (name : CString) : aliasPrimary name ≠ [] := by
  intro h
  rw [aliasPrimary] at h
  split at h
  case isTrue => exact nomatch h
  case isFalse hne => exact hne h

/-- The alias starts with a letter, a digit or `_`. -/
theorem aliasCandidate_getD {name : CString} {suffix : ℕ} {cand : List UInt8}
    (h : aliasCandidate name suffix = some cand) :
    cand.getD 0 0 ≠ 0 ∧ cand.getD 0 0 ≠ deleted ∧ cand.getD 0 0 ≠ dot := by
  rw [aliasCandidate] at h
  generalize (if 8 < (aliasPrimary name).length + (1 + (digits suffix).length) then
    8 - (1 + (digits suffix).length) else (aliasPrimary name).length) = baseLen at h
  by_cases hb : baseLen < 1
  · rw [if_pos hb] at h
    exact nomatch h
  · rw [if_neg hb] at h
    obtain ⟨x, l, hxl⟩ : ∃ x l, aliasPrimary name = x :: l := by
      cases hp : aliasPrimary name with
      | nil => exact absurd hp (aliasPrimary_ne_nil name)
      | cons x l => exact ⟨x, l, rfl⟩
    obtain ⟨n, rfl⟩ : ∃ n, baseLen = n + 1 := ⟨baseLen - 1, by omega⟩
    have hx := (mem_aliasPrimary : x ∈ aliasPrimary name → _) (by rw [hxl]; simp)
    rw [← Option.some.inj h, getD_padBlank_append, hxl, List.take_succ_cons, List.cons_append,
      List.headD_cons]
    refine ⟨?_, ?_, ?_⟩ <;> rintro rfl <;> revert hx <;> decide

end PsychWard.Fat32
