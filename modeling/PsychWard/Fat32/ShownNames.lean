import PsychWard.Fat32.ShortNames
import PsychWard.Fat32.Listing

/-!
# Names as they are shown

`format_fat32_name` turns a name into 11 bytes, and the listing turns these bytes into a name again.
The two are not inverse to each other: letter case, long bases and long extensions are lost. But the
bytes of the name shown are those of the entry (`formatFat32Name_reconstructName`), and the search
compares bytes, so a file can be opened by the name under which it is listed.
-/

namespace PsychWard.Fat32

/-- What a name may consist of: printable ASCII characters other than the blank and `/`. -/
def Printable (c : UInt8) : Prop := 33 ≤ c ∧ c ≤ 126 ∧ c ≠ slash

theorem Printable.ne_zero {c : UInt8} (h : Printable c) : c ≠ 0 := by
  rintro rfl
  exact absurd h.1 (by decide)

theorem Printable.ne_blank {c : UInt8} (h : Printable c) : c ≠ blank := by
  rintro rfl
  exact absurd h.1 (by decide)

theorem Printable.ne_deleted {c : UInt8} (h : Printable c) : c ≠ deleted := by
  rintro rfl
  exact absurd h.2.1 (by decide)

/-! ## The two parts of a short name -/

theorem toUpper_toUpper (c : UInt8) : toUpper (toUpper c) = toUpper c := by
  by_cases h : 97 ≤ c ∧ c ≤ 122
  · have h1 := UInt8.le_iff_toNat_le.mp h.1
    have h2 := UInt8.le_iff_toNat_le.mp h.2
    have h3 : (c - 32).toNat = c.toNat - 32 := UInt8.toNat_sub_of_le _ _ (by
      rw [UInt8.le_iff_toNat_le]
      exact le_trans (by decide) h1)
    have hupper : toUpper c = c - 32 := if_pos h
    have hnot : ¬ (97 ≤ c - 32 ∧ c - 32 ≤ 122) := by
      rw [UInt8.le_iff_toNat_le, UInt8.le_iff_toNat_le, h3]
      have e1 : (97 : UInt8).toNat = 97 := rfl
      have e2 : (122 : UInt8).toNat = 122 := rfl
      omega
    rw [hupper]
    exact if_neg hnot
  · have hupper : toUpper c = c := if_neg h
    rw [hupper, hupper]

/-- Base and extension of a name in upper case that is neither `.` nor `..`. -/
structure ShortParts (p x : List UInt8) : Prop where
  base_le : p.length ≤ 8
  ext_le : x.length ≤ 3
  chars : ∀ c ∈ p ++ x, c ≠ 0 ∧ c ≠ blank ∧ toUpper c = c
  dot_notMem : dot ∉ p
  ne_dots : p ≠ [] ∨ x ≠ [] ∧ x ≠ [dot]

/-- The name that two parts make: without an extension there is no dot. -/
def joinParts (p x : List UInt8) : CString := p ++ if x = [] then [] else dot :: x

namespace ShortParts

variable {p x : List UInt8} (h : ShortParts p x)

include h

theorem blank_notMem : blank ∉ p ++ x := fun hmem => (h.chars _ hmem).2.1 rfl

theorem map_toUpper_base : p.map toUpper = p := by
  nth_rewrite 2 [← List.map_id p]
  exact List.map_congr_left fun c hc => (h.chars c (List.mem_append_left _ hc)).2.2

theorem map_toUpper_ext : x.map toUpper = x := by
  nth_rewrite 2 [← List.map_id x]
  exact List.map_congr_left fun c hc => (h.chars c (List.mem_append_right _ hc)).2.2

theorem zero_notMem_join : 0 ∉ joinParts p x := by
  rw [joinParts, List.mem_append, not_or]
  refine ⟨fun hmem => (h.chars 0 (List.mem_append_left _ hmem)).1 rfl, ?_⟩
  split
  · exact List.not_mem_nil
  · rw [List.mem_cons, not_or]
    exact ⟨by decide, fun hmem => (h.chars 0 (List.mem_append_right _ hmem)).1 rfl⟩

theorem join_ne_nil : joinParts p x ≠ [] := by
  intro hnil
  rw [joinParts, List.append_eq_nil_iff] at hnil
  rcases h.ne_dots with hp | ⟨hx, -⟩
  · exact hp hnil.1
  · rw [if_neg hx] at hnil
    cases hnil.2

/-- A name of dots only has no base, and its extension stands behind one more dot. -/
theorem join_ne_dots {n : ℕ} (hn : n < 2) : joinParts p x ≠ List.replicate (n + 1) dot := by
  intro heq
  rw [joinParts, List.replicate_succ] at heq
  have hp : p = [] := by
    cases p with
    | nil => rfl
    | cons c p =>
      have hc := ne_of_mem_of_not_mem List.mem_cons_self h.dot_notMem
      exact absurd (List.cons.inj heq).1 hc
  obtain ⟨hx1, hx2⟩ := h.ne_dots.resolve_left (not_not.mpr hp)
  rw [hp, List.nil_append, if_neg hx1] at heq
  have hx := (List.cons.inj heq).2
  rcases Nat.lt_succ_iff_lt_or_eq.mp hn with hlt | rfl
  · rw [show n = 0 by omega] at hx
    exact hx1 hx
  · exact hx2 hx

omit h in
/-- The bytes in front of the padding. -/
theorem takeWhile_padBlank {l : List UInt8} (hl : blank ∉ l) (n : ℕ) :
    (padBlank n l).takeWhile (· ≠ blank) = l := by
  rw [padBlank, takeWhile_append_blanks hl]

/-- Two padded parts are shown as the name they make. -/
theorem reconstructName_eq : reconstructName (padBlank 8 p ++ padBlank 3 x) = joinParts p x := by
  have hlen : (padBlank 8 p).length = 8 := by
    rw [length_padBlank]
    exact max_eq_left h.base_le
  have hblank := h.blank_notMem
  rw [List.mem_append, not_or] at hblank
  rw [reconstructName, joinParts]
  simp only [List.take_left' hlen, List.drop_left' hlen, takeWhile_padBlank hblank.1,
    takeWhile_padBlank hblank.2]
  cases x with
  | nil => rfl
  | cons c x =>
    have hc : c ≠ blank := ne_of_mem_of_not_mem List.mem_cons_self hblank.2
    have hhead : (padBlank 3 (c :: x)).headD blank = c := rfl
    rw [hhead, if_pos hc, if_neg (List.cons_ne_nil c x)]

/-- And they are the parts that `format_fat32_name` finds in this name. -/
theorem formatFat32Name_join : formatFat32Name (joinParts p x) = padBlank 8 p ++ padBlank 3 x := by
  have hdot : ∀ c ∈ p, decide (c ≠ dot) = true := fun c hc =>
    decide_eq_true (ne_of_mem_of_not_mem hc h.dot_notMem)
  have hp8 : p.take 8 = p := List.take_of_length_le h.base_le
  have hx3 : x.take 3 = x := List.take_of_length_le h.ext_le
  rw [formatFat32Name_eq h.zero_notMem_join (h.join_ne_dots (n := 0) (by decide))
    (h.join_ne_dots (n := 1) (by decide)), joinParts, List.takeWhile_append_of_pos hdot,
    List.dropWhile_append_of_pos hdot]
  by_cases hx : x = []
  · rw [if_pos hx, hx, List.takeWhile_nil, List.append_nil, hp8, h.map_toUpper_base]
    rfl
  · rw [if_neg hx, List.takeWhile_cons_of_neg (by decide), List.append_nil, hp8,
      h.map_toUpper_base, List.dropWhile_cons_of_neg (by decide), List.drop_one, List.tail_cons,
      hx3, h.map_toUpper_ext]

end ShortParts

/-- The parts that `format_fat32_name` makes of a name. -/
theorem exists_shortParts {name : CString} (hne : name ≠ []) (hname : ∀ c ∈ name, Printable c)
    (h1 : name ≠ [dot]) (h2 : name ≠ [dot, dot]) :
    ∃ p x, ShortParts p x ∧ formatFat32Name name = padBlank 8 p ++ padBlank 3 x := by
  have h0 : 0 ∉ name := fun h => (hname 0 h).ne_zero rfl
  refine ⟨_, _, ⟨?_, ?_, ?_, ?_, ?_⟩, formatFat32Name_eq h0 h1 h2⟩
  · rw [List.length_map]
    exact List.length_take_le _ _
  · rw [List.length_map]
    exact List.length_take_le _ _
  · intro c hc
    rw [← List.map_append] at hc
    obtain ⟨b, hb, rfl⟩ := List.mem_map.mp hc
    have hmem : b ∈ name := by
      rcases List.mem_append.mp hb with hb | hb
      · exact (List.takeWhile_sublist _).subset (List.mem_of_mem_take hb)
      · exact (List.dropWhile_sublist _).subset (List.mem_of_mem_drop (List.mem_of_mem_take hb))
    rw [Ne, toUpper_eq_iff (by decide) (by decide), Ne, toUpper_eq_iff (by decide) (by decide)]
    exact ⟨(hname b hmem).ne_zero, (hname b hmem).ne_blank, toUpper_toUpper b⟩
  · intro hmem
    obtain ⟨c, hc, hcx⟩ := List.mem_map.mp hmem
    rw [toUpper_eq_dot.mp hcx] at hc
    have hne := List.mem_takeWhile_imp (List.mem_of_mem_take hc)
    simp at hne
  · cases name with
    | nil => exact absurd rfl hne
    | cons c rest =>
      by_cases hc : c = dot
      · -- without a base there is an extension, and it is not the second dot of `..`
        rw [List.dropWhile_cons_of_neg (by simpa using hc), List.drop_one, List.tail_cons]
        have hdots : ∀ n < 2, (rest.take 3).map toUpper = List.replicate n dot →
            rest = List.replicate n dot := by
          intro n hn heq
          rw [map_toUpper_eq_dots] at heq
          have hlen := congrArg List.length heq
          rw [List.length_take, List.length_replicate] at hlen
          rwa [List.take_of_length_le (by omega)] at heq
        refine .inr ⟨fun h => h1 ?_, fun h => h2 ?_⟩
        · rw [hc, hdots 0 (by decide) h]
          rfl
        · rw [hc, hdots 1 (by decide) h]
          rfl
      · rw [List.takeWhile_cons_of_pos (by simpa using hc), List.take_succ_cons, List.map_cons]
        exact .inl (List.cons_ne_nil _ _)

/-- The 11 bytes of a name are those of the name they are shown as. -/
theorem formatFat32Name_reconstructName {name : CString} (hne : name ≠ [])
    (hname : ∀ c ∈ name, Printable c) : reconstructName (formatFat32Name name) ≠ [] ∧
      formatFat32Name (reconstructName (formatFat32Name name)) = formatFat32Name name := by
  by_cases h1 : name = [dot]
  · subst h1
    decide
  by_cases h2 : name = [dot, dot]
  · subst h2
    decide
  obtain ⟨p, x, h, hformat⟩ := exists_shortParts hne hname h1 h2
  rw [hformat, h.reconstructName_eq]
  exact ⟨h.join_ne_nil, h.formatFat32Name_join⟩

theorem zero_notMem_reconstructName {raw : List UInt8} (h : 0 ∉ raw) : 0 ∉ reconstructName raw := by
  rw [reconstructName, List.mem_append, not_or]
  refine ⟨fun hmem => h (List.mem_of_mem_take ((List.takeWhile_sublist _).subset hmem)), ?_⟩
  split
  · rw [List.mem_cons, not_or]
    exact ⟨by decide, fun hmem =>
      h (List.mem_of_mem_drop ((List.takeWhile_sublist _).subset hmem))⟩
  · exact List.not_mem_nil

/-! ## Opening a file by the name shown -/

/-- The name shown for an entry that has no long name. -/
theorem shownName_clear {e : Entry} (h : 0 ∉ e.name) :
    shownName .clear e = reconstructName e.name := by
  have hclear : LfnBuf.clear 0 = 0 := rfl
  rw [shownName, if_neg (not_not.mpr hclear)]
  refine List.takeWhile_eq_self_iff.mpr fun c hc => ?_
  exact decide_eq_true (ne_of_mem_of_not_mem hc (zero_notMem_reconstructName h))

/-- Without a long name the comparison of the search is one of 11 bytes. -/
theorem entryMatches_clear (e : Entry) (target : CString) : entryMatches .clear e target =
    decide (myStrcmp (cString e.name) (formatFat32Name target) = 0) := by
  have hclear : LfnBuf.clear 0 = 0 := rfl
  rw [entryMatches, if_neg (not_not.mpr hclear)]

/-- What the walks of the driver make of an entry of a file or a directory with the 11 bytes of
`name` and without a long name: `shown` is the name that a listing prints for it. -/
structure Reopened (name : CString) (e : Entry) (shown : CString) : Prop where
  /-- the listing, as long as it has room, prints `shown` -/
  listed : ∀ maxLen text truncated, text.length ≤ maxLen - 300 →
    listingBody maxLen ⟨.clear, text, truncated⟩ e =
      (⟨.clear, text ++ listingLine shown e, truncated⟩, false)
  formatted : formatFat32Name shown = formatFat32Name name
  /-- the search for `shown` takes the entry -/
  found : ∀ fs free c buf, Block.entry buf c.offsetInSector = e →
    dirScanBody fs shown ⟨.clear, free, none⟩ c buf =
      (⟨.clear, free, some ⟨dirCursorSector fs c, c.offsetInSector, e.clus, e.size⟩⟩, true)
  /-- and any other entry without a long name exactly if the search for `name` takes it -/
  alike : ∀ e', entryMatches .clear e' shown = entryMatches .clear e' name
  exact : nameNeedsLfn name = false → shown = name

/-- A file created under a printable name can be opened by the name under which it is listed. -/
theorem reopened_shownName {name : CString} (hne : name ≠ []) (hname : ∀ c ∈ name, Printable c)
    {e : Entry} (he : e.name = formatFat32Name name) (hattr : e.attr ≠ 0x0F)
    (hvol : e.attr &&& 0x08 = 0) : Reopened name e (shownName .clear e) := by
  have h0 : 0 ∉ name := fun h => (hname 0 h).ne_zero rfl
  have hraw := zero_notMem_formatFat32Name h0
  have hfirst : e 0 = (formatFat32Name name).getD 0 0 := congrArg (fun l => l.getD 0 0) he
  have hzero : e 0 ≠ 0 := by
    rw [hfirst]
    exact formatFat32Name_ne_zero h0
  have hlive : e 0 ≠ deleted := by
    rw [hfirst]
    exact formatFat32Name_ne_deleted h0 fun h => (hname deleted h).ne_deleted rfl
  obtain ⟨hsome, hformat⟩ := formatFat32Name_reconstructName hne hname
  have hshown := shownName_clear (e := e) (by rwa [he])
  rw [he] at hshown
  have halike : ∀ e', entryMatches .clear e' (reconstructName (formatFat32Name name)) =
      entryMatches .clear e' name := fun e' => by
    rw [entryMatches_clear, entryMatches_clear, hformat]
  have hclear : LfnBuf.clear 0 = 0 := rfl
  rw [hshown]
  refine ⟨fun maxLen text truncated hroom => ?_, hformat, fun fs free c buf hbuf => ?_, halike,
    fun hneeds => ?_⟩
  · rw [listingBody, if_neg hzero, if_neg hlive, if_neg hattr, if_neg (not_not.mpr hvol)]
    simp only [hshown, if_neg hsome, if_neg (Nat.not_lt.mpr hroom), if_neg (not_not.mpr hclear)]
  · rw [dirScanBody, hbuf]
    simp only
    rw [if_neg (not_or.mpr ⟨hzero, hlive⟩), if_neg hattr, if_neg (not_not.mpr hvol), halike,
      if_pos ((entryMatches_clear_iff he h0 h0).mpr rfl)]
  · rw [nameNeedsLfn, Bool.or_eq_false_iff, decide_eq_false_iff_not, not_not] at hneeds
    exact (myStrcmp_eq_zero (zero_notMem_reconstructName hraw) h0).mp hneeds.2

/-- A name with a long base and several dots. -/
theorem reopened_archive : Reopened (ascii "backup-of-home.tar.gz")
    (shortEntry (formatFat32Name (ascii "backup-of-home.tar.gz")) 0x20 0 0)
    (ascii "BACKUP-O.TAR") := by
  have hname : ∀ c ∈ ascii "backup-of-home.tar.gz", Printable c := by
    unfold Printable
    decide +kernel
  have he : (shortEntry (formatFat32Name (ascii "backup-of-home.tar.gz")) 0x20 0 0).name =
      formatFat32Name (ascii "backup-of-home.tar.gz") :=
    shortEntry_name _ _ _ _ (length_formatFat32Name _)
  exact reopened_shownName (List.cons_ne_nil _ _) hname he (by decide) (by decide)

end PsychWard.Fat32
