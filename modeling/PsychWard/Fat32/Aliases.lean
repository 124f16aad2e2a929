import PsychWard.Fat32.EntrySpec
import PsychWard.Fat32.ListingText

/-!
# Short aliases

`generate_short_alias` tries the names `BASE~1.EXT`, `BASE~2.EXT`, ... until the directory does not
have one. A number of more digits leaves room for a shorter base, so that candidates of different
length can agree up to the `~`; the number behind it tells them apart (`aliasCandidate_injective`).
So every entry of the directory stands in the way of at most one number, and the search succeeds
unless there are as many entries as numbers.
-/

namespace PsychWard.Fat32

/-! ## The entries that are compared -/

/-- The live entries in front of the end mark, the parts of long names excepted. -/
def liveEntries (es : List Entry) : List Entry :=
  (es.takeWhile fun e => decide (e 0 ≠ 0)).filter fun e => decide (e 0 ≠ deleted ∧ e.attr ≠ 0x0F)

theorem liveEntries_end {e : Entry} (h : e 0 = 0) (es : List Entry) : liveEntries (e :: es) = [] := by
  rw [liveEntries, List.takeWhile_cons_of_neg (by simpa using h), List.filter_nil]

theorem liveEntries_skip {e : Entry} (h0 : e 0 ≠ 0) (h : e 0 = deleted ∨ e.attr = 0x0F)
    (es : List Entry) : liveEntries (e :: es) = liveEntries es := by
  have hskip : ¬ (e 0 ≠ deleted ∧ e.attr ≠ 0x0F) := by
    rw [not_and_or, not_not, not_not]
    exact h
  rw [liveEntries, List.takeWhile_cons_of_pos (by simpa using h0),
    List.filter_cons_of_neg (by simpa using hskip)]
  rfl

theorem liveEntries_live {e : Entry} (h0 : e 0 ≠ 0) (h : ¬ (e 0 = deleted ∨ e.attr = 0x0F))
    (es : List Entry) : liveEntries (e :: es) = e :: liveEntries es := by
  rw [liveEntries, List.takeWhile_cons_of_pos (by simpa using h0),
    List.filter_cons_of_pos (by simpa using not_or.mp h)]
  rfl

/-- The live entries of a directory. -/
def Volume.live (v : Volume) (l : List ℕ) : List Entry := liveEntries ((v.slots l).map v.entry)

/-- The loop of `dir_has_raw_83` over some slots. -/
theorem Volume.scan_hasRaw83 (v : Volume) (raw : List UInt8) (S : List DirCursor) :
    (scan (fun st p => hasRaw83Body raw st p (v.block p)) S false).1 = true ↔
      raw ∈ (liveEntries (S.map v.entry)).map Entry.name := by
  induction S with
  | nil => exact iff_of_false Bool.false_ne_true List.not_mem_nil
  | cons p S ih =>
    rw [List.map_cons]
    by_cases h0 : v.entry p 0 = 0
    · have hbody : hasRaw83Body raw false p (v.block p) = (false, true) := by
        rw [hasRaw83Body, ← Volume.entry_eq, if_pos h0]
      rw [scan_cons_stop hbody, liveEntries_end h0]
      exact iff_of_false Bool.false_ne_true List.not_mem_nil
    · by_cases hskip : v.entry p 0 = deleted ∨ (v.entry p).attr = 0x0F
      · have hbody : hasRaw83Body raw false p (v.block p) = (false, false) := by
          rw [hasRaw83Body, ← Volume.entry_eq, if_neg h0, if_pos hskip]
        rw [scan_cons_go hbody, liveEntries_skip h0 hskip]
        exact ih
      · rw [liveEntries_live h0 hskip, List.map_cons, List.mem_cons]
        by_cases hname : (v.entry p).name = raw
        · have hbody : hasRaw83Body raw false p (v.block p) = (true, true) := by
            rw [hasRaw83Body, ← Volume.entry_eq, if_neg h0, if_neg hskip, if_pos hname]
          rw [scan_cons_stop hbody]
          exact iff_of_true rfl (.inl hname.symm)
        · have hbody : hasRaw83Body raw false p (v.block p) = (false, false) := by
            rw [hasRaw83Body, ← Volume.entry_eq, if_neg h0, if_neg hskip, if_neg hname]
          rw [scan_cons_go hbody, ih]
          exact ⟨.inr, fun h => h.resolve_left fun heq => hname heq.symm⟩

theorem Volume.mem_live {v : Volume} {l : List ℕ} {e : Entry} : e ∈ v.live l ↔
    ∃ s ∈ v.beforeEnd l, (v.entry s 0 ≠ deleted ∧ (v.entry s).attr ≠ 0x0F) ∧ v.entry s = e := by
  rw [live, liveEntries, List.takeWhile_map, List.mem_filter, List.mem_map, decide_eq_true_eq]
  constructor
  · rintro ⟨⟨s, hs, rfl⟩, h⟩
    exact ⟨s, hs, h, rfl⟩
  · rintro ⟨s, hs, h, rfl⟩
    exact ⟨⟨s, hs, rfl⟩, h⟩

/-- A directory has a short name if a live entry in its first 4096 clusters has it. -/
theorem dirHasRaw83_iff {fs : Fat32Instance} {d : Disk} {p c : ℕ} {l : List ℕ}
    (hread : ∀ s, fs.readBlocks d s = some (d.sectors s))
    (hp : (if p < 2 then fs.rootCluster else p) = c) (h2 : 2 ≤ c) (hw : Walk (fatNext fs d) c l)
    (raw : List UInt8) : dirHasRaw83 fs d p raw = true ↔
      raw ∈ ((diskVolume fs d).live (l.take walkLimit)).map Entry.name := by
  obtain ⟨last, hscan, -⟩ := scanChain_of_walk hread (hasRaw83Body raw) h2 hw 4096 c false
  rw [dirHasRaw83, dirStart_of_walk hp h2 hw]
  simp only [hscan]
  exact Volume.scan_hasRaw83 _ raw _

/-- The live entries of a directory of used clusters, as the code finds them. -/
theorem Geometry.live_diskVolume {fs : Fat32Instance} (g : Geometry fs) {d : Disk} {l : List ℕ}
    (h : ∀ x ∈ l, (volume fs d).Used x) : (diskVolume fs d).live l = (volume fs d).live l := by
  have hsame : (diskVolume fs d).sectorsPerCluster = (volume fs d).sectorsPerCluster := rfl
  rw [Volume.live, Volume.live, Volume.slots_congr hsame]
  refine congrArg liveEntries (List.map_congr_left fun s hs => ?_)
  obtain ⟨hsl, hspc, -⟩ := Volume.mem_slots.mp hs
  rw [Volume.entry, Volume.entry, g.diskVolume_data (h _ hsl).1 hspc]

/-! ## Decimal numbers -/

/-- The digits can be read back. -/
theorem digits_injective : Function.Injective digits := by
  have hback : ∀ n, (digits n).map (fun x => Char.ofNat x.toNat) = Nat.toDigits 10 n := by
    intro n
    rw [digits, List.map_map]
    nth_rewrite 2 [← List.map_id (Nat.toDigits 10 n)]
    refine List.map_congr_left fun c hc => ?_
    show Char.ofNat (UInt8.ofNat c.toNat).toNat = c
    rw [(toNat_digit hc).1, Char.ofNat_toNat]
  intro a b hab
  have hchars : Nat.toDigits 10 a = Nat.toDigits 10 b := by rw [← hback a, hab, hback b]
  have hvalue := congrArg (fun cs => Nat.ofDigitChars 10 cs 0) hchars
  simpa using hvalue

/-- No leading zero. -/
theorem head?_digits {n : ℕ} (h : 1 ≤ n) : (digits n).head? ≠ some 48 := by
  induction n using Nat.strong_induction_on with
  | _ n ih =>
    rw [digits, Nat.toDigits_eq_if (by decide)]
    split
    · rename_i hlt
      interval_cases n <;> decide
    · rename_i hge
      have hq := ih (n / 10) (by omega) (by omega)
      rw [digits] at hq
      rw [List.map_append, List.head?_append_of_ne_nil _ ?_]
      · exact hq
      · exact fun hnil => Nat.toDigits_ne_nil (List.map_eq_nil_iff.mp hnil)

theorem length_digits {n : ℕ} (h : n ≤ 999999) : 1 ≤ (digits n).length ∧ (digits n).length ≤ 6 := by
  rw [digits, List.length_map, Nat.length_toDigits_le_iff (by decide) (by decide)]
  exact ⟨Nat.length_toDigits_pos, by omega⟩

/-! ## Candidates -/

/-- The parts of a name of the form `BASE~NUMBER.EXT`. -/
structure AliasParts (base num ext : List UInt8) : Prop where
  base_pos : 1 ≤ base.length
  base_le : base.length ≤ 6
  base_chars : ∀ x ∈ base, x = 95 ∨ (65 ≤ x ∧ x ≤ 90) ∨ 48 ≤ x ∧ x ≤ 57
  num_ne_nil : num ≠ []
  num_digits : ∀ x ∈ num, 48 ≤ x ∧ x ≤ 57
  no_leading_zero : num.head? ≠ some 48
  fits : (base ++ tilde :: num).length ≤ 8
  ext_le : ext.length ≤ 3
  ext_chars : ∀ x ∈ ext, (65 ≤ x ∧ x ≤ 90) ∨ 48 ≤ x ∧ x ≤ 57

/-- The 11 bytes of such a name. -/
def aliasBytes (base num ext : List UInt8) : List UInt8 :=
  padBlank 8 (base ++ tilde :: num) ++ padBlank 3 ext

theorem mem_aliasChars {s : CString} {x : UInt8} (h : x ∈ aliasChars s) :
    (65 ≤ x ∧ x ≤ 90) ∨ 48 ≤ x ∧ x ≤ 57 := by
  have hx := (List.mem_filter.mp h).2
  simpa using hx

theorem aliasExt_spec (name : CString) : (aliasExt name).length ≤ 3 ∧
    ∀ x ∈ aliasExt name, (65 ≤ x ∧ x ≤ 90) ∨ 48 ≤ x ∧ x ≤ 57 := by
  rw [aliasExt]
  split
  · exact ⟨List.length_take_le _ _, fun x hx => mem_aliasChars (List.mem_of_mem_take hx)⟩
  · exact ⟨Nat.zero_le 3, fun x hx => absurd hx List.not_mem_nil⟩

/-- The candidate for every number of up to six digits: the base is cut to what the number leaves of
the 8 bytes, which is one byte at least. -/
theorem aliasCandidate_eq (name : CString) {k : ℕ} (h1 : 1 ≤ k) (hk : k ≤ 999999) :
    ∃ base, AliasParts base (digits k) (aliasExt name) ∧
      aliasCandidate name k = some (aliasBytes base (digits k) (aliasExt name)) := by
  obtain ⟨hd1, hd6⟩ := length_digits hk
  have hp : 1 ≤ (aliasPrimary name).length := List.length_pos_iff.mpr (aliasPrimary_ne_nil name)
  obtain ⟨hx3, hxchars⟩ := aliasExt_spec name
  set baseLen := if 8 < (aliasPrimary name).length + (1 + (digits k).length) then
    8 - (1 + (digits k).length) else (aliasPrimary name).length with hbase
  have hlen : 1 ≤ baseLen ∧ baseLen ≤ (aliasPrimary name).length ∧
      baseLen + (1 + (digits k).length) ≤ 8 := by
    rw [hbase]
    split <;> omega
  have htake : ((aliasPrimary name).take baseLen).length = baseLen := by
    rw [List.length_take]
    omega
  refine ⟨(aliasPrimary name).take baseLen, ⟨?_, ?_, fun x hx => ?_, ?_, fun x hx => mem_digits hx,
    head?_digits h1, ?_, hx3, hxchars⟩, ?_⟩
  · rw [htake]
    exact hlen.1
  · rw [htake]
    omega
  · exact mem_aliasPrimary (List.mem_of_mem_take hx)
  · exact List.length_pos_iff.mp hd1
  · rw [List.length_append, List.length_cons, htake]
    omega
  · have hpos : ¬ baseLen < 1 := by omega
    rw [aliasCandidate]
    simp only [← hbase]
    rw [if_neg hpos, aliasBytes]

namespace AliasParts

variable {base base' num num' ext ext' : List UInt8}

theorem length_aliasBytes (h : AliasParts base num ext) : (aliasBytes base num ext).length = 11 := by
  have hfits := h.fits
  have hext := h.ext_le
  rw [aliasBytes, List.length_append, length_padBlank, length_padBlank]
  omega

/-- The number is what stands between the `~` and the padding. -/
theorem num_eq (h : AliasParts base num ext) :
    ((((aliasBytes base num ext).take 8).dropWhile (· ≠ tilde)).drop 1).takeWhile (· ≠ blank) =
      num := by
  have hlen : (padBlank 8 (base ++ tilde :: num)).length = 8 := by
    rw [length_padBlank]
    exact max_eq_left h.fits
  have hbase : ∀ x ∈ base, decide (x ≠ tilde) = true := by
    rintro x hx
    refine decide_eq_true ?_
    rintro rfl
    have hchars := h.base_chars _ hx
    revert hchars
    decide
  have hnum : blank ∉ num := fun hx => by
    have hdigits := h.num_digits _ hx
    revert hdigits
    decide
  rw [aliasBytes, List.take_left' hlen, padBlank, List.append_assoc,
    List.dropWhile_append_of_pos hbase, List.cons_append,
    List.dropWhile_cons_of_neg (by decide), List.drop_one, List.tail_cons,
    takeWhile_append_blanks hnum]

theorem num_inj (h : AliasParts base num ext) (h' : AliasParts base' num' ext')
    (heq : aliasBytes base num ext = aliasBytes base' num' ext') : num = num' := by
  rw [← h.num_eq, heq, h'.num_eq]

end AliasParts

/-- The candidates for different numbers are different. -/
theorem aliasCandidate_injective (name : CString) {j k : ℕ} (hj1 : 1 ≤ j) (hj : j ≤ 999999)
    (hk1 : 1 ≤ k) (hk : k ≤ 999999) (h : aliasCandidate name j = aliasCandidate name k) : j = k := by
  obtain ⟨base, hparts, heq⟩ := aliasCandidate_eq name hj1 hj
  obtain ⟨base', hparts', heq'⟩ := aliasCandidate_eq name hk1 hk
  rw [heq, heq'] at h
  exact digits_injective (hparts.num_inj hparts' (Option.some.inj h))

/-! ## The search -/

section
variable {fs : Fat32Instance} {d : Disk} {p : ℕ} {name : CString}

/-- What the search returns is the candidate for a number it has tried. -/
theorem generateShortAliasFrom_some {n suffix : ℕ} {raw : List UInt8}
    (h : generateShortAliasFrom fs d p name n suffix = some raw) :
    ∃ k, suffix ≤ k ∧ k < suffix + n ∧ aliasCandidate name k = some raw ∧
      dirHasRaw83 fs d p raw = false := by
  induction n generalizing suffix with
  | zero => cases h
  | succ n ih =>
    rw [generateShortAliasFrom] at h
    cases hc : aliasCandidate name suffix with
    | none =>
      rw [hc] at h
      cases h
    | some candidate =>
      simp only [hc] at h
      by_cases htaken : dirHasRaw83 fs d p candidate = true
      · rw [if_pos htaken] at h
        obtain ⟨k, h1, h2, h3⟩ := ih h
        exact ⟨k, by omega, by omega, h3⟩
      · rw [if_neg htaken] at h
        obtain rfl := Option.some.inj h
        exact ⟨suffix, le_rfl, by omega, hc, by simpa using htaken⟩

/-- When the search gives up, the directory has the candidates for all its numbers. -/
theorem generateShortAliasFrom_none {n suffix : ℕ}
    (hcand : ∀ k, suffix ≤ k → k < suffix + n → (aliasCandidate name k).isSome = true)
    (h : generateShortAliasFrom fs d p name n suffix = none) :
    ∀ k, suffix ≤ k → k < suffix + n →
      ∃ raw, aliasCandidate name k = some raw ∧ dirHasRaw83 fs d p raw = true := by
  induction n generalizing suffix with
  | zero => exact fun k h1 h2 => absurd h1 (by omega)
  | succ n ih =>
    obtain ⟨candidate, hc⟩ := Option.isSome_iff_exists.mp (hcand suffix le_rfl (by omega))
    rw [generateShortAliasFrom, hc] at h
    simp only at h
    by_cases htaken : dirHasRaw83 fs d p candidate = true
    · rw [if_pos htaken] at h
      intro k h1 h2
      rcases Nat.eq_or_lt_of_le h1 with rfl | hlt
      · exact ⟨candidate, hc, htaken⟩
      · exact ih (fun k h1 h2 => hcand k (by omega) (by omega)) h k (by omega) (by omega)
    · rw [if_neg htaken] at h
      cases h

end

/-- `n` different values from a list need `n` places in it. -/
theorem le_length_of_injective {α : Type*} {names : List α} {n : ℕ} (f : ℕ → α)
    (hinj : ∀ j k, j < n → k < n → f j = f k → j = k) (hmem : ∀ k < n, f k ∈ names) :
    n ≤ names.length := by
  have hnodup : ((List.range n).map f).Nodup := by
    refine List.Nodup.map_on (fun j hj k hk => ?_) List.nodup_range
    exact hinj j k (List.mem_range.mp hj) (List.mem_range.mp hk)
  have hsub : (List.range n).map f ⊆ names := by
    intro x hx
    obtain ⟨k, hk, rfl⟩ := List.mem_map.mp hx
    exact hmem k (List.mem_range.mp hk)
  have hle := (hnodup.subperm hsub).length_le
  rwa [List.length_map, List.length_range] at hle

/-- What `generate_short_alias` promises about its result in a directory with the live entries
`live`. -/
structure FreshAlias (live : List Entry) (result : Option (List UInt8)) : Prop where
  /-- no live entry has the alias -/
  fresh : ∀ raw, result = some raw → ∀ e ∈ live, e.name ≠ raw
  form : ∀ raw, result = some raw →
    ∃ base num ext, AliasParts base num ext ∧ raw = aliasBytes base num ext
  /-- there is one as long as not every number is taken -/
  exists_of_lt : live.length < 999999 → result.isSome = true

/-- The alias found is new and well formed, and one is found when there are fewer live entries than
numbers. -/
theorem freshAlias_generateShortAlias {fs : Fat32Instance} (hf : NoFault fs) {d : Disk} {p c : ℕ}
    {l : List ℕ} (hp : (if p < 2 then fs.rootCluster else p) = c) (h2 : 2 ≤ c)
    (hw : Walk (fatNext fs d) c l) (hlen : l.length ≤ 4096) (name : CString) :
    FreshAlias ((diskVolume fs d).live l) (generateShortAlias fs d p name) := by
  have htaken := dirHasRaw83_iff (hf.read d) hp h2 hw
  rw [List.take_of_length_le (i := walkLimit) hlen] at htaken
  refine ⟨fun raw hraw e he heq => ?_, fun raw hraw => ?_, fun hfew => ?_⟩
  · obtain ⟨k, -, -, -, hfree⟩ := generateShortAliasFrom_some hraw
    rw [(htaken raw).mpr (heq ▸ List.mem_map_of_mem he)] at hfree
    cases hfree
  · obtain ⟨k, h1, hk, hcand, -⟩ := generateShortAliasFrom_some hraw
    obtain ⟨base, hparts, heq⟩ := aliasCandidate_eq name h1 (by omega)
    exact ⟨base, digits k, aliasExt name, hparts, Option.some.inj (hcand.symm.trans heq)⟩
  · by_contra hnone
    have hnone : generateShortAliasFrom fs d p name 999999 1 = none := by
      simpa [generateShortAlias] using hnone
    have hall := generateShortAliasFrom_none (fun k h1 hk => by
      obtain ⟨base, -, heq⟩ := aliasCandidate_eq name h1 (show k ≤ 999999 by omega)
      rw [heq]
      rfl) hnone
    -- every candidate is the name of a live entry, and no two candidates are the same
    have hle : 999999 ≤ (((diskVolume fs d).live l).map Entry.name).length := by
      refine le_length_of_injective (fun k => (aliasCandidate name (k + 1)).getD [])
        (fun j k hj hk heq => ?_) fun k hk => ?_
      · obtain ⟨raw, hraw, -⟩ := hall (j + 1) (by omega) (by omega)
        obtain ⟨raw', hraw', -⟩ := hall (k + 1) (by omega) (by omega)
        simp only [hraw, hraw', Option.getD_some] at heq
        have hsame : aliasCandidate name (j + 1) = aliasCandidate name (k + 1) := by
          rw [hraw, hraw', heq]
        have := aliasCandidate_injective name (by omega) (by omega) (by omega) (by omega) hsame
        omega
      · obtain ⟨raw, hraw, hhas⟩ := hall (k + 1) (by omega) (by omega)
        simp only [hraw, Option.getD_some]
        exact (htaken raw).mp hhas
    rw [List.length_map] at hle
    omega

/-- The root directory has the file `A`, and a long name asks for an alias. -/
theorem freshAlias_listedA : FreshAlias
    ((diskVolume (ramFs 512 1 32 1 1 2) (rootDisk listedA)).live [2])
    (generateShortAlias (ramFs 512 1 32 1 1 2) (rootDisk listedA) 0 (ascii "my letter.text")) :=
  freshAlias_generateShortAlias (noFault_ramFs _ _ _ _ _ _) rfl le_rfl (walk_rootDisk listedA)
    (by decide) _

end PsychWard.Fat32
