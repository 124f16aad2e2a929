import PsychWard.Fat32.UniqueNames
import PsychWard.Fat32.Copies
import PsychWard.Fat32.LongNames

/-!
# Entries with long names

What `dir_write_named_entry` makes of a directory that is in order: the new name leads to the new
entry in any letter case, and all other names lead where they led before. `bound_iff` says when:
a directory that has all the clusters a walk covers grows out of its reach.
-/

namespace PsychWard.Fat32

namespace Volume

variable {v v' : Volume} {l : List ℕ} {A B R : List DirCursor} {q s : DirCursor} {t name : CString}
  {c n : ℕ}

/-! ## Searches -/

theorem firstCarrier_zero (hB : ∀ b ∈ B, v.entry b 0 = 0) (buf : LfnBuf) :
    v.firstCarrier lfnStep t buf B = none := by
  cases B with
  | nil => rfl
  | cons b B => rw [firstCarrier, if_pos (hB b List.mem_cons_self)]

/-- A search does not get behind an end mark. -/
theorem firstCarrier_append_zero (hB : ∀ b ∈ B, v.entry b 0 = 0) (buf : LfnBuf) :
    v.firstCarrier lfnStep t buf (A ++ B) = v.firstCarrier lfnStep t buf A := by
  induction A generalizing buf with
  | nil => exact firstCarrier_zero hB buf
  | cons a A ih => rw [List.cons_append, firstCarrier, firstCarrier, ih]

theorem firstCarrier_append_some {buf : LfnBuf} (h : v.firstCarrier lfnStep t buf A = some s) :
    v.firstCarrier lfnStep t buf (A ++ B) = some s := by
  induction A generalizing buf with
  | nil => cases h
  | cons a A ih =>
    rw [firstCarrier] at h
    rw [List.cons_append, firstCarrier]
    split at h
    · cases h
    · rename_i h0
      rw [if_neg h0]
      split at h
      · rename_i hm
        rw [if_pos hm]
        exact h
      · rename_i hm
        rw [if_neg hm]
        exact ih h

/-- A search goes past free slots with an empty buffer. -/
theorem firstCarrier_free (hR : ∀ r ∈ R, (v.entry r).IsFree)
    (hB : (∃ r ∈ R, v.entry r 0 = 0) → ∀ b ∈ B, v.entry b 0 = 0) :
    v.firstCarrier lfnStep t .clear (R ++ B) = v.firstCarrier lfnStep t .clear B := by
  induction R with
  | nil => rfl
  | cons r R ih =>
    rw [List.cons_append, firstCarrier]
    by_cases h0 : v.entry r 0 = 0
    · rw [if_pos h0, firstCarrier_zero (hB ⟨r, List.mem_cons_self, h0⟩)]
    · have hfree := hR r List.mem_cons_self
      rw [if_neg h0, if_neg fun h => h.1.1 hfree, lfnStep_of_free _ hfree]
      refine ih (fun r hr => hR r (List.mem_cons_of_mem _ hr)) fun hzero => hB ?_
      obtain ⟨r, hr, h⟩ := hzero
      exact ⟨r, List.mem_cons_of_mem _ hr, h⟩

/-- A search collects the long-name entries it goes past. -/
theorem firstCarrier_lfn (hR : ∀ r ∈ R, (v.entry r).attr = 0x0F ∧ v.entry r 0 ≠ 0) (buf : LfnBuf) :
    v.firstCarrier lfnStep t buf (R ++ B) =
      v.firstCarrier lfnStep t ((R.map v.entry).foldl lfnStep buf) B := by
  induction R generalizing buf with
  | nil => rfl
  | cons r R ih =>
    obtain ⟨hattr, h0⟩ := hR r List.mem_cons_self
    rw [List.cons_append, firstCarrier, if_neg h0, if_neg fun h => h.1.2.1 hattr, List.map_cons,
      List.foldl_cons]
    exact ih (fun r hr => hR r (List.mem_cons_of_mem _ hr)) _

/-! ## Directories in order -/

theorem SlotsOk.ended (h : v.SlotsOk l) : v.Ended l := by
  refine ⟨v.beforeEnd l, (v.slots l).dropWhile fun p => decide (v.entry p 0 ≠ 0),
    (List.takeWhile_append_dropWhile).symm, fun s hs => ?_, fun s hs => ?_⟩
  · exact of_decide_eq_true (List.mem_takeWhile_imp (p := fun a => decide (v.entry a 0 ≠ 0)) hs)
  · have hsplit := (List.takeWhile_append_dropWhile
      (p := fun p => decide (v.entry p 0 ≠ 0)) (l := v.slots l)).symm
    rcases hd : (v.slots l).dropWhile fun p => decide (v.entry p 0 ≠ 0) with _ | ⟨e, E⟩
    · rw [hd] at hs
      cases hs
    · have he := List.head?_dropWhile_not (fun p => decide (v.entry p 0 ≠ 0)) (v.slots l)
      rw [hd] at hs hsplit he
      have h0 : v.entry e 0 = 0 := by simpa using he
      rcases List.mem_cons.mp hs with rfl | hs
      · exact h0
      · rw [h.zero _ e E hsplit h0 s hs]
        rfl

theorem SlotsOk.grown (h : v.SlotsOk l) (hl : v.forest.Chain c l) (hg : Grown v v' l n) :
    v'.SlotsOk (l ++ [n]) := by
  have hslots : v'.slots (l ++ [n]) = v.slots l ++ v'.slots [n] := by
    rw [slots_append, slots_congr hg.sectorsPerCluster]
  have hold : ∀ s ∈ v.slots l, v'.entry s = v.entry s := fun s hs =>
    hg.entry_eq (hg.ne_of_used (hl.2 _ (mem_slots.mp hs).1))
  have hnew : ∀ s ∈ v'.slots [n], v'.entry s = Entry.zero := fun s hs => hg.entry_new hs
  refine ⟨fun A B hs hA hfree => ?_, fun A p B hs h0 s hsB => ?_⟩
  · rw [hslots] at hs
    rcases List.append_eq_append_iff.mp hs with ⟨C, rfl, hC⟩ | ⟨C, hC, rfl⟩
    · -- nothing of the new cluster is in use
      have hnil : C = [] := by
        refine List.eq_nil_iff_forall_not_mem.mpr fun x hx => ?_
        refine hA x (List.mem_append_right _ hx) ?_
        rw [hnew x (by rw [hC]; exact List.mem_append_left _ hx)]
        rfl
      subst hnil
      rw [List.append_nil] at hA ⊢
      refine (bufferAfter_congr hold).trans (h.lfn _ [] (List.append_nil _).symm
        (fun a ha => ?_) (by simp))
      rw [← hold a ha]
      exact hA a ha
    · have hmem : ∀ a ∈ A, a ∈ v.slots l := fun a ha => by
        rw [hC]
        exact List.mem_append_left _ ha
      refine (bufferAfter_congr fun a ha => hold a (hmem a ha)).trans (h.lfn A C hC
        (fun a ha => ?_) fun x hx => ?_)
      · rw [← hold a (hmem a ha)]
        exact hA a ha
      · have hxl : x ∈ v.slots l := by
          rw [hC]
          exact List.mem_append_right _ (List.mem_of_mem_head? hx)
        rw [← hold x hxl]
        refine hfree x ?_
        rw [List.head?_append, Option.mem_def.mp hx]
        rfl
  · rw [hslots] at hs
    rcases List.append_eq_append_iff.mp hs with ⟨C, rfl, hC⟩ | ⟨C, hC, hCB⟩
    · refine hnew s ?_
      rw [hC]
      exact List.mem_append_right _ (List.mem_cons_of_mem _ hsB)
    · rcases C with _ | ⟨x, C⟩
      · refine hnew s ?_
        rw [List.nil_append] at hCB
        rw [← hCB]
        exact List.mem_cons_of_mem _ hsB
      · obtain ⟨rfl, rfl⟩ := List.cons.inj hCB
        rcases List.mem_append.mp hsB with hsC | hsn
        · have hmem : s ∈ v.slots l := by
            rw [hC]
            simp [hsC]
          rw [hold s hmem]
          refine h.zero A p C hC ?_ s hsC
          rw [← hold p (by rw [hC]; simp)]
          exact h0
        · exact hnew s hsn

/-- The slots of a free run are free, and behind an end mark in it there are end marks only. -/
theorem FreeRun.isFree (h : FreeRun v l A R B) (he : v.Ended l) :
    (∀ r ∈ R, (v.entry r).IsFree) ∧
      ((∃ r ∈ R, v.entry r 0 = 0) → ∀ b ∈ B, v.entry b 0 = 0) := by
  refine ⟨fun r hr => ?_, fun ⟨e, he', h0⟩ b hb => ?_⟩
  · obtain ⟨R₁, R₂, rfl⟩ := List.append_of_mem hr
    rcases h.free R₁ r R₂ rfl with hdel | ⟨e, hmem, h0⟩
    · exact .inr hdel
    · rcases List.mem_append.mp hmem with hmem | hmem
      · obtain ⟨S, T, rfl⟩ := List.append_of_mem hmem
        refine .inl (he.zero_of_mem (P := A ++ S) (Q := T ++ r :: R₂ ++ B) (e := e) ?_ h0 (by simp))
        rw [h.slots_eq]
        simp
      · rw [← List.mem_singleton.mp hmem]
        exact .inl h0
  · obtain ⟨S, T, rfl⟩ := List.append_of_mem he'
    refine he.zero_of_mem (P := A ++ S) (Q := T ++ B) (e := e) ?_ h0 (by simp [hb])
    rw [h.slots_eq]
    simp

/-! ## The search for a new name -/

/-- The buffer is empty in front of a free run. -/
theorem FreeRun.lfnAfter_eq (h : FreeRun v l A R B) (hok : v.SlotsOk l) (hR : R ≠ []) :
    v.lfnAfter A = .clear := by
  refine hok.lfn A (R ++ B) h.slots_eq h.before fun x hx => ?_
  rw [List.head?_append_of_ne_nil _ hR] at hx
  exact (h.isFree hok.ended).1 x (List.mem_of_mem_head? hx)

/-- A search goes through what is in front of a free run and then through what is behind it. -/
theorem FreeRun.firstCarrier_eq (h : FreeRun v l A R B) (hok : v.SlotsOk l) (hR : R ≠ []) :
    v.firstCarrier lfnStep t .clear (v.slots l) =
      (v.firstCarrier lfnStep t .clear A).or (v.firstCarrier lfnStep t .clear B) := by
  obtain ⟨hfree, htail⟩ := h.isFree hok.ended
  have hclear := h.lfnAfter_eq hok hR
  rw [lfnAfter] at hclear
  rw [h.slots_eq, firstCarrier_append_or h.before, hclear, firstCarrier_free hfree htail]

/-- An entry that follows the long-name entries of a name carries it in any letter case. -/
theorem entryMatches_suffix {e : Entry} (h0 : 0 ∉ name) (hne : name ≠ []) (hlen : name.length ≤ 260)
    (ht : 0 ∉ t) : entryMatches (LfnBuf.suffix name 0) e t = true ↔
      t.map toUpper = name.map toUpper := by
  have hfirst : LfnBuf.suffix name 0 0 ≠ 0 := by
    obtain ⟨x, rest, rfl⟩ := List.exists_cons_of_ne_nil hne
    exact fun h => h0 (by rw [← h]; exact List.mem_cons_self)
  rw [entryMatches, if_pos hfirst, str_suffix h0 hlen, decide_eq_true_eq,
    myStrcasecmp_eq_zero h0 ht]
  exact eq_comm

/-- The search once a free run holds the entries of a name. -/
theorem FreeRun.firstCarrier_named {sum : UInt8} {count : ℕ} (h : FreeRun v l A (R ++ [q]) B)
    (hok : v.SlotsOk l) (hl : l.Nodup) (he : Edit v v' (R ++ [q])) (hq : (v'.entry q).IsNamed)
    (hmap : R.map v'.entry = lfnEntries name sum count count) (hcount : count ≤ 20)
    (hlen : name.length ≤ count * 13) (h0 : 0 ∉ name) (hfill : 0xFF ∉ name) (hne : name ≠ [])
    (ht : 0 ∉ t) :
    v'.firstCarrier lfnStep t .clear (v'.slots l) = (v.firstCarrier lfnStep t .clear A).or
      (if t.map toUpper = name.map toUpper then some q
        else v.firstCarrier lfnStep t .clear B) := by
  have hA : ∀ a ∈ A, v'.entry a = v.entry a := fun a ha =>
    he.around h.slots_eq hl (List.mem_append_left _ ha)
  have hB : ∀ b ∈ B, v'.entry b = v.entry b := fun b hb =>
    he.around h.slots_eq hl (List.mem_append_right _ hb)
  have hA0 : ∀ a ∈ A, v'.entry a 0 ≠ 0 := fun a ha => by
    rw [hA a ha]
    exact h.before a ha
  have hclear : A.foldl (fun buf p => lfnStep buf (v'.entry p)) .clear = .clear :=
    (bufferAfter_congr hA).trans (h.lfnAfter_eq hok (by simp))
  have hfirst : LfnBuf.suffix name 0 0 ≠ 0 := by
    obtain ⟨x, rest, rfl⟩ := List.exists_cons_of_ne_nil hne
    exact fun h => h0 (by rw [← h]; exact List.mem_cons_self)
  -- the long-name entries leave the name in the buffer
  have hbuf : (R.map v'.entry).foldl lfnStep .clear = LfnBuf.suffix name 0 := by
    rw [hmap, ← suffix_eq_clear hlen]
    exact foldl_lfnEntries sum count h0 hfill hcount
  rw [slots_congr he.sectorsPerCluster, h.slots_eq, firstCarrier_append_or hA0, hclear,
    firstCarrier_congr hA, List.append_assoc,
    firstCarrier_lfn fun r hr => Geometry.lfn_of_map hmap (by omega) hr, hbuf, List.singleton_append,
    firstCarrier, if_neg fun h => hq.1 (.inl h)]
  congr 1
  by_cases hcase : t.map toUpper = name.map toUpper
  · rw [if_pos ⟨hq, (entryMatches_suffix h0 hne (by omega) ht).mpr hcase⟩, if_pos hcase]
  · rw [if_neg fun h => hcase ((entryMatches_suffix h0 hne (by omega) ht).mp h.2), if_neg hcase,
      lfnStep_of_named _ hq, if_pos hfirst, firstCarrier_congr hB]

/-- Names that differ in the case of their letters are found at the same slot. -/
theorem firstCarrier_congr_case (h0 : 0 ∉ name) (ht : 0 ∉ t)
    (h : t.map toUpper = name.map toUpper) (buf : LfnBuf) :
    v.firstCarrier lfnStep t buf A = v.firstCarrier lfnStep name buf A := by
  have hmatch : ∀ (buf : LfnBuf) (e : Entry), entryMatches buf e t = entryMatches buf e name := by
    intro buf e
    rw [entryMatches, entryMatches, formatFat32Name_congr ht h0 h]
    congr 1
    rw [decide_eq_decide, myStrcasecmp_eq_zero (zero_notMem_str buf) ht,
      myStrcasecmp_eq_zero (zero_notMem_str buf) h0, h]
  induction A generalizing buf with
  | nil => rfl
  | cons a A ih => rw [firstCarrier, firstCarrier, hmatch, ih]

end Volume

open Volume

/-- A new name is bound to an entry in the directory `l`: it leads there in any letter case, all
other names lead where they led before, and the entries that were there are untouched. -/
structure Bound (fs : Fat32Instance) (d d' : Disk) (p : ℕ) (l : List ℕ) (name : CString)
    (clus size : ℕ) : Prop where
  found : ∀ t, 0 ∉ t → t.map toUpper = name.map toUpper →
    ∃ f, lookup fs d' p t = some f ∧ f.clus = clus ∧ f.size = size
  others : ∀ t, 0 ∉ t → t.map toUpper ≠ name.map toUpper → lookup fs d' p t = lookup fs d p t
  kept : ∀ s, (volume fs d).Live l s → (volume fs d').entry s = (volume fs d).entry s

namespace Geometry

variable {fs : Fat32Instance} (g : Geometry fs) {d d' : Disk} {l l' : List ℕ} {p clus size : ℕ}
  {name t : CString} {A B R : List DirCursor} {q : DirCursor}

include g

theorem lookup_eq_firstCarrier (h : (volume fs d).forest.Chain (dirHead fs p) l) :
    lookup fs d p t =
      ((volume fs d).firstCarrier lfnStep t .clear ((volume fs d).walked l)).map fun s =>
        ⟨dirCursorSector fs s, s.offsetInSector, ((volume fs d).entry s).clus,
          ((volume fs d).entry s).size⟩ := by
  rw [g.lookup_eq_scan h, dirScanBody_eq _ rfl]

/-- Where the walks reach the new entry, the name is bound. The directory may have grown to that of
`w` in between. -/
theorem bound_of_search {w : Volume} (hl : (volume fs d).forest.Chain (dirHead fs p) l)
    (hl' : (volume fs d').forest.Chain (dirHead fs p) l') (hlen : l.length ≤ walkLimit)
    (hlen' : l'.length ≤ walkLimit) (hnone : lookup fs d p name = none) (h0 : 0 ∉ name)
    (hbefore : ∀ t, (volume fs d).firstCarrier lfnStep t .clear ((volume fs d).slots l) =
      (w.firstCarrier lfnStep t .clear A).or (w.firstCarrier lfnStep t .clear B))
    (hafter : ∀ t, 0 ∉ t →
      (volume fs d').firstCarrier lfnStep t .clear ((volume fs d').slots l') =
        (w.firstCarrier lfnStep t .clear A).or (if t.map toUpper = name.map toUpper then some q
          else w.firstCarrier lfnStep t .clear B))
    (hsame : ∀ s ∈ A ++ B, s ∈ (volume fs d).slots l →
      (volume fs d').entry s = (volume fs d).entry s)
    (hclus : ((volume fs d').entry q).clus = clus) (hsize : ((volume fs d').entry q).size = size)
    (hkept : ∀ s, (volume fs d).Live l s → (volume fs d').entry s = (volume fs d).entry s) :
    Bound fs d d' p l name clus size := by
  have hw : (volume fs d).walked l = (volume fs d).slots l := by
    rw [walked, List.take_of_length_le hlen]
  have hw' : (volume fs d').walked l' = (volume fs d').slots l' := by
    rw [walked, List.take_of_length_le hlen']
  refine ⟨fun t ht hcase => ?_, fun t ht hcase => ?_, hkept⟩
  -- nothing in front of the new entry carries its name, since the search found none
  · have hfirst : w.firstCarrier lfnStep name .clear A = none := by
      rw [g.lookup_eq_firstCarrier hl, hw, hbefore, Option.map_eq_none_iff,
        Option.or_eq_none_iff] at hnone
      exact hnone.1
    refine ⟨⟨dirCursorSector fs q, q.offsetInSector, ((volume fs d').entry q).clus,
      ((volume fs d').entry q).size⟩, ?_, hclus, hsize⟩
    rw [g.lookup_eq_firstCarrier hl', hw', hafter t ht, firstCarrier_congr_case h0 ht hcase,
      hfirst, Option.none_or, if_pos hcase]
    rfl
  · rw [g.lookup_eq_firstCarrier hl', g.lookup_eq_firstCarrier hl, hw', hw, hafter t ht, hbefore,
      if_neg hcase]
    refine Option.map_congr fun s hs => ?_
    have hmem : s ∈ A ++ B := by
      rcases Option.or_eq_some_iff.mp hs with hs | ⟨-, hs⟩
      · exact List.mem_append_left _ (mem_of_firstCarrier hs)
      · exact List.mem_append_right _ (mem_of_firstCarrier hs)
    have hmem' : s ∈ (volume fs d).slots l := by
      rw [← hbefore] at hs
      exact mem_of_firstCarrier hs
    rw [hsame s hmem hmem']

/-- What `dir_write_named_entry` leaves: a run of free slots, in the directory or in one that has
grown by a cluster, holds the entries of the name. -/
theorem searches_of_run {attr : UInt8} (hl : (volume fs d).forest.Chain (dirHead fs p) l)
    (hok : (volume fs d).SlotsOk l) (hlen : l.length ≤ walkLimit) (hname : 1 ≤ name.length)
    (hlen63 : name.length ≤ 63) (h0 : 0 ∉ name) (hfill : 0xFF ∉ name)
    (hneeds : nameNeedsLfn name = true) (hattr : attr ≠ 0x0F ∧ attr &&& 0x08 = 0)
    (hrun : dirWriteNamedEntry fs d (orRoot fs p) name clus size attr = (true, d')) :
    ∃ w l' A R B q cand, (l' = l ∧ (∃ st last,
          findRun fs d (orRoot fs p) ((name.length + 12) / 13 + 1) = some (st, last, true)) ∨
        ∃ n, l' = l ++ [n] ∧ n ∉ l ∧ q.cluster = n ∧ ∃ st last,
          findRun fs d (orRoot fs p) ((name.length + 12) / 13 + 1) = some (st, last, false)) ∧
      (volume fs d').forest.Chain (dirHead fs p) l' ∧ FreeRun w l' A (R ++ [q]) B ∧
      w.SlotsOk l' ∧ Edit w (volume fs d') (R ++ [q]) ∧
      (volume fs d').entry q = shortEntry cand attr clus size ∧
      (∀ s ∈ (volume fs d).slots l, w.entry s = (volume fs d).entry s) ∧
      (∀ t, (volume fs d).firstCarrier lfnStep t .clear ((volume fs d).slots l) =
        (w.firstCarrier lfnStep t .clear A).or (w.firstCarrier lfnStep t .clear B)) ∧
      ∀ t, 0 ∉ t → (volume fs d').firstCarrier lfnStep t .clear ((volume fs d').slots l') =
        (w.firstCarrier lfnStep t .clear A).or (if t.map toUpper = name.map toUpper then some q
          else w.firstCarrier lfnStep t .clear B) := by
  have hne : name ≠ [] := List.ne_nil_of_length_pos hname
  obtain ⟨r, d'', hw, ⟨rfl, -⟩ |
    ⟨rfl, w, l', A, R, B, q, cand, hgrown, hfr, hE, hent, halias, hmap⟩⟩ :=
    g.dirWriteNamedEntry_spec clus size attr hlen63 hneeds hl
      (g.runSafe_of_ended hl hok.ended hlen (Nat.succ_pos _))
  · cases hrun.symm.trans hw
  obtain rfl : d'' = d' := (Prod.mk.inj (hw.symm.trans hrun)).2
  obtain ⟨hc0, hcdel, -⟩ := generateShortAlias_getD halias
  have hqn : ((volume fs d'').entry q).IsNamed := by
    rw [hent]
    exact ⟨fun hf => hf.elim hc0 hcdel, hattr⟩
  -- the directory that takes the entries
  obtain ⟨hlw, hokw, hbefore, hold⟩ : w.forest.Chain (dirHead fs p) l' ∧ w.SlotsOk l' ∧
      (∀ t, w.firstCarrier lfnStep t .clear (w.slots l') =
        (volume fs d).firstCarrier lfnStep t .clear ((volume fs d).slots l)) ∧
      ∀ s ∈ (volume fs d).slots l, w.entry s = (volume fs d).entry s := by
    rcases hgrown with ⟨rfl, rfl, -⟩ | ⟨n, hg, rfl, -⟩
    · exact ⟨hl, hok, fun _ => rfl, fun s _ => rfl⟩
    · have hold : ∀ s ∈ (volume fs d).slots l, w.entry s = (volume fs d).entry s := fun s hs =>
        hg.entry_eq (hg.ne_of_used (hl.2 _ (mem_slots.mp hs).1))
      refine ⟨hg.chain hl, hok.grown hl hg, fun t => ?_, hold⟩
      rw [slots_append, slots_congr hg.sectorsPerCluster,
        firstCarrier_append_zero fun b hb => by rw [hg.entry_new hb]; rfl,
        firstCarrier_congr hold]
  refine ⟨w, l', A, R, B, q, cand, ?_, hE.chain hlw, hfr, hokw, hE, hent, hold, fun t => ?_,
    fun t ht => ?_⟩
  · rcases hgrown with ⟨-, rfl, hfound⟩ | ⟨n, hg, rfl, hmiss, hq⟩
    · exact .inl ⟨rfl, hfound⟩
    · exact .inr ⟨n, rfl, fun hn => hg.ne_of_used (hl.2 n hn) rfl, hq, hmiss⟩
  · rw [← hbefore, hfr.firstCarrier_eq hokw (by simp)]
  · exact hfr.firstCarrier_named hokw hlw.1.nodup hE hqn hmap (by omega) (by omega) h0 hfill hne ht

/-- A directory that grows past the last cluster that walks cover hides the new entry. -/
theorem not_bound_of_full {attr : UInt8} {st : RunState} {last : ℕ}
    (hl : (volume fs d).forest.Chain (dirHead fs p) l) (hok : (volume fs d).SlotsOk l)
    (hfull : l.length = walkLimit) (hname : 1 ≤ name.length) (hlen63 : name.length ≤ 63)
    (h0 : 0 ∉ name) (hfill : 0xFF ∉ name) (hneeds : nameNeedsLfn name = true)
    (hnone : lookup fs d p name = none) (hattr : attr ≠ 0x0F ∧ attr &&& 0x08 = 0)
    (hmiss : findRun fs d (orRoot fs p) ((name.length + 12) / 13 + 1) = some (st, last, false))
    (hrun : dirWriteNamedEntry fs d (orRoot fs p) name clus size attr = (true, d')) :
    ¬ Bound fs d d' p l name clus size := by
  obtain ⟨w, l', A, R, B, q, cand, hgrown, hl', hfr, hokw, hE, hent, hold, hsplit, hsearch⟩ :=
    g.searches_of_run hl hok hfull.le hname hlen63 h0 hfill hneeds hattr hrun
  intro hb
  rcases hgrown with ⟨-, st', last', hfound⟩ | ⟨n, rfl, hn, hq, -⟩
  · cases hmiss.symm.trans hfound
  obtain ⟨f, hf, -⟩ := hb.found name h0 rfl
  have hwalk : ∀ e, (volume fs e).walked l = (volume fs d).slots l := fun e => by
    rw [walked, List.take_of_length_le hfull.le, slots_disk d]
  have hwalk' : (volume fs d').walked (l ++ [n]) = (volume fs d).slots l := by
    rw [walked_append, hfull, Nat.sub_self, List.take_zero, slots, List.flatMap_nil,
      List.append_nil, hwalk]
  rw [g.lookup_eq_firstCarrier hl', hwalk'] at hf
  obtain ⟨s, hs, -⟩ := Option.map_eq_some_iff.mp hf
  have hall := firstCarrier_append_some (B := (volume fs d').slots [n]) hs
  have hslots' : (volume fs d').slots (l ++ [n]) =
      (volume fs d).slots l ++ (volume fs d').slots [n] := by
    rw [slots_append, slots_disk d]
  have hfirst : w.firstCarrier lfnStep name .clear A = none := by
    rw [g.lookup_eq_firstCarrier hl, hwalk, hsplit, Option.map_eq_none_iff,
      Option.or_eq_none_iff] at hnone
    exact hnone.1
  -- the search of the whole directory would find the new entry, which lies in the new cluster
  rw [← hslots', hsearch name h0, hfirst, Option.none_or, if_pos rfl] at hall
  obtain rfl := Option.some.inj hall
  have hmem := (mem_slots.mp (mem_of_firstCarrier hs)).1
  rw [hq] at hmem
  exact hn hmem

/-- `dir_write_named_entry` binds the name exactly if the directory can still grow within the reach
of a walk, or has room for the entries. -/
theorem bound_iff {attr : UInt8} (hl : (volume fs d).forest.Chain (dirHead fs p) l)
    (hok : (volume fs d).SlotsOk l) (hslots : ((volume fs d).slots l).length ≤ maxDirSlots)
    (hname : 1 ≤ name.length ∧ name.length ≤ 63) (h0 : 0 ∉ name) (hfill : 0xFF ∉ name)
    (hneeds : nameNeedsLfn name = true) (hnone : lookup fs d p name = none)
    (hclus : clus < 2 ^ 32) (hsize : size < 2 ^ 32) (hattr : attr ≠ 0x0F ∧ attr &&& 0x08 = 0)
    (hrun : dirWriteNamedEntry fs d (orRoot fs p) name clus size attr = (true, d')) :
    Bound fs d d' p l name clus size ↔ l.length < walkLimit ∨ ∃ st last,
      findRun fs d (orRoot fs p) ((name.length + 12) / 13 + 1) = some (st, last, true) := by
  have hlen := length_le_walkLimit (v := volume fs d) g.sectors_pos hslots
  obtain ⟨w, l', A, R, B, q, cand, hgrown, hl', hfr, hokw, hE, hent, hold, hsplit, hsearch⟩ :=
    g.searches_of_run hl hok hlen hname.1 hname.2 h0 hfill hneeds hattr hrun
  have hnd := w.nodup_slots hl'.1.nodup
  rw [hfr.slots_eq, List.nodup_append, List.nodup_append] at hnd
  -- the entries off the run are those of before
  have hsame : ∀ s ∈ (volume fs d).slots l, s ∉ R ++ [q] →
      (volume fs d').entry s = (volume fs d).entry s := fun s hs hR => by
    rw [hE.entry_eq s (aligned_of_slots hs) hR, hold s hs]
  have hbound : l'.length ≤ walkLimit → Bound fs d d' p l name clus size := fun hlen' => by
    refine g.bound_of_search (w := w) (A := A) (B := B) (q := q) hl hl' hlen hlen' hnone h0 hsplit
      hsearch (fun s hs hsl => hsame s hsl ?_) ?_ ?_ fun s hs => ?_
    · rcases List.mem_append.mp hs with hs | hs
      · exact fun hR => hnd.2.2 s hs s (List.mem_append_left _ hR) rfl
      · exact fun hR => hnd.2.1.2.2 s hR s hs rfl
    · rw [hent, shortEntry_clus _ _ _ _ hclus]
    · rw [hent, shortEntry_size _ _ _ _ hsize]
    · have hsl : s ∈ (volume fs d).slots l := (List.takeWhile_sublist _).subset hs.1
      refine hsame s hsl fun hR => hs.2 ?_
      rw [← hold s hsl]
      exact (hfr.isFree hokw.ended).1 s hR
  rcases hgrown with ⟨rfl, hfound⟩ | ⟨n, rfl, -, -, st, last, hmiss⟩
  · exact iff_of_true (hbound hlen) (.inr hfound)
  · rcases hlen.lt_or_eq with hlt | hfull
    · refine iff_of_true (hbound ?_) (.inl hlt)
      rw [List.length_append, List.length_singleton]
      exact hlt
    · refine iff_of_false (g.not_bound_of_full hl hok hfull hname.1 hname.2 h0 hfill hneeds hnone
        hattr hmiss hrun) ?_
      rintro (hlt | ⟨st', last', hfound⟩)
      · exact hlt.ne hfull
      · cases hmiss.symm.trans hfound

end Geometry

/-! ## A directory of the largest size -/

/-- A mounted volume with more clusters than a walk covers. -/
def wideFs : Fat32Instance := { tinyFs with sectorsPerFat := 33, dataStartSector := 34 }

theorem wideFs_geometry : Geometry wideFs :=
  ⟨⟨fun _ _ => rfl, fun _ _ _ => rfl⟩, rfl, by decide, by decide, by decide, by decide, by decide⟩

/-- A table with the chain of the clusters 2 to 4097. -/
def wideTable (c : ℕ) : ℕ :=
  if 2 ≤ c ∧ c < 4097 then c + 1 else if c = 4097 then fat32Eoc else 0

/-- The entry of the empty file `A`. -/
def fileA : Entry := shortEntry (formatFat32Name [65]) 0x20 0 0

/-- A sector of sixteen entries `A`. -/
def fullSector : Block := fun j => fileA ⟨j % 32, Nat.mod_lt _ (by decide)⟩

/-- A root directory of the clusters 2 to 4097 without a free slot. -/
def fullDisk : Disk := ⟨fun s => if s < 34 then tableSector wideTable (s - 1) else fullSector, []⟩

def fullChain : List ℕ := List.range' 2 4096

theorem fat_fullDisk {c : ℕ} (hc : c < 4224) : (volume wideFs fullDisk).fat c = wideTable c := by
  have hsector : fatSector wideFs 0 c = 1 + c / 128 := by
    simp only [fatSector, wideFs, tinyFs]
    omega
  have hoffset : fatOffset wideFs c = 4 * (c % 128) := by
    simp only [fatOffset, wideFs, tinyFs]
    omega
  have hlt : wideTable c < 2 ^ 28 := by
    rw [wideTable]
    split
    · omega
    · split
      · decide
      · decide
  rw [Geometry.volume_fat hc, hsector, hoffset]
  have hblock : fullDisk.sectors (1 + c / 128) = tableSector wideTable (c / 128) := by
    rw [fullDisk]
    simp only
    rw [if_pos (by omega), Nat.add_sub_cancel_left]
  rw [hblock, u32_tableSector _ _ (Nat.mod_lt _ (by decide)), Nat.div_add_mod]
  omega

theorem chain_fullDisk : (volume wideFs fullDisk).forest.Chain (dirHead wideFs 2) fullChain := by
  have hwalk : ∀ k a, a + k = 4097 → 2 ≤ a →
      Walk (volume wideFs fullDisk).next a (List.range' a (k + 1)) := by
    intro k
    induction k with
    | zero =>
      intro a ha h2
      obtain rfl : a = 4097 := by omega
      refine .last ?_
      rw [Volume.next, fat_fullDisk (by omega)]
      decide
    | succ k ih =>
      intro a ha h2
      refine .cons (b := a + 1) ?_ (ih (a + 1) (by omega) (by omega))
      have hnext : wideTable a = a + 1 := if_pos ⟨h2, by omega⟩
      rw [Volume.next, fat_fullDisk (by omega), hnext, if_pos]
      have heoc : a + 1 < fat32Eoc := by
        rw [fat32Eoc]
        omega
      simp [clusterHasNext, heoc]
      omega
  refine ⟨hwalk 4095 2 rfl (le_refl 2), fun x hx => ?_⟩
  obtain ⟨h1, h2⟩ := List.mem_range'_1.mp hx
  have hlt : x < 4224 := by omega
  refine ⟨⟨h1, hlt⟩, ?_⟩
  rw [fat_fullDisk hlt, wideTable]
  split
  · omega
  · rw [if_pos (by omega)]
    decide

theorem entry_fullDisk {s : DirCursor} (hs : s ∈ (volume wideFs fullDisk).slots fullChain) :
    (volume wideFs fullDisk).entry s = fileA := by
  obtain ⟨hc, hsec, k, hk, hoff⟩ := mem_slots.mp hs
  obtain ⟨h1, h2⟩ := List.mem_range'_1.mp hc
  have hin : 2 ≤ s.cluster ∧ s.cluster < wideFs.clusters := ⟨h1, by
    show s.cluster < 4224
    omega⟩
  have hblock : (volume wideFs fullDisk).data s.cluster s.sectorInCluster = fullSector := by
    rw [wideFs_geometry.volume_data hin hsec, fullDisk]
    simp only
    rw [if_neg]
    rw [dataSector]
    show ¬ 34 + _ + _ < 34
    omega
  rw [Volume.entry, hblock, hoff]
  refine Entry.ext fun i => ?_
  have hi := i.isLt
  rw [Block.entry, Block.get, dif_pos (by omega), fullSector]
  refine congrArg fileA (Fin.ext ?_)
  simp only
  omega

namespace Volume

variable {v : Volume} {S A : List DirCursor} {e : Entry} {t : CString}

/-- A search among equal entries that do not carry the name. -/
theorem firstCarrier_const (hS : ∀ s ∈ S, v.entry s = e) (he : e.IsNamed)
    (ht : entryMatches .clear e t = false) : v.firstCarrier lfnStep t .clear S = none := by
  induction S with
  | nil => rfl
  | cons s S ih =>
    rw [firstCarrier, hS s List.mem_cons_self, if_neg fun h => he.1 (.inl h), if_neg (by simp [ht]),
      lfnStep_of_named _ he, if_neg (by simp [LfnBuf.clear])]
    exact ih fun s hs => hS s (List.mem_cons_of_mem _ hs)

theorem lfnAfter_const (hA : ∀ s ∈ A, v.entry s = e) (he : e.IsNamed) :
    v.lfnAfter A = .clear := by
  induction A using List.reverseRecOn with
  | nil => rfl
  | append_singleton A s ih =>
    rw [lfnAfter_snoc, ih fun a ha => hA a (by simp [ha]), hA s (by simp), lfnStep_of_named _ he,
      if_neg (by simp [LfnBuf.clear])]

theorem length_slots_one (h : v.sectorsPerCluster = 1) (l : List ℕ) :
    (v.slots l).length = 16 * l.length := by
  induction l with
  | nil => rfl
  | cons c l ih =>
    rw [← List.singleton_append, slots_append, List.length_append, ih, slots,
      List.flatMap_singleton, h, List.length_append, List.length_singleton, Nat.mul_add]
    rfl

end Volume

/-- `longfilename1` in an empty directory. -/
theorem bound_emptyVolume : Bound tinyFs emptyVolume.disk
    (dirWriteNamedEntry tinyFs emptyVolume.disk 2 fileName1 0 0 0x20).2 2 [2] fileName1 0 0 := by
  have hchain : (volume tinyFs emptyVolume.disk).forest.Chain (dirHead tinyFs 2) [2] :=
    Volume.chain_of_chainOk (show (volume tinyFs emptyVolume.disk).ChainOk [2] by decide +kernel)
  have hzero : ∀ s ∈ (volume tinyFs emptyVolume.disk).slots [2],
      (volume tinyFs emptyVolume.disk).entry s = Entry.zero := by decide +kernel
  have hok : (volume tinyFs emptyVolume.disk).SlotsOk [2] := by
    refine Volume.slotsOk_of_used [] _ rfl (by simp) hzero fun A B hAB _ => ?_
    rw [(List.append_eq_nil_iff.mp hAB.symm).1]
    rfl
  have hrun : dirWriteNamedEntry tinyFs emptyVolume.disk (orRoot tinyFs 2) fileName1 0 0 0x20 =
      (true, (dirWriteNamedEntry tinyFs emptyVolume.disk 2 fileName1 0 0 0x20).2) :=
    Prod.ext (show (dirWriteNamedEntry tinyFs emptyVolume.disk 2 fileName1 0 0 0x20).1 = true by
      decide +kernel) rfl
  exact Iff.mpr (tinyFs_geometry.bound_iff hchain hok (by decide +kernel) (by decide) (by decide)
    (by decide) (by decide +kernel) (by decide +kernel) (by decide) (by decide) (by decide) hrun)
      (.inl (by decide))

/-- In a full directory of the largest size `longfilename1` is stored out of reach. -/
theorem not_bound_fullDisk :
    (volume wideFs fullDisk).forest.Chain (dirHead wideFs 2) fullChain ∧
    (volume wideFs fullDisk).SlotsOk fullChain ∧
    ((volume wideFs fullDisk).slots fullChain).length ≤ maxDirSlots ∧
    nameNeedsLfn fileName1 = true ∧ lookup wideFs fullDisk 2 fileName1 = none ∧
    ∃ d', dirWriteNamedEntry wideFs fullDisk (orRoot wideFs 2) fileName1 0 0 0x20 = (true, d') ∧
      ¬ Bound wideFs fullDisk d' 2 fullChain fileName1 0 0 := by
  have hnamed : fileA.IsNamed := by decide +kernel
  have hlength : fullChain.length = walkLimit := List.length_range'
  have hsize : ((volume wideFs fullDisk).slots fullChain).length = maxDirSlots := by
    rw [length_slots_one rfl, hlength]
    rfl
  have hused : ∀ s ∈ (volume wideFs fullDisk).slots fullChain,
      ¬ ((volume wideFs fullDisk).entry s).IsFree := fun s hs => by
    rw [entry_fullDisk hs]
    exact hnamed.1
  have hok : (volume wideFs fullDisk).SlotsOk fullChain := by
    refine Volume.slotsOk_of_used _ [] (List.append_nil _).symm (fun s hs h0 => ?_) (by simp)
      fun A B hAB _ => lfnAfter_const (fun s hs => ?_) hnamed
    · exact hused s hs (.inl h0)
    · exact entry_fullDisk (by rw [hAB]; exact List.mem_append_left _ hs)
  have hneeds : nameNeedsLfn fileName1 = true := by decide +kernel
  have hnone : lookup wideFs fullDisk 2 fileName1 = none := by
    rw [wideFs_geometry.lookup_eq_firstCarrier chain_fullDisk, Option.map_eq_none_iff]
    exact firstCarrier_const (fun s hs => entry_fullDisk (mem_slots_of_walked hs)) hnamed
      (by decide +kernel)
  obtain ⟨cand, hcand, hne⟩ : ∃ cand, aliasCandidate fileName1 1 = some cand ∧
      fileA.name ≠ cand := ⟨_, rfl, by decide +kernel⟩
  have halias : generateShortAlias wideFs fullDisk (orRoot wideFs 2) fileName1 = some cand := by
    have hraw : dirHasRaw83 wideFs fullDisk (orRoot wideFs 2) cand = false :=
      wideFs_geometry.dirHasRaw83_eq_false chain_fullDisk fun s hs => by
        rw [entry_fullDisk hs]
        exact hne
    show generateShortAliasFrom wideFs fullDisk (orRoot wideFs 2) fileName1 (999998 + 1) 1 = _
    rw [generateShortAliasFrom, hcand]
    simp only [hraw, Bool.false_eq_true, if_false]
  have hfree : (volume wideFs fullDisk).freeClusters ≠ [] := by
    refine List.ne_nil_of_mem (a := 4098) (mem_freeClusters.mpr ⟨⟨by decide, by decide⟩, ?_⟩)
    rw [fat_fullDisk (by decide)]
    decide
  -- no run of free slots: the directory grows behind the last cluster that a walk reaches
  obtain ⟨st, last, hmiss⟩ : ∃ st last, findRun wideFs fullDisk (orRoot wideFs 2)
      ((fileName1.length + 12) / 13 + 1) = some (st, last, false) :=
    wideFs_geometry.findRun_missed rfl chain_fullDisk (by decide) hused
  obtain ⟨r, d', hrun, ⟨-, -, hfail⟩ | ⟨rfl, -⟩⟩ := wideFs_geometry.dirWriteNamedEntry_spec 0 0 0x20
    (show fileName1.length ≤ 63 by decide) hneeds chain_fullDisk
    (wideFs_geometry.runSafe_of_ended chain_fullDisk hok.ended hlength.le (Nat.succ_pos _))
  · rcases hfail with hno | ⟨hno, -⟩
    · cases halias.symm.trans hno
    · exact absurd hno hfree
  · exact ⟨chain_fullDisk, hok, hsize.le, hneeds, hnone, d', hrun,
      wideFs_geometry.not_bound_of_full chain_fullDisk hok hlength (by decide) (by decide)
        (by decide) (by decide) hneeds hnone (by decide) hmiss hrun⟩

end PsychWard.Fat32
