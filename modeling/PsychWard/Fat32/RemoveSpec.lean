import PsychWard.Fat32.OpSpec

/-!
# Removing and renaming files

`rm` and `mv` mark the slots of an entry as deleted, together with the long-name entries that come
before it in the same sector. `Marked` is that edit; the entries it reaches besides the named one are
long-name entries, so only the named entry's chain loses its owner.
-/

namespace PsychWard.Fat32

/-! ## Marked slots -/

/-- `n` slots of a sector from slot `k` on. -/
def sectorRun (c s k n : ℕ) : List DirCursor := (List.range' k n).map fun j => ⟨c, s, 32 * j⟩

theorem mem_sectorRun {c s k n : ℕ} {p : DirCursor} : p ∈ sectorRun c s k n ↔
    p.cluster = c ∧ p.sectorInCluster = s ∧ ∃ j, k ≤ j ∧ j < k + n ∧ p.offsetInSector = 32 * j := by
  obtain ⟨pc, ps, po⟩ := p
  simp only [sectorRun, List.mem_map, List.mem_range'_1, DirCursor.mk.injEq]
  constructor
  · rintro ⟨j, hj, rfl, rfl, rfl⟩
    exact ⟨rfl, rfl, j, hj.1, hj.2, rfl⟩
  · rintro ⟨rfl, rfl, j, h1, h2, rfl⟩
    exact ⟨j, ⟨h1, h2⟩, rfl, rfl, rfl⟩

theorem sectorRun_succ (c s k n : ℕ) :
    sectorRun c s k (n + 1) = sectorRun c s k n ++ [⟨c, s, 32 * (k + n)⟩] := by
  rw [sectorRun, List.range'_concat, List.map_append, Nat.one_mul]
  rfl

theorem Entry.setByte_zero (e : Entry) (x : UInt8) : e.setByte 0 x 0 = x := if_pos rfl

/-- A deleted entry stands for nothing. -/
theorem Entry.not_refers_of_deleted (e : Entry) (c : ℕ) (b : Bool) :
    ¬ (e.setByte 0 deleted).Refers c b :=
  Entry.not_refers_of_free (.inr (e.setByte_zero _)) c b

theorem markDeleted_entry (b : Block) (k n : ℕ) (h : k + n ≤ 16) (j : ℕ) :
    (markDeleted b (32 * k) n).entry (32 * j) =
      if k ≤ j ∧ j < k + n then (b.entry (32 * j)).setByte 0 deleted else b.entry (32 * j) := by
  induction n generalizing b k with
  | zero => rw [markDeleted, if_neg (by omega)]
  | succ n ih =>
    rw [markDeleted, show 32 * k + 32 = 32 * (k + 1) by omega, ih _ _ (by omega)]
    by_cases hj : j = k
    · subst hj
      rw [if_neg (by omega), if_pos (by omega), Block.entry_put_self _ _ (by omega)]
    · rw [Block.entry_put_of_ne _ _ (Ne.symm hj)]
      exact if_congr (by omega) rfl rfl

/-- The slots `rm` marks. -/
theorem markDeleted_run (buf : Block) {m i : ℕ} (hm : m ≤ i) (hi : i < 16) (j : ℕ) :
    (markDeleted (buf.put (32 * i) deleted) (32 * m) ((32 * i - 32 * m) / 32)).entry (32 * j) =
      if m ≤ j ∧ j ≤ i then (buf.entry (32 * j)).setByte 0 deleted else buf.entry (32 * j) := by
  rw [show (32 * i - 32 * m) / 32 = i - m by omega, markDeleted_entry _ _ _ (by omega)]
  by_cases hj : j = i
  · subst hj
    rw [if_neg (by omega), if_pos (by omega), Block.entry_put_self _ _ hi]
  · rw [Block.entry_put_of_ne _ _ (Ne.symm hj)]
    exact if_congr (by omega) rfl rfl

/-- The long-name entries before slot `n` of a sector that `mv` marks. -/
theorem markLfnBefore_entry (b : Block) (n : ℕ) (hn : n ≤ 16) : ∃ m ≤ n,
    (∀ j, m ≤ j → j < n → (b.entry (32 * j)).attr = 0x0F) ∧
      ∀ j, (markLfnBefore b n).entry (32 * j) =
        if m ≤ j ∧ j < n then (b.entry (32 * j)).setByte 0 deleted else b.entry (32 * j) := by
  induction n generalizing b with
  | zero => exact ⟨0, le_refl _, by omega, fun j => by rw [markLfnBefore, if_neg (by omega)]⟩
  | succ n ih =>
    rw [markLfnBefore]
    by_cases h : (b.entry (32 * n)).attr = 0x0F ∧ b.entry (32 * n) 0 ≠ deleted
    · rw [if_pos h]
      obtain ⟨m, hm, hattr, hent⟩ := ih (b.put (32 * n) deleted) (by omega)
      have hne : ∀ j, j ≠ n → (b.put (32 * n) deleted).entry (32 * j) = b.entry (32 * j) :=
        fun j hj => Block.entry_put_of_ne _ _ (Ne.symm hj)
      refine ⟨m, by omega, fun j h1 h2 => ?_, fun j => ?_⟩
      · by_cases hj : j = n
        · rw [hj]
          exact h.1
        · rw [← hne j hj]
          exact hattr j h1 (by omega)
      · rw [hent j]
        by_cases hj : j = n
        · subst hj
          rw [if_neg (by omega), if_pos (by omega), Block.entry_put_self _ _ (by omega)]
        · rw [hne j hj]
          exact if_congr (by omega) rfl rfl
    · rw [if_neg h]
      exact ⟨n + 1, le_refl _, by omega, fun j => by rw [if_neg (by omega)]⟩

namespace Volume

variable {v v' : Volume} {X : ℕ → Bool → Prop} {o : Owner ℕ DirCursor} {D : ℕ} {l : List ℕ}
  {A B R : List DirCursor} {q : DirCursor}

/-- The slots `R` are marked as deleted: the last one is `q`, the others are long-name entries. -/
structure Marked (v v' : Volume) (l : List ℕ) (A R B : List DirCursor) (q : DirCursor) : Prop where
  edit : Edit v v' (R ++ [q])
  slots_eq : v.slots l = A ++ ((R ++ [q]) ++ B)
  before : ∀ p ∈ A ++ R, v.entry p 0 ≠ 0
  named : v.entry q 0 ≠ 0
  lfn : ∀ p ∈ R, (v.entry p).attr = 0x0F
  marked : ∀ p ∈ R ++ [q], v'.entry p = (v.entry p).setByte 0 deleted

namespace Marked

variable (h : Marked v v' l A R B q)

include h

theorem stored : Stored v v' l A (R ++ [q]) B where
  edit := h.edit
  slots_eq := h.slots_eq
  before p hp := h.before p (List.mem_append_left _ hp)
  stored p hp := by
    rw [h.marked p hp, Entry.setByte_zero]
    decide
  tail := .inl fun p hp => by
    rcases List.mem_append.mp hp with hp | hp
    · exact h.before p (List.mem_append_right _ hp)
    · rw [List.mem_singleton.mp hp]
      exact h.named

theorem not_refers {p : DirCursor} (hp : p ∈ R ++ [q]) (c : ℕ) (b : Bool) :
    ¬ (v'.entry p).Refers c b := by
  rw [h.marked p hp]
  exact Entry.not_refers_of_deleted _ c b

theorem not_refs_lfn {p : DirCursor} (hp : p ∈ R) (c : ℕ) (b : Bool) : ¬ v.forest.refs l p c b :=
  fun hr => Entry.not_refers_of_lfn (h.lfn p hp) c b hr.2

/-- An entry without a chain is removed. -/
theorem keep (hc : v.forest.Consistent X) (ho : v.forest.Owns X o D true)
    (hl : v.forest.Chain D l) (hq : ∀ c b, ¬ v.forest.refs l q c b) :
    v'.forest.Consistent X ∧ v'.forest.Owns X o D true := by
  have hold : ∀ p ∈ R ++ [q], ∀ c b, ¬ v.forest.refs l p c b := fun p hp c b => by
    rcases List.mem_append.mp hp with hp | hp
    · exact h.not_refs_lfn hp c b
    · rw [List.mem_singleton.mp hp]
      exact hq c b
  exact ⟨h.stored.keep hc ho hl fun p hp c b => iff_of_false (hold p hp c b) (h.not_refers hp c b),
    h.stored.owns hc ho hl hold (fun _ _ => id) ho⟩

/-- The chain of a removed entry becomes a root. -/
theorem detach {c : ℕ} {b : Bool} (hc : v.forest.Consistent X) (ho : v.forest.Owns X o D true)
    (hl : v.forest.Chain D l) (hq : v.forest.refs l q c b) :
    v'.forest.Consistent (withRoot X c b) ∧ v'.forest.Owns X o D true := by
  refine h.stored.detach hc ho hl (fun _ _ => Iff.rfl) (q := q) (by simp) hq (fun p hp hne => ?_)
    fun p hp => h.not_refers hp
  rcases List.mem_append.mp hp with hp | hp
  · exact h.not_refs_lfn hp
  · exact absurd (List.mem_singleton.mp hp) hne

end Marked

end Volume

open Volume

/-- `rm`: the entry may stand for a chain that is freed as a whole, if that is no directory with
entries. -/
def DeleteSafe (fs : Fat32Instance) (d : Disk) (path : CString) : Prop :=
  OnDir fs d path fun p name _ => ∀ q buf start,
    deleteSearch fs d (orRoot fs p) name = some (q, buf, start) →
      2 ≤ (buf.entry q.offsetInSector).clus → ¬ (buf.entry q.offsetInSector).IsDot ∧
        ∀ m, (volume fs d).forest.Chain (buf.entry q.offsetInSector).clus m → m.length ≤ 65536 ∧
          ((buf.entry q.offsetInSector).isDir = true → ∀ r c b, ¬ (volume fs d).forest.refs m r c b)

namespace Geometry

variable {fs : Fat32Instance} (g : Geometry fs) {d : Disk} {c : ℕ} {l : List ℕ}

include g

omit g in
/-- A cursor that does not reach a sector's first slot stays in its sector. -/
theorem dirCursorAdvance_inSector {p q : DirCursor} (h : dirCursorAdvance fs d p = some q)
    (h0 : q.offsetInSector ≠ 0) : q = { p with offsetInSector := p.offsetInSector + 32 } := by
  rw [dirCursorAdvance] at h
  by_cases h1 : p.offsetInSector + 32 < 512
  · rw [if_pos h1] at h
    exact (Option.some.inj h).symm
  · rw [if_neg h1] at h
    by_cases h2 : p.sectorInCluster + 1 < fs.sectorsPerCluster
    · rw [if_pos h2] at h
      exact absurd (congrArg DirCursor.offsetInSector (Option.some.inj h)).symm h0
    · rw [if_neg h2] at h
      by_cases h3 : clusterHasNext (fatGetEntry fs d p.cluster)
      · simp only [h3, if_true] at h
        exact absurd (congrArg DirCursor.offsetInSector (Option.some.inj h)).symm h0
      · simp only [h3] at h
        cases h

/-- The slots before a slot of the same sector. -/
theorem slots_before (h : (volume fs d).forest.Chain c l) {A B : List DirCursor} {cl s i n : ℕ}
    (hs : (volume fs d).slots l = A ++ ⟨cl, s, 32 * i⟩ :: B) (hn : n ≤ i) :
    ∃ A', A = A' ++ sectorRun cl s (i - n) n := by
  induction n with
  | zero => exact ⟨A, by simp [sectorRun]⟩
  | succ n ih =>
    obtain ⟨A', rfl⟩ := ih (by omega)
    -- the slot before the run is not the first one of the directory
    have hprev : ∃ A'' p, A' = A'' ++ [p] ∧ p = ⟨cl, s, 32 * (i - n - 1)⟩ := by
      have hhead : (sectorRun cl s (i - n) n ++ ⟨cl, s, 32 * i⟩ :: B).head? =
          some ⟨cl, s, 32 * (i - n)⟩ := by
        cases n with
        | zero => rfl
        | succ n => rfl
      obtain ⟨T, hT⟩ : ∃ T, sectorRun cl s (i - n) n ++ ⟨cl, s, 32 * i⟩ :: B =
          ⟨cl, s, 32 * (i - n)⟩ :: T := ⟨_, (List.cons_head?_tail hhead).symm⟩
      rw [List.append_assoc, hT] at hs
      rcases List.eq_nil_or_concat A' with rfl | ⟨A'', p, rfl⟩
      · obtain ⟨t, rfl⟩ := h.1.eq_cons
        obtain ⟨U, hU⟩ := clusterSlots_eq_cons g.sectors_pos c
        have hfirst : (volume fs d).slots (c :: t) = ⟨c, 0, 0⟩ :: (U ++ (volume fs d).slots t) := by
          rw [slots, List.flatMap_cons]
          show clusterSlots fs.sectorsPerCluster c ++ _ = _
          rw [hU]
          rfl
        rw [hfirst, List.nil_append] at hs
        have := (List.cons.inj hs).1
        simp only [DirCursor.mk.injEq] at this
        omega
      · refine ⟨A'', p, List.concat_eq_append, ?_⟩
        rw [List.concat_eq_append, List.append_assoc] at hs
        have hadv := dirCursorAdvance_inSector (g.dirCursorAdvance_of_slots h hs)
          (show 32 * (i - n) ≠ 0 by omega)
        obtain ⟨pc, ps, po⟩ := p
        simp only [DirCursor.mk.injEq] at hadv ⊢
        omega
    obtain ⟨A'', p, rfl, rfl⟩ := hprev
    refine ⟨A'', ?_⟩
    rw [List.append_assoc, show i - n - 1 = i - (n + 1) by omega]
    congr 1
    rw [sectorRun, sectorRun, List.range'_succ, List.map_cons,
      show i - (n + 1) + 1 = i - n by omega]
    rfl

/-- A sector write that marks the slots `m` to `i` of a sector. -/
theorem marked_of_block (h : (volume fs d).forest.Chain c l) {A B : List DirCursor} {q : DirCursor}
    {i m : ℕ} (buf : Block) (hs : (volume fs d).slots l = A ++ q :: B)
    (hA : ∀ p ∈ A, (volume fs d).entry p 0 ≠ 0) (hq : (volume fs d).entry q 0 ≠ 0)
    (hoff : q.offsetInSector = 32 * i) (hm : m ≤ i)
    (hattr : ∀ j, m ≤ j → j < i → (((volume fs d).block q).entry (32 * j)).attr = 0x0F)
    (hbuf : ∀ j, buf.entry (32 * j) = if m ≤ j ∧ j ≤ i then
      (((volume fs d).block q).entry (32 * j)).setByte 0 deleted
      else ((volume fs d).block q).entry (32 * j)) :
    ∃ A' R, Marked (volume fs d)
      (volume fs (d.write (dirCursorSector fs q) buf)) l A' R B q := by
  obtain ⟨qc, qs, qo⟩ := q
  simp only at hoff
  subst hoff
  have hqs : (⟨qc, qs, 32 * i⟩ : DirCursor) ∈ (volume fs d).slots l := by rw [hs]; simp
  have hi : i < 16 := by
    obtain ⟨k, hk, hik⟩ := aligned_of_slots hqs
    simp only at hik
    omega
  -- the marked slots lie side by side in one sector
  obtain ⟨A', rfl⟩ := g.slots_before h hs (n := i - m) (by omega)
  rw [show i - (i - m) = m by omega] at hs hA
  rw [g.volume_write_slot h.2 hqs]
  have hmem : ∀ {p}, p ∈ sectorRun qc qs m (i - m) ++ [⟨qc, qs, 32 * i⟩] ↔
      p.cluster = qc ∧ p.sectorInCluster = qs ∧ ∃ j, m ≤ j ∧ j ≤ i ∧ p.offsetInSector = 32 * j := by
    intro p
    have := (sectorRun_succ qc qs m (i - m)).symm
    rw [show m + (i - m) = i by omega] at this
    rw [this, mem_sectorRun]
    constructor
    · rintro ⟨h1, h2, j, h3, h4, h5⟩
      exact ⟨h1, h2, j, h3, by omega, h5⟩
    · rintro ⟨h1, h2, j, h3, h4, h5⟩
      exact ⟨h1, h2, j, h3, by omega, h5⟩
  refine ⟨A', sectorRun qc qs m (i - m), edit_setData (by simp) (fun p hp => (hmem.mp hp).1)
    fun j hj hjR => ?_, by rw [hs]; simp, hA, hq, fun p hp => ?_, fun p hp => ?_⟩
  · rw [hbuf, if_neg]
    · rfl
    · exact fun hh => hjR (hmem.mpr ⟨rfl, rfl, j, hh.1, hh.2, rfl⟩)
  · obtain ⟨h1, h2, j, h3, h4, h5⟩ := mem_sectorRun.mp hp
    rw [entry, h1, h2, h5]
    exact hattr j h3 (by omega)
  · obtain ⟨h1, h2, j, h3, h4, h5⟩ := hmem.mp hp
    rw [setData_entry, if_pos ⟨h1, h2⟩, h5, hbuf, if_pos ⟨h3, h4⟩, entry, h1, h2, h5]
    rfl

/-! ## The search of `rm` -/

/-- The invariant of the search: the remembered offset is where the long-name entries right before
the current slot start. -/
private def DelInv (v : Volume) (A : List DirCursor) (st : DeleteState) : Prop :=
  (∀ p ∈ A, v.entry p 0 ≠ 0) ∧ st.found = none ∧ ∀ j, st.lfnStartIdx = some j →
    ∃ A' c s k n, A = A' ++ sectorRun c s k (n + 1) ∧ j = 32 * k ∧
      ∀ p ∈ sectorRun c s k (n + 1), (v.entry p).attr = 0x0F

/-- A remembered offset lies in the sector of the current slot, unless that is a sector's first. -/
private theorem delInv_next (h : (volume fs d).forest.Chain c l) {A B : List DirCursor}
    {p : DirCursor} {st : DeleteState} {j : ℕ} (hI : DelInv (volume fs d) A st)
    (hs : (volume fs d).slots l = A ++ p :: B) (hp : p.offsetInSector ≠ 0)
    (hj : st.lfnStartIdx = some j) : ∃ A' c s k n, A = A' ++ sectorRun c s k (n + 1) ∧ j = 32 * k ∧
      (∀ p ∈ sectorRun c s k (n + 1), ((volume fs d).entry p).attr = 0x0F) ∧
        p = ⟨c, s, 32 * (k + n + 1)⟩ := by
  obtain ⟨A', c', s, k, n, rfl, rfl, hattr⟩ := hI.2.2 j hj
  refine ⟨A', c', s, k, n, rfl, rfl, hattr, ?_⟩
  rw [sectorRun_succ, ← List.append_assoc, List.append_assoc] at hs
  have := dirCursorAdvance_inSector (g.dirCursorAdvance_of_slots h hs) hp
  rw [this]
  rfl

private theorem delInv_step (h : (volume fs d).forest.Chain c l) {A B : List DirCursor}
    {p : DirCursor} {st st' : DeleteState} {target : CString}
    (hI : DelInv (volume fs d) A st) (hs : (volume fs d).slots l = A ++ p :: B)
    (hf : deleteBody target st p ((volume fs d).block p) = (st', false)) :
    DelInv (volume fs d) (A ++ [p]) st' := by
  have hsnoc : (volume fs d).entry p 0 ≠ 0 → ∀ q ∈ A ++ [p], (volume fs d).entry q 0 ≠ 0 :=
    fun h0 q hq => by
      rcases List.mem_append.mp hq with hq | hq
      · exact hI.1 q hq
      · rwa [List.mem_singleton.mp hq]
  rw [deleteBody, ← Volume.entry_eq] at hf
  by_cases h0 : (volume fs d).entry p 0 = 0
  · rw [if_pos h0] at hf
    cases hf
  rw [if_neg h0] at hf
  by_cases hdel : (volume fs d).entry p 0 = deleted
  · rw [if_pos hdel] at hf
    cases hf
    exact ⟨hsnoc h0, hI.2.1, nofun⟩
  rw [if_neg hdel] at hf
  by_cases hL : ((volume fs d).entry p).attr = 0x0F
  · rw [if_pos hL] at hf
    cases hf
    refine ⟨hsnoc h0, hI.2.1, fun j hj => ?_⟩
    obtain ⟨i, -, hi⟩ := aligned_of_slots (v := volume fs d) (l := l) (p := p) (by rw [hs]; simp)
    -- a run that starts with this slot
    have hfresh : p.offsetInSector = j → ∃ A' c s k n, A ++ [p] = A' ++ sectorRun c s k (n + 1) ∧
        j = 32 * k ∧ ∀ q ∈ sectorRun c s k (n + 1), ((volume fs d).entry q).attr = 0x0F := by
      rintro rfl
      refine ⟨A, p.cluster, p.sectorInCluster, i, 0, ?_, hi, fun q hq => ?_⟩
      · rw [sectorRun, List.range'_one, List.map_singleton, ← hi]
      · rw [sectorRun, List.range'_one, List.map_singleton, ← hi] at hq
        rwa [List.mem_singleton.mp hq]
    by_cases hp : p.offsetInSector = 0
    · rw [if_pos hp] at hj
      exact hfresh (Option.some.inj hj)
    · rw [if_neg hp] at hj
      rcases hst : st.lfnStartIdx with _ | j'
      · rw [hst] at hj
        exact hfresh (Option.some.inj hj)
      · rw [hst] at hj
        obtain rfl : j' = j := Option.some.inj hj
        obtain ⟨A', c', s, k, n, rfl, rfl, hattr, rfl⟩ := g.delInv_next h hI hs hp hst
        refine ⟨A', c', s, k, n + 1, ?_, rfl, fun q hq => ?_⟩
        · rw [sectorRun_succ (n := n + 1), ← List.append_assoc]
          rfl
        · rw [sectorRun_succ (n := n + 1)] at hq
          rcases List.mem_append.mp hq with hq | hq
          · exact hattr q hq
          · rwa [List.mem_singleton.mp hq]
  rw [if_neg hL] at hf
  by_cases hV : ((volume fs d).entry p).attr &&& 0x08 = 0
  · rw [if_neg (not_not.mpr hV)] at hf
    by_cases hM : entryMatches st.lfnBuf ((volume fs d).entry p) target = true
    · rw [if_pos hM] at hf
      cases hf
    · rw [if_neg hM] at hf
      cases hf
      exact ⟨hsnoc h0, hI.2.1, nofun⟩
  · rw [if_pos hV] at hf
    cases hf
    exact ⟨hsnoc h0, hI.2.1, nofun⟩

omit g in
private theorem delInv_stop {A : List DirCursor} {p : DirCursor} {st st' : DeleteState}
    {target : CString} (hI : DelInv (volume fs d) A st)
    (hf : deleteBody target st p ((volume fs d).block p) = (st', true)) :
    st'.found = none ∨ ((volume fs d).entry p).IsNamed ∧
      st'.found = some (p, (volume fs d).block p) ∧
      st'.lfnStartIdx = if p.offsetInSector = 0 then none else st.lfnStartIdx := by
  rw [deleteBody, ← Volume.entry_eq] at hf
  by_cases h0 : (volume fs d).entry p 0 = 0
  · rw [if_pos h0] at hf
    cases hf
    exact .inl hI.2.1
  rw [if_neg h0] at hf
  by_cases hdel : (volume fs d).entry p 0 = deleted
  · rw [if_pos hdel] at hf
    cases hf
  rw [if_neg hdel] at hf
  by_cases hL : ((volume fs d).entry p).attr = 0x0F
  · rw [if_pos hL] at hf
    cases hf
  rw [if_neg hL] at hf
  by_cases hV : ((volume fs d).entry p).attr &&& 0x08 = 0
  · rw [if_neg (not_not.mpr hV)] at hf
    by_cases hM : entryMatches st.lfnBuf ((volume fs d).entry p) target = true
    · rw [if_pos hM] at hf
      cases hf
      exact .inr ⟨⟨fun h => h.elim h0 hdel, hL, hV⟩, rfl, rfl⟩
    · rw [if_neg hM] at hf
      cases hf
  · rw [if_pos hV] at hf
    cases hf

/-- What the search of `rm` yields: a named entry, and the long-name entries before it. -/
theorem deleteSearch_spec {p : ℕ} (hl : (volume fs d).forest.Chain (dirHead fs p) l)
    {name : CString} {q : DirCursor} {buf : Block} {start : ℕ}
    (h : deleteSearch fs d (orRoot fs p) name = some (q, buf, start)) :
    ∃ A B i m, (volume fs d).slots l = A ++ q :: B ∧ (∀ p ∈ A, (volume fs d).entry p 0 ≠ 0) ∧
      ((volume fs d).entry q).IsNamed ∧ buf = (volume fs d).block q ∧ q.offsetInSector = 32 * i ∧
      i < 16 ∧ start = 32 * m ∧ m ≤ i ∧
      ∀ j, m ≤ j → j < i → (((volume fs d).block q).entry (32 * j)).attr = 0x0F := by
  obtain ⟨last, h1, -⟩ := g.scanChain_eq (deleteBody name) hl 4096 (dirHead fs p)
    ⟨.clear, none, none⟩
  have hslots : ∀ {A : List DirCursor} {r : DirCursor} {B : List DirCursor},
      (volume fs d).walked l = A ++ r :: B →
        (volume fs d).slots l = A ++ r :: (B ++ (volume fs d).slots (l.drop walkLimit)) :=
    fun hw => by
      rw [slots_eq_walked_append, hw]
      simp
  rw [deleteSearch, g.dirStart_eq (c := dirHead fs p) rfl hl] at h
  simp only [h1] at h
  -- the invariant of the loop, up to the entry at which it stops
  rcases scan_rule (f := fun st p => deleteBody name st p ((volume fs d).block p))
    ((volume fs d).walked l) ⟨.clear, none, none⟩ (DelInv (volume fs d))
    ⟨by simp, rfl, nofun⟩ fun hw hI hf => g.delInv_step hl hI (hslots hw) hf with
    ⟨A, r, B, st, st', hw, hI, hf, hr⟩ | ⟨st', hI, hr⟩
  · have hr' : scan (fun st p => deleteBody name st p ((volume fs d).block p))
      ((volume fs d).slots (l.take 4096)) ⟨.clear, none, none⟩ = (st', true) := hr
    rw [hr'] at h
    rcases delInv_stop hI hf with hnone | ⟨hn, hfound, hidx⟩
    · rw [hnone] at h
      cases h
    · rw [hfound, Option.map_some, Option.some.injEq, Prod.mk.injEq, Prod.mk.injEq] at h
      obtain ⟨rfl, rfl, rfl⟩ := h
      have hs := hslots hw
      obtain ⟨i, hi16, hi⟩ := aligned_of_slots (v := volume fs d) (l := l) (p := r)
        (by rw [hs]; simp)
      rw [hidx]
      have hself : ∃ m, r.offsetInSector = 32 * m ∧ m ≤ i ∧
          ∀ j, m ≤ j → j < i → (((volume fs d).block r).entry (32 * j)).attr = 0x0F :=
        ⟨i, hi, le_refl _, by omega⟩
      -- the run of long-name entries starts where the loop remembers it, or at the entry itself
      suffices hrun : ∃ m, (if r.offsetInSector = 0 then none else st.lfnStartIdx).getD
          r.offsetInSector = 32 * m ∧ m ≤ i ∧
            ∀ j, m ≤ j → j < i → (((volume fs d).block r).entry (32 * j)).attr = 0x0F by
        obtain ⟨m, h1, h2, h3⟩ := hrun
        exact ⟨A, _, i, m, hs, hI.1, hn, rfl, hi, hi16, h1, h2, h3⟩
      by_cases h0 : r.offsetInSector = 0
      · rw [if_pos h0]
        exact hself
      · rw [if_neg h0]
        rcases hst : st.lfnStartIdx with _ | j
        · exact hself
        · obtain ⟨A', c', s, k, n, rfl, rfl, hattr, rfl⟩ :=
            g.delInv_next hl hI hs h0 hst
          simp only at hi
          refine ⟨k, rfl, by omega, fun j h1 h2 => ?_⟩
          exact hattr ⟨c', s, 32 * j⟩ (mem_sectorRun.mpr ⟨rfl, rfl, j, h1, by omega, rfl⟩)
  · have hr' : scan (fun st p => deleteBody name st p ((volume fs d).block p))
      ((volume fs d).slots (l.take 4096)) ⟨.clear, none, none⟩ = (st', false) := hr
    rw [hr', hI.2.1] at h
    cases h

/-! ## `rm` -/

theorem fat32DeleteFile_consistent {path : CString} (hc : (volume fs d).Consistent fs.rootCluster)
    (hsafe : DeleteSafe fs d path) :
    (volume fs (fat32DeleteFile fs d path).2).Consistent fs.rootCluster := by
  rw [fat32DeleteFile]
  rcases hres : resolveTarget fs d path with _ | ⟨p, name⟩
  · exact hc
  obtain ⟨l, hdir, hsafe⟩ := hsafe p name hres
  rcases hsearch : deleteSearch fs d (orRoot fs p) name with _ | ⟨q, buf, start⟩
  · simp only [hsearch]
    exact hc
  simp only [hsearch, g.write]
  obtain ⟨o, ho⟩ := hdir.owner
  have hsafe := hsafe q buf start hsearch
  obtain ⟨A, B, i, m, hs, hA, hn, rfl, hi, hi16, rfl, hm, hattr⟩ := g.deleteSearch_spec hdir.chain hsearch
  have hent : ((volume fs d).block q).entry q.offsetInSector = (volume fs d).entry q := rfl
  rw [hent] at hsafe ⊢
  obtain ⟨A', R, hmk⟩ := g.marked_of_block hdir.chain
    (markDeleted (((volume fs d).block q).put q.offsetInSector deleted) (32 * m)
      ((q.offsetInSector - 32 * m) / 32)) hs hA (fun h => hn.1 (.inl h)) hi hm hattr fun j => by
        rw [hi]
        exact markDeleted_run _ hm hi16 j
  set d₁ := d.write (dirCursorSector fs q) (markDeleted (((volume fs d).block q).put
    q.offsetInSector deleted) (32 * m) ((q.offsetInSector - 32 * m) / 32))
  have hrefs : ∀ c b, (volume fs d).forest.refs l q c b ↔ ((volume fs d).entry q).Refers c b :=
    fun c b => by rw [refs_iff, and_iff_right (mem_beforeEnd_of_used hs hA fun h => hn.1 (.inl h))]
  by_cases h2 : 2 ≤ ((volume fs d).entry q).clus
  · obtain ⟨hdot, hchain⟩ := hsafe h2
    have href : (volume fs d).forest.refs l q ((volume fs d).entry q).clus
        ((volume fs d).entry q).isDir := (hrefs _ _).mpr ⟨hn, hdot, rfl, h2, rfl⟩
    obtain ⟨k, hk⟩ := hc.chain (.ref ho hdir.chain.1 href)
    obtain ⟨hlen, hempty⟩ := hchain k hk
    obtain ⟨hc₁, -⟩ := hmk.detach hc ho hdir.chain href
    have hk₁ := hmk.edit.chain hk
    obtain ⟨d₂, hfree, hv₂, -⟩ := g.fatFreeChain_spec hk₁
    rw [List.take_of_length_le hlen] at hv₂
    rw [if_pos h2, hfree]
    simp only
    rw [hv₂]
    have hoq : (volume fs d).forest.Owns (rootOnly fs.rootCluster) (.ref q)
        ((volume fs d).entry q).clus ((volume fs d).entry q).isDir := .ref ho hdir.chain.1 href
    refine clear_consistent hc₁ (.inr ⟨rfl, rfl⟩) hk₁
      (withRoot_iff (not_root_of_ref hc hoq)) fun hb r c b hr => ?_
    rw [hb] at hoq href
    by_cases heq : Owner.ref q = o
    · -- the entry would be in the directory it names
      subst heq
      obtain ⟨hD, -⟩ := hc.owns_fun hoq ho
      rw [hD] at hk
      obtain rfl := hk.unique hdir.chain
      exact hempty hb _ _ _ href
    · exact hempty hb r c b ((hmk.stored.refs_other hc ho hdir.chain hoq hk heq r c b).mp hr)
  · rw [if_neg h2]
    exact (hmk.keep hc ho hdir.chain fun c b hr =>
      Entry.not_refers_of_clus (by omega) c b ((hrefs c b).mp hr)).1

/-! ## `mv` -/

omit g in
theorem generateShortAlias_getD {p : ℕ} {name : CString} {cand : List UInt8}
    (h : generateShortAlias fs d p name = some cand) :
    cand.getD 0 0 ≠ 0 ∧ cand.getD 0 0 ≠ deleted ∧ cand.getD 0 0 ≠ dot := by
  rw [generateShortAlias] at h
  generalize 999999 = n, 1 = suffix at h
  induction n generalizing suffix with
  | zero => exact nomatch h
  | succ n ih =>
    rw [generateShortAliasFrom] at h
    rcases hc : aliasCandidate name suffix with _ | candidate
    · rw [hc] at h
      exact nomatch h
    · simp only [hc] at h
      by_cases htaken : dirHasRaw83 fs d p candidate
      · rw [if_pos htaken] at h
        exact ih _ h
      · rw [if_neg htaken] at h
        obtain rfl := Option.some.inj h
        exact aliasCandidate_getD hc

omit g in
/-- Slots with the long-name entries of a name hold long-name entries. -/
theorem lfn_of_map {v : Volume} {R : List DirCursor} {name : CString} {sum : UInt8} {count : ℕ}
    (h : R.map v.entry = lfnEntries name sum count count) (hcount : count < 64) {r : DirCursor}
    (hr : r ∈ R) : (v.entry r).attr = 0x0F ∧ v.entry r 0 ≠ 0 := by
  have hmem : v.entry r ∈ lfnEntries name sum count count := h ▸ List.mem_map_of_mem hr
  obtain ⟨k, h1, h2, hk⟩ := mem_lfnEntries.mp hmem
  rw [hk]
  exact ⟨lfnEntry_attr _ _ _ _, lfnEntry_zero h1 (by omega)⟩

/-- The entries of a name stored in a run of slots: long-name entries, then the short entry. -/
theorem storeNamed_spec (name : CString) (sum : UInt8) {count : ℕ}
    (h : (volume fs d).forest.Chain c l) {A B R : List DirCursor} {p : DirCursor}
    (hs : (volume fs d).slots l = A ++ (R ++ B)) (hlen : R.length = count + 1)
    (hhead : R.head? = some p) (e : Entry) :
    ∃ R₀ q d₁ d', R = R₀ ++ [q] ∧ writeLfnEntries fs name sum count count p d = (some q, d₁) ∧
      dirWriteEntryAt fs d₁ q e = (true, d') ∧ Edit (volume fs d) (volume fs d') (R₀ ++ [q]) ∧
      (volume fs d').entry q = e ∧
      R₀.map (volume fs d').entry = lfnEntries name sum count count := by
  obtain ⟨R₀, q, rfl⟩ : ∃ R₀ q, R = R₀ ++ [q] := by
    rcases List.eq_nil_or_concat R with rfl | ⟨R₀, q, rfl⟩
    · cases hhead
    · exact ⟨R₀, q, List.concat_eq_append⟩
  rw [List.length_append, List.length_singleton] at hlen
  have hs' : (volume fs d).slots l = A ++ (R₀ ++ q :: B) := by rw [hs]; simp
  obtain ⟨d₁, hw, hE, hlfn, -⟩ := g.writeLfnEntries_spec name sum count count h hs' (by omega) hhead
  have hq₁ : q ∈ (volume fs d₁).slots l := by
    rw [slots_congr hE.sectorsPerCluster, hs']
    simp
  obtain ⟨d', hwe, hv, -⟩ := g.dirWriteEntryAt_spec (hE.chain h).2 hq₁ e
  obtain ⟨hE', hent⟩ := setEntry_edit (v := volume fs d₁) (aligned_of_slots hq₁) e
  rw [← hv] at hE' hent
  refine ⟨R₀, q, d₁, d', rfl, hw, hwe, hE.trans hE', hent, ?_⟩
  have hnd := (volume fs d).nodup_slots h.1.nodup
  rw [hs', List.nodup_append, List.nodup_append] at hnd
  rw [← hlfn]
  refine List.map_congr_left fun r hr => hE'.entry_eq r ?_ ?_
  · exact aligned_of_slots (v := volume fs d) (l := l) (by
      rw [hs']
      exact List.mem_append_right _ (List.mem_append_left _ hr))
  · exact fun hrq => hnd.2.1.2.2 r hr q List.mem_cons_self (List.mem_singleton.mp hrq)

end Geometry

/-- The disk after the first write of a rename that needs long-name entries. -/
def unlinked (d : Disk) (f : FoundEntry) : Disk :=
  d.write f.sector (markLfnBefore ((d.sectors f.sector).put f.offset deleted) (f.offset / 32))

/-- Renaming the entry `e` in place: its new name can stand for its chain. -/
def RenameInPlaceSafe (e : Entry) (new : CString) : Prop := 2 ≤ e.clus → ¬ e.IsDot ∧ NameOk new

/-- Renaming the entry `e` to a long name: there is room for the new entries, and if `e` stands for a
chain they can be stored. `d` is the disk with the old entry removed. -/
structure RenameLongSafe (fs : Fat32Instance) (d : Disk) (p : ℕ) (l : List ℕ) (e : Entry)
    (new : CString) : Prop where
  run : Geometry.RunSafe fs d (orRoot fs p) ((new.length + 12) / 13 + 1) l
  notDot : 2 ≤ e.clus → ¬ e.IsDot
  shortAlias : 2 ≤ e.clus → generateShortAlias fs d (orRoot fs p) new ≠ none
  room : 2 ≤ e.clus → ∀ st last, findRun fs d (orRoot fs p) ((new.length + 12) / 13 + 1) =
    some (st, last, false) → (volume fs d).freeClusters ≠ []

/-- `mv` -/
def RenameSafe (fs : Fat32Instance) (d : Disk) (oldPath newPath : CString) : Prop :=
  ∀ p old new, resolveTarget fs d oldPath = some (p, old) →
    resolveTarget fs d newPath = some (p, new) → ∃ l, DirAt fs d p l ∧
      ∀ f, lookup fs d p old = some f →
        (nameNeedsLfn new = false → RenameInPlaceSafe (f.entry d) new) ∧
        (nameNeedsLfn new = true → RenameLongSafe fs (unlinked d f) p l (f.entry d) new)

namespace Geometry

variable {fs : Fat32Instance} (g : Geometry fs) {d : Disk} {c : ℕ} {l : List ℕ}

include g

/-- What is left of a rename to a long name once the old entry is removed: nothing is stored, or a run
of free slots, the directory grown if need be, takes the entries of the new name. -/
theorem dirWriteNamedEntry_spec (clus size : ℕ) (attr : UInt8) {p : ℕ} {new : CString}
    (hlen : new.length ≤ 63) (hneeds : nameNeedsLfn new = true)
    (hl : (volume fs d).forest.Chain (dirHead fs p) l)
    (hrun : RunSafe fs d (orRoot fs p) ((new.length + 12) / 13 + 1) l) :
    ∃ r d', dirWriteNamedEntry fs d (orRoot fs p) new clus size attr = (r, d') ∧
      (r = false ∧ volume fs d' = volume fs d ∧ (generateShortAlias fs d (orRoot fs p) new = none ∨
          (volume fs d).freeClusters = [] ∧ ∃ st last,
            findRun fs d (orRoot fs p) ((new.length + 12) / 13 + 1) = some (st, last, false)) ∨
        r = true ∧ ∃ v₁ l' A R B q cand, (v₁ = volume fs d ∧ l' = l ∧
              (∃ st last, findRun fs d (orRoot fs p) ((new.length + 12) / 13 + 1) =
                some (st, last, true)) ∨
            ∃ n, Grown (volume fs d) v₁ l n ∧ l' = l ++ [n] ∧
              (∃ st last, findRun fs d (orRoot fs p) ((new.length + 12) / 13 + 1) =
                some (st, last, false)) ∧ q.cluster = n) ∧
          FreeRun v₁ l' A (R ++ [q]) B ∧ Edit v₁ (volume fs d') (R ++ [q]) ∧
          (volume fs d').entry q = shortEntry cand attr clus size ∧
          generateShortAlias fs d (orRoot fs p) new = some cand ∧
          R.map (volume fs d').entry = lfnEntries new (lfnChecksum cand)
            ((new.length + 12) / 13) ((new.length + 12) / 13)) := by
  rw [dirWriteNamedEntry, hneeds]
  simp only [if_true]
  rcases halias : generateShortAlias fs d (orRoot fs p) new with _ | cand
  · exact ⟨_, d, rfl, .inl ⟨rfl, rfl, .inl rfl⟩⟩
  have hcount : (new.length + 12) / 13 ≤ 5 := by omega
  simp only
  rw [if_neg (show ¬ 21 < (new.length + 12) / 13 + 1 by omega)]
  -- a directory without a run of free slots grows, unless the disk is full
  obtain ⟨r, d₁, hfind, -, ⟨rfl, hv, hfree, hfull⟩ |
    ⟨A, R, B, l', q₀, rfl, hhead, hRlen, hfr, hgrown⟩⟩ :=
    g.dirFindOrGrowRun_spec rfl hl (Nat.succ_pos _) (by omega) hrun
  · rw [hfind]
    exact ⟨_, d₁, rfl, .inl ⟨rfl, hv, .inr ⟨hfree, hfull⟩⟩⟩
  · rw [hfind]
    have hl' : (volume fs d₁).forest.Chain (dirHead fs p) l' := by
      rcases hgrown with ⟨rfl, rfl, -⟩ | ⟨n, hgr, rfl, -⟩
      · exact hl
      · exact hgr.chain hl
    obtain ⟨R₀, q, d₂, d₃, rfl, hw, hwe, hE, hent, hlfn⟩ := g.storeNamed_spec new
      (lfnChecksum cand) hl' hfr.slots_eq hRlen hhead (shortEntry cand attr clus size)
    simp only [hw, hwe]
    refine ⟨_, d₃, rfl, .inr ⟨rfl, volume fs d₁, l', A, R₀, B, q, cand, ?_, hfr, hE, hent, rfl,
      hlfn⟩⟩
    -- the last entry lies in the new cluster if there is one
    rcases hgrown with ⟨rfl, rfl, hfound⟩ | ⟨n, hgr, rfl, hnone, hlast⟩
    · exact .inl ⟨rfl, rfl, hfound⟩
    · exact .inr ⟨n, hgr, rfl, hnone, hlast q (by simp)⟩

omit g in
/-- Renaming an entry in place. -/
theorem renameInPlace_consistent {o : Owner ℕ DirCursor} {A B : List DirCursor} {q : DirCursor}
    {new : CString} (h0 : 0 ∉ new) (hc : (volume fs d).Consistent fs.rootCluster)
    (ho : (volume fs d).forest.Owns (rootOnly fs.rootCluster) o c true)
    (hl : (volume fs d).forest.Chain c l) (hp : Place (volume fs d) l A [q] B)
    (hrefs : ∀ c b, (volume fs d).forest.refs l q c b ↔ ((volume fs d).entry q).Refers c b)
    (hn : ((volume fs d).entry q).IsNamed) (hsafe : RenameInPlaceSafe ((volume fs d).entry q) new) :
    ((volume fs d).setEntry q (((volume fs d).entry q).setName (formatFat32Name new))).Consistent
      fs.rootCluster := by
  set e := (volume fs d).entry q
  have hz : e.setName (formatFat32Name new) 0 ≠ 0 := by
    rw [Entry.setName_zero]
    exact formatFat32Name_ne_zero h0
  refine (hp.setEntry hz).keep hc ho hl fun p hp' c b => ?_
  rw [List.mem_singleton.mp hp', hrefs, (setEntry_edit (aligned_of_slots hp.mem_slots) _).2]
  by_cases h2 : 2 ≤ e.clus
  · obtain ⟨hdot, hname⟩ := hsafe h2
    obtain ⟨h1, h2⟩ := formatFat32Name_of_nameOk h0 hname
    have hn' : (e.setName (formatFat32Name new)).IsNamed := ⟨fun hf => hf.elim hz h1, hn.2⟩
    have hdot' : ¬ (e.setName (formatFat32Name new)).IsDot := not_isDot_of_zero h2
    rw [Entry.Refers, Entry.Refers, Entry.clus_setName, Entry.isDir_congr (e.attr_setName _)]
    simp [hn, hn', hdot, hdot']
  · refine iff_of_false (Entry.not_refers_of_clus (by omega) c b) ?_
    exact Entry.not_refers_of_clus (by rw [Entry.clus_setName]; omega) c b

/-- The first write of a rename to a long name. -/
theorem unlinked_marked (hl : (volume fs d).forest.Chain c l) {A B : List DirCursor} {q : DirCursor}
    (hs : (volume fs d).slots l = A ++ q :: B) (hA : ∀ p ∈ A, (volume fs d).entry p 0 ≠ 0)
    (hq : (volume fs d).entry q 0 ≠ 0) (clus size : ℕ) : ∃ A' R, Marked (volume fs d)
      (volume fs (unlinked d ⟨dirCursorSector fs q, q.offsetInSector, clus, size⟩)) l A' R B q := by
  have hqs : q ∈ (volume fs d).slots l := by rw [hs]; simp
  obtain ⟨i, hi16, hi⟩ := aligned_of_slots hqs
  have hdiv : q.offsetInSector / 32 = i := by omega
  rw [unlinked]
  simp only [g.block_eq hl.2 hqs, hi]
  rw [show 32 * i / 32 = i by omega]
  obtain ⟨m, hm, hattr, hent⟩ :=
    markLfnBefore_entry (((volume fs d).block q).put (32 * i) deleted) i (by omega)
  have hput : ∀ j, j ≠ i → (((volume fs d).block q).put (32 * i) deleted).entry (32 * j) =
      ((volume fs d).block q).entry (32 * j) := fun j hj => Block.entry_put_of_ne _ _ (Ne.symm hj)
  refine g.marked_of_block hl _ hs hA hq hi hm (fun j h1 h2 => ?_) fun j => ?_
  · rw [← hput j (by omega)]
    exact hattr j h1 h2
  · rw [hent]
    by_cases hj : j = i
    · subst hj
      rw [if_neg (by omega), if_pos (by omega), Block.entry_put_self _ _ hi16]
    · rw [hput j hj]
      exact if_congr (by omega) rfl rfl

/-- The new entries of a rename to a long name stand for what the old entry stood for. -/
theorem renameLong_consistent {o : Owner ℕ DirCursor} {p size : ℕ} {e : Entry} {new : CString}
    (hlen : new.length ≤ 63) (hneeds : nameNeedsLfn new = true)
    (hcase : e.clus < 2 ∧ (volume fs d).Consistent fs.rootCluster ∨
      2 ≤ e.clus ∧ ¬ rootOnly fs.rootCluster e.clus e.isDir ∧
        (volume fs d).forest.Consistent (withRoot (rootOnly fs.rootCluster) e.clus e.isDir))
    (ho : (volume fs d).forest.Owns (rootOnly fs.rootCluster) o (dirHead fs p) true)
    (hl : (volume fs d).forest.Chain (dirHead fs p) l) (hn : e.IsNamed)
    (hsafe : RenameLongSafe fs d p l e new) :
    (volume fs (dirWriteNamedEntry fs d (orRoot fs p) new e.clus size e.attr).2).Consistent
      fs.rootCluster := by
  obtain ⟨r, d', hw, ⟨-, hv, hfail⟩ |
    ⟨-, v₁, l', A, R, B, q, cand, hgrown, hfr, hE, hent, halias, hmap⟩⟩ :=
    g.dirWriteNamedEntry_spec e.clus size e.attr hlen hneeds hl
      hsafe.run
  · rw [hw]
    simp only
    rcases hcase with ⟨-, hc⟩ | ⟨hclus, -, -⟩
    · rw [hv]
      exact hc
    · -- an entry with a chain is stored
      rcases hfail with halias | ⟨hfree, st, last, hfull⟩
      · exact absurd halias (hsafe.shortAlias hclus)
      · exact absurd hfree (hsafe.room hclus st last hfull)
  · obtain ⟨h1, h2, h3⟩ := generateShortAlias_getD halias
    rw [hw]
    simp only
    have hq : q ∈ R ++ [q] := by simp
    have hlfn : ∀ p ∈ R ++ [q], p ≠ q →
        ((volume fs d').entry p).attr = 0x0F ∧ (volume fs d').entry p 0 ≠ 0 := fun p hp hpq =>
      lfn_of_map hmap (by omega) ((List.mem_append.mp hp).resolve_right (by simpa using hpq))
    have hne : ∀ p ∈ R ++ [q], (volume fs d').entry p 0 ≠ 0 := fun p hp => by
      by_cases hpq : p = q
      · rw [hpq, hent, shortEntry_zero]
        exact h1
      · exact (hlfn p hp hpq).2
    have hst : Stored v₁ (volume fs d') l' A (R ++ [q]) B := hfr.place.stored hE hne
    -- the slot is taken in a directory that may have grown
    have hgrow : ∀ {X : ℕ → Bool → Prop}, (volume fs d).forest.Consistent X →
        (∀ c b, rootOnly fs.rootCluster c b → X c b) → v₁.forest.Consistent X ∧
          v₁.forest.Owns (rootOnly fs.rootCluster) o (dirHead fs p) true ∧
          v₁.forest.Chain (dirHead fs p) l' := by
      intro X hc hX
      rcases hgrown with ⟨rfl, rfl, -⟩ | ⟨n, hgr, rfl, -⟩
      · exact ⟨hc, ho, hl⟩
      · exact ⟨hgr.consistent hc (ho.mono hX) hl, hgr.owns hc hl (ho.mono hX) hX ho, hgr.chain hl⟩
    rcases hcase with ⟨hclus, hc⟩ | ⟨hclus, hroot, hc⟩
    · obtain ⟨hc₁, ho₁, hl₁⟩ := hgrow hc fun _ _ => id
      refine hst.keep hc₁ ho₁ hl₁ fun p hp c b => iff_of_false (hfr.not_refs hl₁.1.nodup hp c b) ?_
      by_cases hpq : p = q
      · rw [hpq, hent]
        exact Entry.not_refers_of_clus (by rwa [shortEntry_clus _ _ _ _ e.clus_lt]) c b
      · exact Entry.not_refers_of_lfn (hlfn p hp hpq).1 c b
    · obtain ⟨hc₁, ho₁, hl₁⟩ := hgrow hc fun _ _ => .inl
      have href : ((volume fs d').entry q).Refers e.clus e.isDir := by
        rw [hent]
        refine ⟨⟨fun hf => hf.elim h1 h2, hn.2.1, hn.2.2⟩, not_isDot_of_zero h3,
          shortEntry_clus _ _ _ _ e.clus_lt, hclus, Entry.isDir_congr (shortEntry_attr _ _ _ _)⟩
      exact hst.attach hc₁ (ho₁.mono fun _ _ => .inl) hl₁ (.inr ⟨rfl, rfl⟩) (withRoot_iff hroot) ho₁
        (fun p hp => hfr.not_refs hl₁.1.nodup hp) hq href fun p hp hpq =>
          Entry.not_refers_of_lfn (hlfn p hp hpq).1

theorem fat32RenameFile_consistent {oldPath newPath : CString} (h0 : 0 ∉ newPath)
    (hc : (volume fs d).Consistent fs.rootCluster) (hsafe : RenameSafe fs d oldPath newPath) :
    (volume fs (fat32RenameFile fs d oldPath newPath).2).Consistent fs.rootCluster := by
  rw [fat32RenameFile]
  rcases hold : resolveTarget fs d oldPath with _ | ⟨p, old⟩
  · exact hc
  rcases hnew : resolveTarget fs d newPath with _ | ⟨p', new⟩
  · exact hc
  simp only
  by_cases hpp : p = p'
  · subst hpp
    rw [if_neg (not_not.mpr rfl)]
    obtain ⟨l, hdir, hsafe⟩ := hsafe p old new hold hnew
    obtain ⟨slot, hscan, hlook, hr⟩ := g.dirScan_at hdir old
    have hbind : (dirScan fs d (orRoot fs p) old).bind DirSlot.found = slot.found := hlook
    rw [hbind]
    rw [hlook] at hsafe
    rcases hf : slot.found with _ | f
    · exact hc
    obtain ⟨hin, hlong⟩ := hsafe f hf
    obtain ⟨A, B, q, hw, hA, hm, rfl⟩ := hr.of_found hf
    obtain ⟨hp, hrefs⟩ := place_of_found hw hA hm
    obtain ⟨o, ho⟩ := hdir.owner
    have hblock := g.block_eq hdir.chain.2 hp.mem_slots
    have hent : FoundEntry.entry ⟨dirCursorSector fs q, q.offsetInSector, ((volume fs d).entry q).clus,
        ((volume fs d).entry q).size⟩ d = (volume fs d).entry q := by
      rw [FoundEntry.entry, hblock]
      rfl
    rw [hent] at hin hlong
    simp only [g.read, hblock]
    -- a short name is stored over the old one; a long one needs a run, and the old entry goes first
    rcases hneeds : nameNeedsLfn new with _ | _
    · simp only [Bool.false_eq_true, if_false, g.write]
      rw [g.volume_write_slot hdir.chain.2 hp.mem_slots]
      exact renameInPlace_consistent (fun h => h0 ((name_subset hnew).1 h)) hc ho hdir.chain hp
        hrefs hm.1 (hin hneeds)
    · simp only [if_true, g.write]
      have hlong := hlong hneeds
      obtain ⟨A', R, hmk⟩ := g.unlinked_marked hdir.chain hp.slots_eq hp.before
        (fun h => hm.1.1 (.inl h)) ((volume fs d).entry q).clus
        ((volume fs d).entry q).size
      have hun : unlinked d ⟨dirCursorSector fs q, q.offsetInSector, ((volume fs d).entry q).clus,
          ((volume fs d).entry q).size⟩ = d.write (dirCursorSector fs q) (markLfnBefore
            (((volume fs d).block q).put q.offsetInSector deleted) (q.offsetInSector / 32)) := by
        rw [unlinked]
        simp only [hblock]
      rw [hun] at hmk hlong
      have hl₁ := hmk.edit.chain hdir.chain
      -- between the two steps the chain of the entry has no owner: it is a second root of the
      -- forest
      by_cases h2 : 2 ≤ ((volume fs d).entry q).clus
      · have href := (hrefs _ _).mpr ⟨hm.1, hlong.notDot h2, rfl, h2, rfl⟩
        obtain ⟨hc₁, ho₁⟩ := hmk.detach hc ho hdir.chain href
        exact g.renameLong_consistent (name_subset hnew).2 hneeds
          (.inr ⟨h2, not_root_of_ref hc (.ref ho hdir.chain.1 href), hc₁⟩) ho₁ hl₁ hm.1 hlong
      · obtain ⟨hc₁, ho₁⟩ := hmk.keep hc ho hdir.chain fun c b hr =>
          Entry.not_refers_of_clus (by omega) c b ((hrefs c b).mp hr)
        exact g.renameLong_consistent (name_subset hnew).2 hneeds (.inl ⟨by omega, hc₁⟩) ho₁ hl₁
          hm.1 hlong
  · rw [if_pos hpp]
    exact hc

end Geometry

end PsychWard.Fat32
