import PsychWard.Fat32.Tree
import PsychWard.Fat32.Files
import PsychWard.Fat32.LongNames
import Mathlib.Data.List.Chain
import Mathlib.Data.List.Range

/-!
# Slots for new entries

How the driver comes by the slots it stores new entries in: a directory grows by a cluster
(`dirGrow_spec`), `takeSlot` gives the first free slot, `dirFindOrGrowRun` a run of free slots, and a
cursor moves through such a run. In each case the slots before the chosen ones are in use, which is
what `Volume.Stored` asks for.
-/

namespace PsychWard.Fat32

namespace Volume

variable {v v' : Volume} {l : List ℕ} {p q : DirCursor}

/-- `p` is the last slot before `q` in the order of a cluster. -/
private theorem isChain_clusterSlots {R : DirCursor → DirCursor → Prop} {c : ℕ} (n : ℕ)
    (hin : ∀ s < n, ∀ k < 15, R ⟨c, s, 32 * k⟩ ⟨c, s, 32 * (k + 1)⟩)
    (hsec : ∀ s, s + 1 < n → R ⟨c, s, 480⟩ ⟨c, s + 1, 0⟩) :
    (clusterSlots n c).IsChain R ∧ (clusterSlots n c).getLast? =
      if n = 0 then none else some ⟨c, n - 1, 480⟩ := by
  induction n with
  | zero => exact ⟨by simp [clusterSlots], rfl⟩
  | succ n ih =>
    obtain ⟨ih1, ih2⟩ := ih (fun s hs => hin s (by omega)) fun s hs => hsec s (by omega)
    have hslots : clusterSlots (n + 1) c = clusterSlots n c ++
        (List.range 16).map fun k => (⟨c, n, 32 * k⟩ : DirCursor) := by
      rw [clusterSlots, List.range_succ (n := n), List.flatMap_append, List.flatMap_singleton]
      rfl
    have hlast : ((List.range 16).map fun k => (⟨c, n, 32 * k⟩ : DirCursor)).getLast? =
        some ⟨c, n, 480⟩ := rfl
    rw [hslots]
    refine ⟨List.isChain_append.mpr ⟨ih1, ?_, ?_⟩, ?_⟩
    · rw [List.isChain_map, List.isChain_range]
      exact fun m hm => hin n (by omega) m (by omega)
    · intro x hx y hy
      rw [ih2] at hx
      obtain rfl : ⟨c, n, 0⟩ = y := by simpa [List.range_succ_eq_map] using hy
      by_cases hn : n = 0
      · simp [hn] at hx
      · rw [if_neg hn] at hx
        obtain rfl : ⟨c, n - 1, 480⟩ = x := by simpa using hx
        have := hsec (n - 1) (by omega)
        rwa [Nat.sub_add_cancel (by omega)] at this
    · rw [List.getLast?_append, hlast]
      rfl

theorem length_clusterSlots (n c : ℕ) : (clusterSlots n c).length = 16 * n := by
  rw [clusterSlots, List.length_flatMap]
  simp [Nat.mul_comm]

/-! ## Free runs -/

/-- The slots `R` of the directory `l` can take new entries: those before them are in use, they are
deleted or behind the end mark, and if the end mark is among them the slot behind them is one too. -/
structure FreeRun (v : Volume) (l : List ℕ) (A R B : List DirCursor) : Prop where
  slots_eq : v.slots l = A ++ (R ++ B)
  before : ∀ p ∈ A, v.entry p 0 ≠ 0
  free : ∀ R₁ p R₂, R = R₁ ++ p :: R₂ →
    v.entry p 0 = deleted ∨ ∃ e ∈ R₁ ++ [p], v.entry e 0 = 0
  tail : (∃ e ∈ R, v.entry e 0 = 0) → ∀ p, B.head? = some p → v.entry p 0 = 0

variable {A R B : List DirCursor}

/-- Nothing behind an end mark is an entry of the directory. -/
theorem notMem_beforeEnd {P Q : List DirCursor} {e : DirCursor} (hl : l.Nodup)
    (hs : v.slots l = P ++ e :: Q) (h0 : v.entry e 0 = 0) (hp : p ∈ e :: Q) : p ∉ v.beforeEnd l := by
  intro hmem
  have hnd := v.nodup_slots hl
  rw [hs] at hnd
  have hsub : ∀ x ∈ v.beforeEnd l, x ∈ P := by
    intro x hx
    rw [beforeEnd, hs, List.takeWhile_append] at hx
    split at hx
    · rw [List.takeWhile_cons, h0] at hx
      simpa using hx
    · exact (List.takeWhile_sublist _).subset hx
  exact (List.nodup_append.mp hnd).2.2 p (hsub p hmem) p hp rfl

/-- A slot behind an end mark of the run it lies in. -/
theorem notMem_beforeEnd_of_run {P S T : List DirCursor} {e : DirCursor} (hl : l.Nodup)
    (hs : v.slots l = P ++ (S ++ p :: T)) (he : e ∈ S ++ [p]) (h0 : v.entry e 0 = 0) :
    p ∉ v.beforeEnd l := by
  rcases List.mem_append.mp he with he | he
  · obtain ⟨U, W, rfl⟩ := List.append_of_mem he
    refine notMem_beforeEnd (P := P ++ U) (Q := W ++ p :: T) (e := e) hl ?_ h0 (by simp)
    rw [hs]
    simp
  · obtain rfl := List.mem_singleton.mp he
    refine notMem_beforeEnd (P := P ++ S) (Q := T) hl ?_ h0 List.mem_cons_self
    rw [hs, List.append_assoc]

/-- A run begins with a free slot. -/
theorem run_eq_nil (hused : ∀ p ∈ R, ¬ (v.entry p).IsFree)
    (hfree : ∀ R₁ p R₂, R = R₁ ++ p :: R₂ →
      v.entry p 0 = deleted ∨ ∃ e ∈ R₁ ++ [p], v.entry e 0 = 0) : R = [] := by
  cases R with
  | nil => rfl
  | cons x T =>
    refine absurd ?_ (hused x List.mem_cons_self)
    rcases hfree [] x T rfl with hdel | ⟨e, he, h0⟩
    · exact .inr hdel
    · rw [List.mem_singleton.mp he] at h0
      exact .inl h0

/-- What a free run holds before the end mark is deleted. -/
theorem FreeRun.deleted_of_mem (h : FreeRun v l A R B) (hl : l.Nodup) (hp : p ∈ R)
    (hmem : p ∈ v.beforeEnd l) : v.entry p 0 = deleted := by
  obtain ⟨R₁, R₂, rfl⟩ := List.append_of_mem hp
  rcases h.free R₁ p R₂ rfl with hdel | ⟨e, he, h0⟩
  · exact hdel
  · refine absurd hmem (notMem_beforeEnd_of_run (P := A) (T := R₂ ++ B) hl ?_ he h0)
    rw [h.slots_eq]
    simp

/-- The slots of a run are free as long as the directory keeps its entries. -/
theorem FreeRun.congr (h : FreeRun v l A R B) (hspc : v'.sectorsPerCluster = v.sectorsPerCluster)
    (heq : ∀ p ∈ v.slots l, v'.entry p = v.entry p) : FreeRun v' l A R B := by
  rw [h.slots_eq] at heq
  have hR : ∀ p ∈ R, v'.entry p = v.entry p := fun p hp => heq p (by simp [hp])
  refine ⟨(slots_congr hspc l).trans h.slots_eq, fun p hp => ?_, fun R₁ p R₂ hR' => ?_,
    fun ⟨e, he, h0⟩ p hp => ?_⟩
  · rw [heq p (by simp [hp])]
    exact h.before p hp
  · rw [hR p (by simp [hR'])]
    refine (h.free R₁ p R₂ hR').imp id fun ⟨e, he, h0⟩ => ⟨e, he, ?_⟩
    rwa [hR e (by rw [hR', List.append_cons]; exact List.mem_append_left _ he)]
  · rw [heq p (by simp [List.mem_of_mem_head? hp])]
    exact h.tail ⟨e, he, by rwa [← hR e he]⟩ p hp

/-- A free run holds no entry of the directory. -/
theorem FreeRun.not_refs (h : FreeRun v l A R B) (hl : l.Nodup) (hp : p ∈ R) (c : ℕ) (b : Bool) :
    ¬ v.forest.refs l p c b := fun hr => hr.2.1.1 (.inr (h.deleted_of_mem hl hp hr.1))

/-- Taking the first free slot of a directory is safe: the slot behind the end mark is an end mark
when the end mark is taken, and the directory is walked to its end before it grows. -/
structure SlotSafe (v : Volume) (l : List ℕ) : Prop where
  tail : ∀ A q B, v.slots l = A ++ q :: B → (∀ p ∈ A, ¬ (v.entry p).IsFree) → v.entry q 0 = 0 →
    ∀ p, B.head? = some p → v.entry p 0 = 0
  grow : (∀ p ∈ v.walked l, ¬ (v.entry p).IsFree) → l.length ≤ walkLimit

theorem firstFree_eq_some {fs : Fat32Instance} {S : List DirCursor} {r : ℕ × ℕ}
    (h : v.firstFree fs S = some r) : ∃ A q B, S = A ++ q :: B ∧
      (∀ p ∈ A, ¬ (v.entry p).IsFree) ∧ (v.entry q).IsFree ∧
        r = (dirCursorSector fs q, q.offsetInSector) := by
  obtain ⟨q, hq, rfl⟩ := Option.map_eq_some_iff.mp h
  obtain ⟨hf, A, B, hS, hA⟩ := List.find?_eq_some_iff_append.mp hq
  exact ⟨A, q, B, hS, fun p hp => by simpa using hA p hp, by simpa using hf, rfl⟩

theorem firstFree_eq_none {fs : Fat32Instance} {S : List DirCursor} :
    v.firstFree fs S = none ↔ ∀ p ∈ S, ¬ (v.entry p).IsFree := by
  simp [firstFree]

/-- A free slot behind slots in use is a free run. -/
theorem freeRun_single (hs : v.slots l = A ++ q :: B) (hA : ∀ p ∈ A, ¬ (v.entry p).IsFree)
    (hq : (v.entry q).IsFree)
    (htail : v.entry q 0 = 0 → ∀ p, B.head? = some p → v.entry p 0 = 0) : FreeRun v l A [q] B where
  slots_eq := hs
  before p hp h0 := hA p hp (.inl h0)
  free := by
    intro R₁ p R₂ heq
    have hlen := congrArg List.length heq
    simp only [List.length_append, List.length_cons, List.length_nil] at hlen
    obtain rfl : R₁ = [] := List.eq_nil_of_length_eq_zero (by omega)
    obtain ⟨rfl, -⟩ := List.cons.inj heq
    rcases hq with h0 | hdel
    · exact .inr ⟨q, by simp, h0⟩
    · exact .inl hdel
  tail := by
    rintro ⟨e, he, h0⟩
    obtain rfl := List.mem_singleton.mp he
    exact htail h0

end Volume

/-- A cursor moves through the slots of a chain in their order. -/
theorem dirCursorAdvance_of_walk {fs : Fat32Instance} {d : Disk} {c : ℕ} {l : List ℕ}
    (h : Walk (fatNext fs d) c l) :
    ((diskVolume fs d).slots l).IsChain fun p q => dirCursorAdvance fs d p = some q := by
  have hin : ∀ c, ∀ s < fs.sectorsPerCluster, ∀ k < 15,
      dirCursorAdvance fs d ⟨c, s, 32 * k⟩ = some ⟨c, s, 32 * (k + 1)⟩ := fun c s hs k hk => by
    rw [dirCursorAdvance, if_pos (by simp only; omega)]
    rfl
  have hsec : ∀ c s, s + 1 < fs.sectorsPerCluster →
      dirCursorAdvance fs d ⟨c, s, 480⟩ = some ⟨c, s + 1, 0⟩ := fun c s hs => by
    rw [dirCursorAdvance, if_neg (by simp), if_pos hs]
  -- within a cluster the offset and then the sector grows; behind it the table says where to go on
  induction h with
  | @last a hend =>
    rw [Volume.slots, List.flatMap_singleton]
    exact (Volume.isChain_clusterSlots (R := fun p q => dirCursorAdvance fs d p = some q)
      fs.sectorsPerCluster (hin a) (hsec a)).1
  | @cons a b t hnext ht ih =>
    obtain ⟨h1, h2⟩ := Volume.isChain_clusterSlots
      (R := fun p q => dirCursorAdvance fs d p = some q) fs.sectorsPerCluster (hin a) (hsec a)
    rw [Volume.slots, List.flatMap_cons]
    refine List.isChain_append.mpr ⟨h1, ih, ?_⟩
    intro x hx y hy
    have hx : x ∈ (clusterSlots fs.sectorsPerCluster a).getLast? := hx
    rw [h2] at hx
    by_cases hspc : fs.sectorsPerCluster = 0
    · rw [if_pos hspc] at hx
      cases hx
    rw [if_neg hspc] at hx
    obtain rfl : ⟨a, fs.sectorsPerCluster - 1, 480⟩ = x := by simpa using hx
    obtain ⟨u, rfl⟩ := ht.eq_cons
    obtain ⟨T, hT⟩ := Volume.clusterSlots_eq_cons (Nat.pos_of_ne_zero hspc) b
    have hslots : (diskVolume fs d).slots (b :: u) =
        ⟨b, 0, 0⟩ :: (T ++ (diskVolume fs d).slots u) := by
      rw [Volume.slots, List.flatMap_cons]
      show clusterSlots fs.sectorsPerCluster b ++ _ = _
      rw [hT]
      rfl
    have hy' : (⟨b, 0, 0⟩ : DirCursor) = y := by
      have hy : y ∈ ((diskVolume fs d).slots (b :: u)).head? := hy
      rw [hslots] at hy
      simpa using hy
    subst hy'
    -- from the last slot of `a` to the first one of `b`
    rcases clusterHasNext_walk (.cons hnext ht) with ⟨hnil, -⟩ | ⟨hhas, -, -⟩
    · cases hnil
    · rw [fatNext_pos hhas] at hnext
      obtain rfl := Option.some.inj hnext
      rw [dirCursorAdvance, if_neg (by simp), if_neg (by simp only; omega)]
      simp only [hhas, if_true]

namespace Geometry

variable {fs : Fat32Instance} (g : Geometry fs) {c n : ℕ} {d : Disk} {l : List ℕ}

include g

/-- A cursor moves through the slots of a directory in their order. -/
theorem dirCursorAdvance_eq (h : (volume fs d).forest.Chain c l) :
    ((volume fs d).slots l).IsChain fun p q => dirCursorAdvance fs d p = some q :=
  dirCursorAdvance_of_walk (g.walk_fatNext h)

theorem dirCursorAdvance_of_slots (h : (volume fs d).forest.Chain c l) {A B : List DirCursor}
    {p q : DirCursor} (hs : (volume fs d).slots l = A ++ (p :: q :: B)) :
    dirCursorAdvance fs d p = some q := by
  have := g.dirCursorAdvance_eq h
  rw [hs] at this
  exact (List.isChain_append_cons_cons.mp this).2.1

/-! ## Storing an entry -/

/-- A slot of a directory lies in a sector of a cluster. -/
theorem dirCursorSector_eq {p : DirCursor} (h : ∀ x ∈ l, (volume fs d).Used x)
    (hp : p ∈ (volume fs d).slots l) :
    dirCursorSector fs p = dataSector fs p.cluster p.sectorInCluster ∧
      (2 ≤ p.cluster ∧ p.cluster < fs.clusters) ∧ p.sectorInCluster < fs.sectorsPerCluster := by
  obtain ⟨hc, hs, -⟩ := Volume.mem_slots.mp hp
  have hr : 2 ≤ p.cluster ∧ p.cluster < fs.clusters := (h _ hc).1
  exact ⟨g.sector_eq hr hs, hr, hs⟩

/-- The buffer of a slot's sector. -/
theorem block_eq {p : DirCursor} (h : ∀ x ∈ l, (volume fs d).Used x)
    (hp : p ∈ (volume fs d).slots l) : d.sectors (dirCursorSector fs p) = (volume fs d).block p := by
  obtain ⟨h1, h2, h3⟩ := g.dirCursorSector_eq h hp
  rw [h1, Volume.block, g.volume_data h2 h3]

/-- Writing back the sector of a slot. -/
theorem volume_write_slot {p : DirCursor} (h : ∀ x ∈ l, (volume fs d).Used x)
    (hp : p ∈ (volume fs d).slots l) (b : Block) :
    volume fs (d.write (dirCursorSector fs p) b) =
      (volume fs d).setData p.cluster p.sectorInCluster b := by
  obtain ⟨h1, h2, h3⟩ := g.dirCursorSector_eq h hp
  rw [h1, g.volume_write_data h2 h3]

/-- `dir_write_entry_at` stores the entry. -/
theorem dirWriteEntryAt_spec {p : DirCursor} (h : ∀ x ∈ l, (volume fs d).Used x)
    (hp : p ∈ (volume fs d).slots l) (e : Entry) :
    ∃ d', dirWriteEntryAt fs d p e = (true, d') ∧ volume fs d' = (volume fs d).setEntry p e ∧
      Writes (fun s => s = dirCursorSector fs p) d d' := by
  rw [dirWriteEntryAt, g.read]
  simp only [g.write]
  refine ⟨_, rfl, ?_, .single (S := fun s => s = dirCursorSector fs p) rfl _⟩
  rw [g.volume_write_slot h hp, g.block_eq h hp, Volume.setEntry]

/-! ## Growing a directory -/

/-- `dir_grow` links the first free cluster behind the last one of `l`; on a full disk nothing
changes. -/
theorem dirGrow_of_used (hu : ∀ x ∈ l, (volume fs d).Used x) (hl : l ≠ []) (d₀ : ℕ) :
    ∃ r d', dirGrow fs d (l.getLastD d₀) = (r, d') ∧ Writes (AllocArea fs (volume fs d)) d d' ∧
      ((volume fs d).freeClusters = [] ∧ r = none ∧ volume fs d' = volume fs d ∨
        ∃ n rest, (volume fs d).freeClusters = n :: rest ∧ r = some (clusterToSector fs n, n) ∧
          Volume.Grown (volume fs d) (volume fs d') l n) := by
  obtain ⟨r, d₁, h1, h2, h3, h4⟩ := g.fatAllocChain_spec 1 d
  rw [dirGrow, h1]
  simp only
  cases hfr : (volume fs d).freeClusters with
  | nil =>
    obtain ⟨rfl, h5⟩ := h4 (by simp [hfr])
    refine ⟨none, d₁, if_pos rfl, h2, .inl ⟨rfl, rfl, ?_⟩⟩
    exact volume_congr (fun x _ => h5.fat_eq x (by simp [hfr]))
      fun x k _ _ => by rw [h5.data_eq x (by simp [hfr])]
  | cons n rest =>
    obtain ⟨hr, hal⟩ := h3 (by simp [hfr])
    rw [hfr] at hr hal
    obtain rfl : r = n := by simpa using hr
    have hal : Volume.Allocated (volume fs d) (volume fs d₁) [r] := by simpa using hal
    have hfree : r ∈ (volume fs d).freeClusters := by simp [hfr]
    obtain ⟨hin, h0⟩ := Volume.mem_freeClusters.mp hfree
    have hr : 2 ≤ r ∧ r < fs.clusters := hin
    have hsmall : r < fat32Eoc := lt_of_lt_of_le hr.2 g.clusters_le
    have hgl := List.getLast?_eq_some_getLast hl
    have hlast : l.getLastD d₀ ∈ l := by
      rw [List.getLastD_eq_getLast?, hgl]
      exact List.getLast_mem hl
    have hlastu : (volume fs d).Used (l.getLastD d₀) := hu _ hlast
    obtain ⟨d₂, e1, e2, e3⟩ := g.fatSetEntry_spec (c := l.getLastD d₀) hlastu.1.2 r d₁
    rw [Nat.mod_eq_of_lt (g.lt_two_pow hr.2)] at e2
    rw [if_neg (show ¬ r = 0 by omega), e1]
    refine ⟨_, d₂, rfl, h2.trans (e3.mono fun s hs => .inl hs), .inr ⟨r, rest, rfl, rfl, ?_⟩⟩
    have hne : l.getLastD d₀ ≠ r := fun heq => hlastu.2 (heq ▸ h0)
    have hiff : ∀ x, l.getLast? = some x ↔ x = l.getLastD d₀ := fun x => by
      rw [List.getLastD_eq_getLast?, hgl, Option.some.injEq, Option.getD_some]
      exact eq_comm
    refine ⟨rfl, rfl, hfree, hsmall, fun x hx hxl => ?_, fun x hx => ?_, ?_, ?_, fun x hx => ?_,
      fun k hk => ?_⟩
    · rw [e2, Volume.setFat_fat, Function.update_of_ne fun heq => hxl ((hiff x).mpr heq)]
      exact hal.fat_eq x (by simpa using hx)
    · rw [e2, Volume.setFat_fat, (hiff x).mp hx, Function.update_self]
    · rw [e2, Volume.setFat_fat, Function.update_of_ne hne.symm]
      exact hal.fat_ne_zero r (by simp)
    · -- the new cluster keeps the end mark of the allocation
      rw [e2, Volume.next, Volume.setFat_fat, Function.update_of_ne hne.symm]
      cases hal.walk r rfl with
      | last hn => exact hn
      | cons _ t => exact absurd rfl t.ne_nil
    · rw [e2, Volume.setFat_data]
      exact hal.data_eq x (by simpa using hx)
    · rw [e2, Volume.setFat_data]
      exact hal.data_zero r (by simp) k hk

/-- `dir_grow` appends the first free cluster to the chain. -/
theorem dirGrow_spec (h : (volume fs d).forest.Chain c l) (d₀ : ℕ) :
    ∃ r d', dirGrow fs d (l.getLastD d₀) = (r, d') ∧ Writes (AllocArea fs (volume fs d)) d d' ∧
      ((volume fs d).freeClusters = [] ∧ r = none ∧ volume fs d' = volume fs d ∨
        ∃ n rest, (volume fs d).freeClusters = n :: rest ∧ r = some (clusterToSector fs n, n) ∧
          Volume.Grown (volume fs d) (volume fs d') l n) :=
  g.dirGrow_of_used h.2 h.1.ne_nil d₀

omit g in
/-- The slots of a grown directory behind those it had are free. -/
theorem grown_tail {v v' : Volume} (h : Volume.Grown v v' l n) {T R : List DirCursor}
    (hs : v'.slots [n] = T ++ R) : ∀ p ∈ R, v'.entry p 0 = 0 := by
  intro p hp
  rw [h.entry_new (hs ▸ List.mem_append_right _ hp)]
  rfl

omit g in
/-- What a search that found nothing says of free slots: the first one it went past, or the last
cluster it looked at. -/
theorem free_cases {v : Volume} {target : CString} {slot : DirSlot}
    (hr : Volume.ScanResult fs v target l slot) (hnone : slot.found = none) :
    (∃ A q B, v.walked l = A ++ q :: B ∧ (∀ p ∈ A, ¬ (v.entry p).IsFree) ∧ (v.entry q).IsFree ∧
        slot.free = some (dirCursorSector fs q, q.offsetInSector)) ∨
      slot.free = none ∧ v.firstFree fs (v.walked l) = none ∧
        slot.lastClus = (l.take walkLimit).getLastD 0 := by
  have hsome : ∀ {r S T}, v.walked l = S ++ T → v.firstFree fs S = some r →
      ∃ A q B, v.walked l = A ++ q :: B ∧ (∀ p ∈ A, ¬ (v.entry p).IsFree) ∧ (v.entry q).IsFree ∧
        r = (dirCursorSector fs q, q.offsetInSector) := by
    intro r S T hST hS
    obtain ⟨A, q, B, rfl, hA, hq, rfl⟩ := Volume.firstFree_eq_some hS
    exact ⟨A, q, B ++ T, by rw [hST]; simp, hA, hq, rfl⟩
  -- a search that met the end mark went past a free slot, the mark itself
  cases hfree : slot.free with
  | some r =>
    obtain ⟨S, T, hST, hS⟩ : ∃ S T, v.walked l = S ++ T ∧ v.firstFree fs S = some r := by
      cases hr with
      | found _ _ _ hf => rw [hnone] at hf; cases hf
      | @endMark A B p hw _ _ _ hf =>
        exact ⟨A ++ [p], B, by rw [hw]; simp, hf.symm.trans hfree⟩
      | full _ _ hf => exact ⟨_, [], (List.append_nil _).symm, hf.symm.trans hfree⟩
    obtain ⟨A, q, B, hw, hA, hq, rfl⟩ := hsome hST hS
    exact .inl ⟨A, q, B, hw, hA, hq, rfl⟩
  | none =>
    refine .inr ⟨rfl, ?_⟩
    cases hr with
    | found _ _ _ hf => rw [hnone] at hf; cases hf
    | @endMark A B p hw _ h0 _ hf =>
      have := Volume.firstFree_eq_none.mp (hf.symm.trans hfree) p (by simp)
      exact absurd (.inl h0) this
    | full _ _ hf hlast => exact ⟨hf.symm.trans hfree, hlast⟩

/-- The first free slot of a directory, or the first slot of a new cluster. -/
theorem takeSlot_spec (h : (volume fs d).forest.Chain c l) {target : CString} {slot : DirSlot}
    (hr : Volume.ScanResult fs (volume fs d) target l slot) (hnone : slot.found = none)
    (hsafe : (volume fs d).SlotSafe l) :
    ∃ r d', takeSlot fs d slot = (r, d') ∧ Writes (AllocArea fs (volume fs d)) d d' ∧
      (r = none ∧ volume fs d' = volume fs d ∧ (volume fs d).freeClusters = [] ∨
        ∃ A q B l', r = some (dirCursorSector fs q, q.offsetInSector) ∧
          Volume.FreeRun (volume fs d') l' A [q] B ∧
          (∀ p ∈ A, ¬ ((volume fs d').entry p).IsFree) ∧
          (d' = d ∧ l' = l ∧ q ∈ (volume fs d).walked l ∨
            ∃ n, Volume.Grown (volume fs d) (volume fs d') l n ∧ l' = l ++ [n] ∧
              l.length ≤ walkLimit ∧ A = (volume fs d).slots l ∧
              (volume fs d).firstFree fs ((volume fs d).walked l) = none)) := by
  rw [takeSlot]
  -- a free slot was seen on the way, or the directory grows by a cluster
  rcases free_cases hr hnone with ⟨A, q, B, hw, hA, hq, hfree⟩ | ⟨hfree, hall, hlast⟩
  · have hslots : (volume fs d).slots l =
        A ++ q :: (B ++ (volume fs d).slots (l.drop walkLimit)) := by
      rw [Volume.slots_eq_walked_append, hw]
      simp
    have hrun := Volume.freeRun_single hslots hA hq (hsafe.tail A q _ hslots hA)
    rw [hfree]
    exact ⟨_, d, rfl, .refl _ _, .inr ⟨A, q, _, l, rfl, hrun, hA, .inl ⟨rfl, rfl, by rw [hw]; simp⟩⟩⟩
  · rw [hfree]
    have hlen := hsafe.grow (Volume.firstFree_eq_none.mp hall)
    rw [hlast, List.take_of_length_le hlen]
    obtain ⟨r, d', h1, h2, ⟨hnil, rfl, hv⟩ | ⟨n, rest, hfr, rfl, hgr⟩⟩ := g.dirGrow_spec h 0
    · rw [h1]
      exact ⟨none, d', rfl, h2, .inl ⟨rfl, hv, hnil⟩⟩
    · rw [h1]
      have hwalked : (volume fs d).walked l = (volume fs d).slots l := by
        rw [Volume.walked, List.take_of_length_le hlen]
      have hused : ∀ p ∈ (volume fs d).slots l, p.cluster ≠ n := fun p hp =>
        hgr.ne_of_used (h.2 _ (Volume.mem_slots.mp hp).1)
      obtain ⟨T, hT⟩ := hgr.slot_new g.sectors_pos
      have hin : 2 ≤ n ∧ n < fs.clusters := (Volume.mem_freeClusters.mp hgr.free).1
      have hsec : (dirCursorSector fs ⟨n, 0, 0⟩, 0) = (clusterToSector fs n, 0) := by
        rw [dirCursorSector, g.sector_eq hin g.sectors_pos, g.clusterToSector_eq hin]
      have hnew : (volume fs d').slots [n] = ⟨n, 0, 0⟩ :: T := by
        have := hT
        rw [Volume.slots_append, Volume.slots_congr hgr.sectorsPerCluster] at this
        exact List.append_cancel_left this
      have hzero := grown_tail hgr (T := []) hnew
      have hA : ∀ p ∈ (volume fs d).slots l, ¬ ((volume fs d').entry p).IsFree := fun p hp => by
        rw [hgr.entry_eq (hused p hp)]
        exact Volume.firstFree_eq_none.mp hall p (hwalked ▸ hp)
      refine ⟨some (clusterToSector fs n, 0), d', rfl, h2, .inr ⟨_, ⟨n, 0, 0⟩, T, l ++ [n], ?_, ?_, hA,
        .inr ⟨n, hgr, rfl, hlen, rfl, hall⟩⟩⟩
      · rw [← hsec]
      · refine Volume.freeRun_single hT hA (.inl (hzero _ (by simp))) fun _ p hp => ?_
        exact hzero p (List.mem_cons_of_mem _ (List.mem_of_mem_head? hp))

/-! ## Runs of free slots -/

/-- The invariant of the search for a run behind the slots `P`: they end with the free slots `T`
counted so far, and the end mark, if it was seen, is among those. -/
structure RunInv (v : Volume) (need : ℕ) (P : List DirCursor) (st : RunState)
    (A T : List DirCursor) : Prop where
  eq : P = A ++ T
  len : T.length = st.runLen
  short : st.runLen < need
  start : ∀ p, T.head? = some p → st.runStart = p
  before : ∀ p ∈ A, v.entry p 0 ≠ 0
  past : st.pastEnd = true ↔ ∃ e ∈ T, v.entry e 0 = 0
  free : ∀ R₁ p R₂, T = R₁ ++ p :: R₂ → v.entry p 0 = deleted ∨ ∃ e ∈ R₁ ++ [p], v.entry e 0 = 0

omit g in
/-- One more slot: it is free or it ends the run. -/
theorem runInv_step {v : Volume} {need : ℕ} {P A T : List DirCursor} {st st' : RunState}
    {p : DirCursor} {b : Bool} (hn : 0 < need) (h : RunInv v need P st A T)
    (hf : findRunBody need st p (v.block p) = (st', b)) :
    (∃ A' T', RunInv v need (P ++ [p]) st' A' T' ∧ b = false) ∨
      (b = true ∧ (T ++ [p]).length = need ∧ (T ++ [p]).head? = some st'.runStart ∧
        (st'.pastEnd = true ↔ ∃ e ∈ T ++ [p], v.entry e 0 = 0) ∧
        ∀ R₁ q R₂, T ++ [p] = R₁ ++ q :: R₂ →
          v.entry q 0 = deleted ∨ ∃ e ∈ R₁ ++ [q], v.entry e 0 = 0) := by
  obtain ⟨hP, hlen, hshort, hstart, hbefore, hpast, hfree⟩ := h
  rw [findRunBody, ← Volume.entry_eq] at hf
  have hpast' : (st.pastEnd || decide (v.entry p 0 = 0)) = true ↔
      ∃ e ∈ T ++ [p], v.entry e 0 = 0 := by
    rw [Bool.or_eq_true, hpast, decide_eq_true_eq]
    simp [or_and_right, exists_or]
  -- a used slot starts the count again, and none has been seen behind the end mark
  by_cases hF : ((st.pastEnd || decide (v.entry p 0 = 0)) || decide (v.entry p 0 = deleted)) = true
  · rw [if_pos hF] at hf
    cases hf
    have hfree' : ∀ R₁ q R₂, T ++ [p] = R₁ ++ q :: R₂ →
        v.entry q 0 = deleted ∨ ∃ e ∈ R₁ ++ [q], v.entry e 0 = 0 := by
      rw [Bool.or_eq_true, hpast', decide_eq_true_eq] at hF
      exact fun _ _ _ heq => forall_split_snoc hfree hF.symm heq
    have hstart' : (T ++ [p]).head? = some (if st.runLen = 0 then p else st.runStart) := by
      cases T with
      | nil => simp [← hlen]
      | cons t T =>
        rw [hstart t rfl, if_neg (by rw [← hlen]; simp)]
        rfl
    by_cases hneed : need ≤ st.runLen + 1
    · refine .inr ⟨by simpa using hneed, by simp; omega, hstart', hpast', hfree'⟩
    · refine .inl ⟨A, T ++ [p], ⟨by rw [hP, List.append_assoc], by simp [hlen], by simp only; omega,
        fun q hq => ?_, hbefore, hpast', hfree'⟩, by simpa using hneed⟩
      rw [hstart'] at hq
      exact Option.some.inj hq
  · rw [if_neg hF] at hf
    cases hf
    rw [Bool.or_eq_true, not_or, hpast'] at hF
    refine .inl ⟨A ++ T ++ [p], [], ⟨by rw [hP, List.append_nil], rfl, hn, by simp, fun q hq => ?_,
      by rw [hpast']; simpa using hF.1, by simp⟩, rfl⟩
    rcases List.mem_append.mp hq with hq | hq
    · rcases List.mem_append.mp hq with hq | hq
      · exact hbefore q hq
      · exact fun h0 => hF.1 ⟨q, by simp [hq], h0⟩
    · obtain rfl := List.mem_singleton.mp hq
      exact fun h0 => hF.1 ⟨q, by simp, h0⟩

/-- Storing a run of `need` entries in the directory `l`, whose walk starts at `p`, is safe: if the
search found a run behind the end mark, an end mark follows the run, and if it found none, the
directory was walked to its end. -/
structure RunSafe (fs : Fat32Instance) (d : Disk) (p need : ℕ) (l : List ℕ) : Prop where
  tail : ∀ st last, findRun fs d p need = some (st, last, true) → st.pastEnd = true →
    ∀ A R B, (volume fs d).slots l = A ++ (R ++ B) → R.head? = some st.runStart →
      R.length = need → ∀ q, B.head? = some q → (volume fs d).entry q 0 = 0
  grow : ∀ st last, findRun fs d p need = some (st, last, false) → l.length ≤ walkLimit

omit g in
theorem sixteen_le_slots {v : Volume} (hspc : 0 < v.sectorsPerCluster) (n : ℕ) :
    16 ≤ (v.slots [n]).length := by
  rw [Volume.slots, List.flatMap_singleton, Volume.length_clusterSlots]
  omega

omit g in
/-- A run counted up to the end of the directory and the first of the slots `N` behind it. -/
theorem RunInv.append_take {v : Volume} {need : ℕ} {P A T N : List DirCursor} {st : RunState}
    {x : DirCursor} (h : RunInv v need P st A T) (hN : N.head? = some x) (hlen : need ≤ N.length) :
    (T ++ N.take (need - T.length)).head? = some (if st.runLen = 0 then x else st.runStart) ∧
      (T ++ N.take (need - T.length)).length = need := by
  have hshort := h.short
  have hT := h.len
  refine ⟨?_, ?_⟩
  · cases T with
    | nil =>
      obtain ⟨j, hj⟩ : ∃ j, need = j + 1 := ⟨need - 1, by omega⟩
      obtain ⟨U, rfl⟩ := List.head?_eq_some_iff.mp hN
      rw [if_pos (by simpa using hT.symm), hj]
      rfl
    | cons t T =>
      rw [if_neg (by rw [← hT]; simp), h.start t rfl]
      rfl
  · rw [List.length_append, List.length_take]
    omega

/-- The run that the search counted up to the end of the directory goes on in the new cluster. -/
private theorem freeRun_grown {d' : Disk} {need : ℕ} {A T : List DirCursor} {st : RunState}
    (h : (volume fs d).forest.Chain c l) (hneed : need ≤ 16)
    (hinv : RunInv (volume fs d) need ((volume fs d).slots l) st A T)
    (hgr : Volume.Grown (volume fs d) (volume fs d') l n) :
    ∃ R B, R.head? = some (if st.runLen = 0 then ⟨n, 0, 0⟩ else st.runStart) ∧ R.length = need ∧
      Volume.FreeRun (volume fs d') (l ++ [n]) A R B ∧
        ∀ x, R.getLast? = some x → x.cluster = n := by
  have hspc : 0 < (volume fs d').sectorsPerCluster := g.sectors_pos
  have h16 := sixteen_le_slots hspc n
  have hnew : ((volume fs d').slots [n]).head? = some ⟨n, 0, 0⟩ := by
    obtain ⟨U, hU⟩ := Volume.clusterSlots_eq_cons hspc n
    rw [Volume.slots, List.flatMap_singleton, hU]
    rfl
  obtain ⟨hhead, hTK⟩ := hinv.append_take hnew (by omega)
  obtain ⟨hP, hlen, hshort, hstart, hbefore, hpast, hfree⟩ := hinv
  set v := volume fs d with hv
  set v' := volume fs d' with hv'
  set K := need - T.length with hK
  have hsplit : v'.slots [n] = (v'.slots [n]).take K ++ (v'.slots [n]).drop K :=
    (List.take_append_drop _ _).symm
  have hzero : ∀ p ∈ v'.slots [n], v'.entry p 0 = 0 := grown_tail hgr (T := []) rfl
  have hold : ∀ p ∈ A ++ T, v'.entry p = v.entry p := fun p hp =>
    hgr.entry_eq (hgr.ne_of_used (h.2 _ (Volume.mem_slots.mp (hP ▸ hp)).1))
  refine ⟨T ++ (v'.slots [n]).take K, (v'.slots [n]).drop K, hhead, hTK, ⟨?_, ?_, ?_, ?_⟩, ?_⟩
  · rw [Volume.slots_append, Volume.slots_congr hgr.sectorsPerCluster, hP, List.append_assoc,
      List.append_assoc, ← hsplit]
  · intro p hp
    rw [hold p (List.mem_append_left _ hp)]
    exact hbefore p hp
  · intro R₁ p R₂ heq
    by_cases hpn : p ∈ v'.slots [n]
    · exact .inr ⟨p, by simp, hzero p hpn⟩
    · -- `p` lies in `T`
      have hpT : p ∈ T := by
        have : p ∈ T ++ (v'.slots [n]).take K := heq ▸ (by simp)
        rcases List.mem_append.mp this with hp | hp
        · exact hp
        · exact absurd (List.mem_of_mem_take hp) hpn
      obtain ⟨U, hU⟩ : ∃ U, T = R₁ ++ p :: U := by
        rcases List.append_eq_append_iff.mp heq with ⟨as, hR, hK'⟩ | ⟨bs, hT, hR⟩
        · exfalso
          have : p ∈ (v'.slots [n]).take K := by
            rw [hK']
            simp
          exact hpn (List.mem_of_mem_take this)
        · cases bs with
          | nil =>
            exfalso
            have : p ∈ (v'.slots [n]).take K := by
              rw [List.nil_append] at hR
              rw [← hR]
              simp
            exact hpn (List.mem_of_mem_take this)
          | cons x bs =>
            obtain ⟨rfl, -⟩ := List.cons.inj hR
            exact ⟨bs, hT⟩
      rcases hfree R₁ p U hU with hdel | ⟨e, he, h0⟩
      · rw [hold p (by simp [hpT])]
        exact .inl hdel
      · refine .inr ⟨e, he, ?_⟩
        rw [hold e ?_]
        · exact h0
        · refine List.mem_append_right _ ?_
          rw [hU]
          rcases List.mem_append.mp he with he | he
          · simp [he]
          · simp [List.mem_singleton.mp he]
  · exact fun _ p hp => hzero p (hsplit ▸ List.mem_append_right _ (List.mem_of_mem_head? hp))
  · intro x hx
    have hne : (v'.slots [n]).take K ≠ [] := fun h => by
      rw [h, List.append_nil, hlen] at hTK
      omega
    rw [List.getLast?_append_of_ne_nil _ hne] at hx
    have hmem := List.mem_of_mem_take (List.mem_of_getLast? hx)
    exact List.mem_singleton.mp (Volume.mem_slots.mp hmem).1

omit g in
/-- How the search over the slots `S` ends: at a run that is long enough, or behind all of them. -/
theorem scan_findRun (v : Volume) {need : ℕ} (hn : 0 < need) (S : List DirCursor) :
    (∃ st A R B, scan (fun st p => findRunBody need st p (v.block p)) S ⟨0, ⟨0, 0, 0⟩, false⟩ =
        (st, true) ∧
        S = A ++ (R ++ B) ∧ R.head? = some st.runStart ∧ R.length = need ∧
        (∀ p ∈ A, v.entry p 0 ≠ 0) ∧ (st.pastEnd = true ↔ ∃ e ∈ R, v.entry e 0 = 0) ∧
        ∀ R₁ p R₂, R = R₁ ++ p :: R₂ →
          v.entry p 0 = deleted ∨ ∃ e ∈ R₁ ++ [p], v.entry e 0 = 0) ∨
      ∃ st A T, scan (fun st p => findRunBody need st p (v.block p)) S ⟨0, ⟨0, 0, 0⟩, false⟩ =
        (st, false) ∧ RunInv v need S st A T := by
  rcases scan_rule (f := fun st p => findRunBody need st p (v.block p)) S ⟨0, ⟨0, 0, 0⟩, false⟩
    (fun P st => ∃ A T, RunInv v need P st A T)
    ⟨[], [], by simp, rfl, hn, by simp, by simp, by simp, by simp⟩
    (fun {P q Q st st'} _ hI hf => by
      obtain ⟨A, T, hI⟩ := hI
      rcases runInv_step hn hI hf with ⟨A', T', hI', -⟩ | ⟨hb, -⟩
      · exact ⟨A', T', hI'⟩
      · cases hb) with
    ⟨P, q, Q, st, st', hw, ⟨A, T, hI⟩, hf, hr⟩ | ⟨st', ⟨A, T, hI⟩, hr⟩
  · rcases runInv_step hn hI hf with ⟨_, _, -, hb⟩ | ⟨-, hlen, hhead, hpast, hfree⟩
    · cases hb
    · refine .inl ⟨st', A, T ++ [q], Q, hr, ?_, hhead, hlen, hI.before, hpast, hfree⟩
      rw [hw, hI.eq]
      simp
  · exact .inr ⟨st', A, T, hr, hI⟩

/-- How the search for a run ends: at a run that is long enough, or at the end of what it walks. -/
private theorem findRun_cases {p need : ℕ} (hp : (if p < 2 then fs.rootCluster else p) = c)
    (h : (volume fs d).forest.Chain c l) (hn : 0 < need) :
    (∃ st last A R B, findRun fs d p need = some (st, last, true) ∧
        (volume fs d).slots l = A ++ (R ++ B) ∧ R.head? = some st.runStart ∧ R.length = need ∧
        (∀ p ∈ A, (volume fs d).entry p 0 ≠ 0) ∧
        (st.pastEnd = true ↔ ∃ e ∈ R, (volume fs d).entry e 0 = 0) ∧
        ∀ R₁ p R₂, R = R₁ ++ p :: R₂ → (volume fs d).entry p 0 = deleted ∨
          ∃ e ∈ R₁ ++ [p], (volume fs d).entry e 0 = 0) ∨
      ∃ st A T, findRun fs d p need = some (st, (l.take walkLimit).getLastD c, false) ∧
        RunInv (volume fs d) need ((volume fs d).walked l) st A T := by
  obtain ⟨last, h1, h2⟩ := g.scanChain_eq (findRunBody need) h walkLimit c ⟨0, ⟨0, 0, 0⟩, false⟩
  have hrun : findRun fs d p need =
      scanChain fs d (findRunBody need) walkLimit c c ⟨0, ⟨0, 0, 0⟩, false⟩ := by
    rw [findRun, g.dirStart_eq hp h]
    rfl
  rcases scan_findRun (volume fs d) hn ((volume fs d).walked l) with
    ⟨st, A, R, B, hr, hs, hrest⟩ | ⟨st, A, T, hr, hI⟩
  · rw [Volume.walked] at hr
    rw [hr] at h1
    refine .inl ⟨st, last, A, R, B ++ (volume fs d).slots (l.drop walkLimit), hrun.trans h1, ?_,
      hrest⟩
    rw [Volume.slots_eq_walked_append, hs]
    simp
  · rw [Volume.walked] at hr
    rw [hr] at h1 h2
    refine .inr ⟨st, A, T, ?_, hI⟩
    rw [hrun, h1, h2 rfl]

/-- A run that the search found: the slots it counted, with the end mark among them if it was
seen. -/
theorem findRun_found {p need : ℕ} (hp : (if p < 2 then fs.rootCluster else p) = c)
    (h : (volume fs d).forest.Chain c l) (hn : 0 < need) {st : RunState} {last : ℕ}
    (hfind : findRun fs d p need = some (st, last, true)) :
    ∃ A R B, (volume fs d).slots l = A ++ (R ++ B) ∧ R.head? = some st.runStart ∧
      R.length = need ∧ (st.pastEnd = true ↔ ∃ e ∈ R, (volume fs d).entry e 0 = 0) := by
  rcases g.findRun_cases hp h hn with
    ⟨st', last', A, R, B, heq, hs, hhead, hlen, -, hpast, -⟩ | ⟨st', A, T, heq, -⟩
  · obtain ⟨rfl, -⟩ := Prod.mk.inj (Option.some.inj (hfind.symm.trans heq))
    exact ⟨A, R, B, hs, hhead, hlen, hpast⟩
  · cases hfind.symm.trans heq

/-- The search finds no run where no slot is free. -/
theorem findRun_missed {p need : ℕ} (hp : (if p < 2 then fs.rootCluster else p) = c)
    (h : (volume fs d).forest.Chain c l) (hn : 0 < need)
    (hused : ∀ s ∈ (volume fs d).slots l, ¬ ((volume fs d).entry s).IsFree) :
    ∃ st last, findRun fs d p need = some (st, last, false) := by
  rcases g.findRun_cases hp h hn with
    ⟨st, last, A, R, B, -, hs, -, hlen, -, -, hfree⟩ | ⟨st, A, T, heq, -⟩
  · have hnil := Volume.run_eq_nil (fun s hs' => hused s (by simp [hs, hs'])) hfree
    rw [hnil, List.length_nil] at hlen
    omega
  · exact ⟨st, _, heq⟩

/-- What `dir_find_or_grow_run` returns on a directory. -/
theorem dirFindOrGrowRun_spec {p need : ℕ} (hp : (if p < 2 then fs.rootCluster else p) = c)
    (h : (volume fs d).forest.Chain c l) (hn : 0 < need) (hneed : need ≤ 16)
    (hsafe : RunSafe fs d p need l) :
    ∃ r d', dirFindOrGrowRun fs d p need = (r, d') ∧ Writes (AllocArea fs (volume fs d)) d d' ∧
      (r = none ∧ volume fs d' = volume fs d ∧ (volume fs d).freeClusters = [] ∧
          (∃ st last, findRun fs d p need = some (st, last, false)) ∨
        ∃ A R B l' q, r = some q ∧ R.head? = some q ∧ R.length = need ∧
          Volume.FreeRun (volume fs d') l' A R B ∧
          (d' = d ∧ l' = l ∧ (∃ st last, findRun fs d p need = some (st, last, true)) ∨
            ∃ n, Volume.Grown (volume fs d) (volume fs d') l n ∧ l' = l ++ [n] ∧
              (∃ st last, findRun fs d p need = some (st, last, false)) ∧
              ∀ x, R.getLast? = some x → x.cluster = n)) := by
  rw [dirFindOrGrowRun]
  rcases g.findRun_cases hp h hn with
    ⟨st, last, A, R, B, hfind, hs, hhead, hlen, hbefore, hpast, hfree⟩ | ⟨st, A, T, hfind, hI⟩
  · rw [hfind]
    refine ⟨_, d, rfl, .refl _ _, .inr ⟨A, R, B, l, _, rfl, hhead, hlen,
      ⟨hs, hbefore, hfree, fun h0 => ?_⟩, .inl ⟨rfl, rfl, st, last, rfl⟩⟩⟩
    exact hsafe.tail st last hfind (hpast.mpr h0) A R B hs hhead hlen
  · have hlen := hsafe.grow st _ hfind
    have hl : l.take walkLimit = l := List.take_of_length_le hlen
    have hw : (volume fs d).walked l = (volume fs d).slots l := by rw [Volume.walked, hl]
    rw [hl] at hfind
    rw [hfind]
    rw [hw] at hI
    obtain ⟨r, d', e1, e2, ⟨hnil, rfl, hv⟩ | ⟨n, rest, hfr, rfl, hgr⟩⟩ := g.dirGrow_spec h c
    · refine ⟨none, d', ?_, e2, .inl ⟨rfl, hv, hnil, st, _, rfl⟩⟩
      simp only [e1]
    · obtain ⟨R, B, hhead, hlenR, hfr', hlast⟩ := g.freeRun_grown h hneed hI hgr
      refine ⟨_, d', ?_, e2, .inr ⟨A, R, B, l ++ [n], _, rfl, hhead, hlenR, hfr',
        .inr ⟨n, hgr, rfl, ⟨st, _, rfl⟩, hlast⟩⟩⟩
      simp only [e1]

/-! ## Writing the entries of a long name -/

/-- The loop over the long-name entries stores them in the slots `R` and ends at the slot behind. -/
theorem writeLfnEntries_spec (basename : CString) (checksum : UInt8) (count seq : ℕ)
    {A B R : List DirCursor} {p q : DirCursor} {d : Disk}
    (h : (volume fs d).forest.Chain c l) (hs : (volume fs d).slots l = A ++ (R ++ q :: B))
    (hlen : R.length = seq) (hhead : (R ++ [q]).head? = some p) :
    ∃ d', writeLfnEntries fs basename checksum count seq p d = (some q, d') ∧
      Volume.Edit (volume fs d) (volume fs d') R ∧
      R.map (volume fs d').entry = lfnEntries basename checksum count seq ∧
      Writes (fun s => ∃ r ∈ R, s = dirCursorSector fs r) d d' := by
  induction R generalizing A seq p d with
  | nil =>
    subst hlen
    obtain rfl : q = p := by simpa using hhead
    exact ⟨d, rfl, .refl _ _, rfl, .refl _ _⟩
  | cons r R ih =>
    obtain ⟨seq, rfl⟩ : ∃ k, seq = k + 1 := ⟨R.length, by simpa using hlen.symm⟩
    obtain rfl : r = p := by simpa using hhead
    have hr : r ∈ (volume fs d).slots l := by simp [hs]
    obtain ⟨d₁, e1, e2, e3⟩ := g.dirWriteEntryAt_spec h.2 hr (lfnEntry basename checksum count (seq + 1))
    have hal := Volume.aligned_of_slots hr
    obtain ⟨hed, -⟩ := Volume.setEntry_edit (v := volume fs d) hal
      (lfnEntry basename checksum count (seq + 1))
    rw [← e2] at hed
    have h' : (volume fs d₁).forest.Chain c l := hed.chain h
    have hs' : (volume fs d₁).slots l = (A ++ [r]) ++ (R ++ q :: B) := by
      rw [Volume.slots_congr hed.sectorsPerCluster, hs]
      simp
    -- the slot the cursor moves to
    obtain ⟨p', hp'⟩ : ∃ p', (R ++ [q]).head? = some p' := by
      cases R with
      | nil => exact ⟨q, rfl⟩
      | cons x R => exact ⟨x, rfl⟩
    have hadv : dirCursorAdvance fs d₁ r = some p' := by
      cases R with
      | nil =>
        obtain rfl : q = p' := by simpa using hp'
        refine g.dirCursorAdvance_of_slots h' (A := A) (B := B) ?_
        rw [hs']
        simp
      | cons x R =>
        obtain rfl : x = p' := by simpa using hp'
        refine g.dirCursorAdvance_of_slots h' (A := A) (B := R ++ q :: B) ?_
        rw [hs']
        simp
    obtain ⟨d', f1, f2, f3, f4⟩ := ih seq h' hs' (by simpa using hlen) hp'
    have hnd := (volume fs d).nodup_slots h.1.nodup
    have hrR : r ∉ R := by
      rw [hs] at hnd
      have := (List.nodup_cons.mp (List.nodup_append.mp hnd).2.1).1
      exact fun hin => this (List.mem_append_left _ hin)
    rw [e2] at f2
    obtain ⟨g1, g2⟩ := Volume.edit_cons hal hrR f2
    refine ⟨d', ?_, g1, ?_, ?_⟩
    · rw [writeLfnEntries, e1]
      simp only [hadv]
      exact f1
    · rw [List.map_cons, g2, f3]
      rfl
    · refine (e3.mono fun s hs => ⟨r, by simp, hs⟩).trans (f4.mono fun s hs => ?_)
      obtain ⟨x, hx, rfl⟩ := hs
      exact ⟨x, by simp [hx], rfl⟩

end Geometry

end PsychWard.Fat32
