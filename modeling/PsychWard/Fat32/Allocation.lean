import PsychWard.Fat32.FreeChain
import PsychWard.Fat32.DataSpec

/-!
# Allocating a chain

`fat_alloc_chain` takes the first free cluster again and again, marks it as the end of the chain,
links it behind the one before and fills it with zeros; when it finds none, the partial chain goes
through `fat_free_chain`. `Taken` says what the disk is after some rounds: the clusters taken so far
are a chain, and outside of them every copy of the table is what it was. A round adds a cluster to it
(`VolumeLayout.taken_append`) and the way back restores every entry (`VolumeLayout.freePartial_taken`).

Two kinds of free entries break the argument, and the code: those whose number reads as an end mark
when it is stored as a link, and those whose sectors do not have 32-bit numbers, so that the zeroes
land on the table.
-/

namespace PsychWard.Fat32

/-- Sectors have 512 bytes, and the table lies in front of the clusters and ends below sector
`2 ^ 32`. -/
structure VolumeShape (fs : Fat32Instance) : Prop where
  bytes : fs.bytesPerSector = 512
  copies_pos : 0 < fs.fatCount
  dataStart : fs.dataStartSector = fs.reservedSectors + fs.fatCount * fs.sectorsPerFat
  dataStart_lt : fs.dataStartSector < 2 ^ 32

/-- Such a volume on a device that does not fail. -/
structure VolumeLayout (fs : Fat32Instance) : Prop extends VolumeShape fs where
  noFault : NoFault fs

/-- All copies of the table have the same entries. -/
def IdenticalCopies (fs : Fat32Instance) (d : Disk) : Prop :=
  ∀ k < fs.fatCount, ∀ c, InTable fs c → copyEntry fs d k c = copyEntry fs d 0 c

/-- The table has an entry of index `c` that marks a cluster as free. -/
def FreeEntry (fs : Fat32Instance) (d : Disk) (c : ℕ) : Prop :=
  2 ≤ c ∧ InTable fs c ∧ copyEntry fs d 0 c % 2 ^ 28 = 0

instance (fs : Fat32Instance) (d : Disk) (c : ℕ) : Decidable (FreeEntry fs d c) :=
  inferInstanceAs (Decidable (_ ∧ _ ∧ _))

/-- The indices of the free entries. -/
def freeEntries (fs : Fat32Instance) (d : Disk) : List ℕ :=
  (List.range (128 * fs.sectorsPerFat)).filter fun c => decide (FreeEntry fs d c)

/-- A cluster whose number is no end mark and whose sectors have 32-bit numbers. -/
def Linkable (fs : Fat32Instance) (c : ℕ) : Prop :=
  c < fat32Eoc ∧ dataSector fs c fs.sectorsPerCluster ≤ 2 ^ 32

/-- The disk after a round that took `c`, with `prev` taken before. -/
def roundDisk (fs : Fat32Instance) (prev c : ℕ) (d : Disk) : Disk :=
  zeroSectors fs fs.sectorsPerCluster (clusterToSector fs c)
    (if prev = 0 then (true, (fatSetEntry fs d c fat32Eoc).2)
      else fatSetEntry fs (fatSetEntry fs d c fat32Eoc).2 prev c).2

/-- The disk after some rounds: `l` are the clusters taken from the disk `d₀` so far. -/
structure Taken (fs : Fat32Instance) (d₀ d : Disk) (l : List ℕ) : Prop where
  nodup : l.Nodup
  free : ∀ c ∈ l, FreeEntry fs d₀ c
  linkable : ∀ c ∈ l, Linkable fs c
  walk : ∀ a, l.head? = some a → Walk (fatNext fs d) a l
  ended : ∀ x, l.getLast? = some x → fatGetEntry fs d x = fat32Eoc
  zeroed : ∀ c ∈ l, ∀ j < fs.sectorsPerCluster, d.sectors (dataSector fs c j) = Block.zero
  kept : ∀ k < fs.fatCount, ∀ c, InTable fs c → c ∉ l → copyEntry fs d k c = copyEntry fs d₀ k c
  reserved : ∀ k < fs.fatCount, ∀ c ∈ l, copyEntry fs d k c / 2 ^ 28 = copyEntry fs d₀ k c / 2 ^ 28
  identical : IdenticalCopies fs d₀ → IdenticalCopies fs d

/-- What was taken are clusters whose entries the code finds. -/
theorem Taken.entries {fs : Fat32Instance} {d₀ d : Disk} {l : List ℕ} (h : Taken fs d₀ d l) :
    ∀ x ∈ l, 2 ≤ x ∧ x < 2 ^ 30 ∧ InTable fs x := by
  intro x hx
  obtain ⟨h2, hin, -⟩ := h.free x hx
  exact ⟨h2, (h.linkable x hx).1.trans (by decide), hin⟩

/-- Disks with the same table sectors have the same entries. -/
theorem copyEntry_congr {fs : Fat32Instance} {d d' : Disk}
    (h : ∀ s, InCopies fs s → d'.sectors s = d.sectors s) {k c : ℕ} (hk : k < fs.fatCount)
    (hc : InTable fs c) : copyEntry fs d' k c = copyEntry fs d k c := by
  rw [copyEntry, copyEntry, h _ ⟨k, hk, _, hc.1, rfl⟩]

/-- The zeroes of a cluster go nowhere else, whether or not they are stored. -/
theorem zeroSectors_frame {fs : Fat32Instance} (hdev : Honest fs) (n sec : ℕ) (d : Disk) {s : ℕ}
    (hs : ∀ j < n, s ≠ (sec + j) % 2 ^ 32) : (zeroSectors fs n sec d).sectors s = d.sectors s := by
  induction n generalizing sec d with
  | zero => rfl
  | succ n ih =>
    rw [zeroSectors, ih (sec + 1) _ fun i hi => by
      rw [show sec + 1 + i = sec + (i + 1) by omega]
      exact hs (i + 1) (by omega)]
    exact hdev.write_ne d _ _ s (hs 0 (by omega))

/-- The zeroes of a cluster, wherever its sectors lie. -/
theorem zeroSectors_spec {fs : Fat32Instance} (hf : NoFault fs) (n sec : ℕ) (d : Disk) :
    (∀ j < n, (zeroSectors fs n sec d).sectors ((sec + j) % 2 ^ 32) = Block.zero) ∧
      ∀ s, (∀ j < n, s ≠ (sec + j) % 2 ^ 32) →
        (zeroSectors fs n sec d).sectors s = d.sectors s := by
  refine ⟨?_, fun s hs => zeroSectors_frame hf.honest n sec d hs⟩
  induction n generalizing sec d with
  | zero => exact fun j hj => absurd hj (Nat.not_lt_zero j)
  | succ n ih =>
    intro j hj
    rw [zeroSectors, hf.write]
    by_cases hlater : ∃ i < n, (sec + j) % 2 ^ 32 = (sec + 1 + i) % 2 ^ 32
    · obtain ⟨i, hi, heq⟩ := hlater
      rw [heq]
      exact ih (sec + 1) _ i hi
    · -- no later write goes to this sector, so it is the first one
      have hj0 : j = 0 := by
        by_contra hne
        exact hlater ⟨j - 1, by omega, by rw [show sec + 1 + (j - 1) = sec + j by omega]⟩
      subst hj0
      rw [zeroSectors_frame hf.honest n (sec + 1) _ fun i hi heq => hlater ⟨i, hi, heq⟩]
      exact Function.update_self ..

theorem NoFault.link_eq {fs : Fat32Instance} (hf : NoFault fs) (d : Disk) (prev c : ℕ) :
    (if prev = 0 then (true, d) else fatSetEntry fs d prev c) =
      (true, (if prev = 0 then (true, d) else fatSetEntry fs d prev c).2) := by
  split
  · rfl
  · exact hf.fatSetEntry_eq d prev c

namespace VolumeShape

variable {fs : Fat32Instance} (v : VolumeShape fs) {d : Disk} {c : ℕ}

include v

theorem disjointCopies : DisjointCopies fs := by
  have hstart := v.dataStart
  have hlt := v.dataStart_lt
  have hmul : 1 * fs.sectorsPerFat ≤ fs.fatCount * fs.sectorsPerFat :=
    Nat.mul_le_mul_right _ v.copies_pos
  exact disjointCopies_of_le (by rw [v.bytes]; omega) v.copies_pos (by omega) (by omega)

theorem inTable_iff : InTable fs c ↔ c < 128 * fs.sectorsPerFat := by
  rw [InTable, v.bytes]
  omega

/-- The copies end in front of the clusters. -/
theorem lt_of_inCopies {s : ℕ} (h : InCopies fs s) : s < fs.dataStartSector := by
  obtain ⟨k, hk, j, hj, rfl⟩ := h
  have hstart := v.dataStart
  have hlt := v.dataStart_lt
  obtain ⟨h1, h2, h3⟩ := copySector_eq (by omega) hk hj
  omega

theorem not_inCopies_dataSector {j : ℕ} : ¬ InCopies fs (dataSector fs c j) := by
  intro h
  have hlt := v.lt_of_inCopies h
  unfold dataSector at hlt
  omega

theorem mem_freeEntries : c ∈ freeEntries fs d ↔ FreeEntry fs d c := by
  rw [freeEntries, List.mem_filter, List.mem_range, decide_eq_true_eq]
  exact ⟨fun h => h.2, fun h => ⟨v.inTable_iff.mp h.2.1, h⟩⟩

/-- The entry that the search for a free one looks at. -/
theorem copyEntry_sector {sec e : ℕ} (he : e < 128) : copyEntry fs d 0 (sec * 128 + e) =
    (d.sectors ((fs.reservedSectors + sec) % 2 ^ 32)).u32 (4 * e) := by
  have h1 : 4 * (sec * 128 + e) / 512 = sec := by omega
  have h2 : 4 * (sec * 128 + e) % 512 / 4 * 4 = 4 * e := by omega
  rw [copyEntry, v.bytes, h1, h2, copySector, Nat.zero_mul, Nat.zero_mod, Nat.add_zero]

end VolumeShape

namespace VolumeLayout

variable {fs : Fat32Instance} (v : VolumeLayout fs) {d d₀ : Disk} {c : ℕ}

include v

theorem tableLayout : TableLayout fs := ⟨v.disjointCopies, v.noFault⟩

/-! ## The search for a free entry -/

/-- The search in one sector finds its first free entry, unless the cluster does not exist in 32
bits. -/
private theorem fatFindFreeInSector_free {sec : ℕ} (hsec : sec < fs.sectorsPerFat) :
    (∀ e, fatFindFreeInSector (d.sectors ((fs.reservedSectors + sec) % 2 ^ 32)) sec 128 = some e →
      FreeEntry fs d (sec * 128 + e) ∧ e < 128 ∧
        ∀ e' < e, FreeEntry fs d (sec * 128 + e') → 2 ^ 32 ≤ sec * 128 + e') ∧
    (fatFindFreeInSector (d.sectors ((fs.reservedSectors + sec) % 2 ^ 32)) sec 128 = none →
      ∀ e < 128, FreeEntry fs d (sec * 128 + e) → 2 ^ 32 ≤ sec * 128 + e) := by
  -- the test of the loop says whether the entry is free
  have htest : ∀ e < 128, (decide (2 ≤ (sec * 128 + e) % 2 ^ 32) && decide ((d.sectors
      ((fs.reservedSectors + sec) % 2 ^ 32)).u32 (4 * e) % 2 ^ 28 = 0)) = true ↔
      FreeEntry fs d (sec * 128 + e) ∧ 2 ≤ (sec * 128 + e) % 2 ^ 32 := by
    intro e he
    have hin : InTable fs (sec * 128 + e) := v.inTable_iff.mpr (by omega)
    rw [← v.copyEntry_sector he, Bool.and_eq_true, decide_eq_true_eq, decide_eq_true_eq]
    constructor
    · exact fun h => ⟨⟨h.1.trans (Nat.mod_le _ _), hin, h.2⟩, h.1⟩
    · exact fun h => ⟨h.2, h.1.2.2⟩
  constructor
  · intro e he
    obtain ⟨he1, he2, he3⟩ := List.find?_range_eq_some.mp he
    have hlt := List.mem_range.mp he2
    refine ⟨((htest e hlt).mp he1).1, hlt, fun e' he' hfree => ?_⟩
    by_contra hsmall
    have h2 := hfree.1
    have h3 := he3 e' he'
    rw [(htest e' (by omega)).mpr ⟨hfree, by omega⟩] at h3
    cases h3
  · intro hnone e he hfree
    by_contra hsmall
    have h2 := hfree.1
    exact List.find?_eq_none.mp hnone e (List.mem_range.mpr he)
      ((htest e he).mpr ⟨hfree, by omega⟩)

private theorem fatFindFreeClusterFrom_free (n sec : ℕ) (h : sec + n = fs.sectorsPerFat) :
    (fatFindFreeClusterFrom fs d n sec = 0 ∧
      ∀ c, FreeEntry fs d c → sec * 128 ≤ c → 2 ^ 32 ≤ c) ∨
    ∃ i, fatFindFreeClusterFrom fs d n sec = i % 2 ^ 32 ∧ FreeEntry fs d i ∧
      ∀ c, FreeEntry fs d c → sec * 128 ≤ c → c < i → 2 ^ 32 ≤ c := by
  induction n generalizing sec with
  | zero =>
    refine .inl ⟨rfl, fun c hc hle => ?_⟩
    have hin := v.inTable_iff.mp hc.2.1
    omega
  | succ n ih =>
    obtain ⟨hsome, hnone⟩ := v.fatFindFreeInSector_free (d := d) (show sec < fs.sectorsPerFat by omega)
    simp only [fatFindFreeClusterFrom, v.noFault.read, v.bytes]
    cases hfind : fatFindFreeInSector (d.sectors ((fs.reservedSectors + sec) % 2 ^ 32)) sec 128 with
    | some e =>
      obtain ⟨hfree, he, hmin⟩ := hsome e hfind
      refine .inr ⟨_, rfl, hfree, fun c hc hle hlt => ?_⟩
      have h' := hmin (c - sec * 128) (by omega)
      rw [show sec * 128 + (c - sec * 128) = c by omega] at h'
      exact h' hc
    | none =>
      -- no cluster of this sector is found, so the bound moves to the next
      have hskip : ∀ c, FreeEntry fs d c → sec * 128 ≤ c → c < (sec + 1) * 128 → 2 ^ 32 ≤ c := by
        intro c hc hle hlt
        have h' := hnone hfind (c - sec * 128) (by omega)
        rw [show sec * 128 + (c - sec * 128) = c by omega] at h'
        exact h' hc
      rcases ih (sec + 1) (by omega) with ⟨h0, hall⟩ | ⟨i, hi, hfree, hmin⟩
      · refine .inl ⟨h0, fun c hc hle => ?_⟩
        by_cases hlt : c < (sec + 1) * 128
        · exact hskip c hc hle hlt
        · exact hall c hc (by omega)
      · refine .inr ⟨i, hi, hfree, fun c hc hle hci => ?_⟩
        by_cases hlt : c < (sec + 1) * 128
        · exact hskip c hc hle hlt
        · exact hmin c hc (by omega) hci

/-- The search finds the first free entry, and 0 exactly when there is none, as long as the first one
has a 32-bit number. -/
theorem fatFindFreeCluster_free
    (hsmall : ∀ c, FreeEntry fs d c → (∀ x, FreeEntry fs d x → c ≤ x) → c < 2 ^ 32) :
    (fatFindFreeCluster fs d = 0 ∧ ∀ c, ¬ FreeEntry fs d c) ∨
    (FreeEntry fs d (fatFindFreeCluster fs d) ∧
      ∀ c, FreeEntry fs d c → fatFindFreeCluster fs d ≤ c) := by
  by_cases hex : ∃ c, FreeEntry fs d c
  · -- the first free entry is the one found
    have hfirst := Nat.find_spec hex
    have hmin : ∀ x, FreeEntry fs d x → Nat.find hex ≤ x := fun x hx => Nat.find_min' hex hx
    have hlt := hsmall _ hfirst hmin
    rcases v.fatFindFreeClusterFrom_free (d := d) fs.sectorsPerFat 0 (Nat.zero_add _) with
      ⟨-, hall⟩ | ⟨i, hi, hfree, hbefore⟩
    · exact absurd (hall _ hfirst (by omega)) (by omega)
    · have hle := hmin i hfree
      have heq : i = Nat.find hex := by
        by_contra hne
        have := hbefore _ hfirst (by omega) (by omega)
        omega
      have hfind : fatFindFreeCluster fs d = Nat.find hex := by
        rw [fatFindFreeCluster, hi, heq, Nat.mod_eq_of_lt hlt]
      rw [hfind]
      exact .inr ⟨hfirst, hmin⟩
  · have hnone : ∀ c, ¬ FreeEntry fs d c := not_exists.mp hex
    rcases v.fatFindFreeClusterFrom_free (d := d) fs.sectorsPerFat 0 (Nat.zero_add _) with
      ⟨h0, -⟩ | ⟨i, -, hfree, -⟩
    · exact .inl ⟨h0, hnone⟩
    · exact absurd hfree (hnone i)

/-! ## One round -/

omit v in
/-- The sectors of a cluster below sector `2 ^ 32`, as the code computes their numbers. -/
theorem sector_of_le (h2 : 2 ≤ c) (hsec : dataSector fs c fs.sectorsPerCluster ≤ 2 ^ 32) {j : ℕ}
    (hj : j < fs.sectorsPerCluster) : (clusterToSector fs c + j) % 2 ^ 32 = dataSector fs c j := by
  rw [clusterToSector_mod h2]
  refine Nat.mod_eq_of_lt ?_
  unfold dataSector at hsec ⊢
  omega

/-- `fat_set_entry(fs, prev, c)`, which the first round leaves out. -/
theorem link_copies {l : List ℕ} (hl : ∀ x ∈ l, 2 ≤ x ∧ x < 2 ^ 30 ∧ InTable fs x)
    (hlt : c < 2 ^ 28) (d : Disk) :
    ∃ d', (if l.getLastD 0 = 0 then (true, d) else fatSetEntry fs d (l.getLastD 0) c) = (true, d') ∧
      (∀ k < fs.fatCount, ∀ x, InTable fs x → copyEntry fs d' k x =
        if l.getLast? = some x then copyEntry fs d k x / 2 ^ 28 * 2 ^ 28 + c
        else copyEntry fs d k x) ∧
      ∀ s, ¬ InCopies fs s → d'.sectors s = d.sectors s := by
  cases hlast : l.getLast? with
  | none =>
    rw [List.getLastD_eq_getLast?, hlast]
    refine ⟨d, rfl, fun k _ x _ => ?_, fun s _ => rfl⟩
    rw [if_neg (by simp)]
  | some p =>
    obtain ⟨h2, hp, hin⟩ := hl p (List.mem_of_getLast? hlast)
    obtain ⟨d', hrun, hstored⟩ := v.tableLayout.fatSetEntry_spec hp hin c d
    have hne : ¬ p = 0 := by omega
    rw [List.getLastD_eq_getLast?, hlast, Option.getD_some, if_neg hne, hrun]
    refine ⟨d', rfl, fun k hk x hx => ?_, hstored.outside⟩
    by_cases heq : p = x
    · rw [if_pos (congrArg some heq), ← heq, hstored.stored k hk, Nat.mod_eq_of_lt hlt]
    · rw [if_neg fun h => heq (Option.some.inj h), hstored.kept k hk x hx (Ne.symm heq)]

/-- What a round that takes `c` does to the entries and to the other sectors. -/
theorem round_spec {l : List ℕ} (hl : ∀ x ∈ l, 2 ≤ x ∧ x < 2 ^ 30 ∧ InTable fs x)
    (h2 : 2 ≤ c) (hin : InTable fs c) (hlt : c < 2 ^ 28)
    (hsec : dataSector fs c fs.sectorsPerCluster ≤ 2 ^ 32) (hcl : c ∉ l) :
    (∀ k < fs.fatCount, ∀ x, InTable fs x → copyEntry fs (roundDisk fs (l.getLastD 0) c d) k x =
      if x = c then copyEntry fs d k x / 2 ^ 28 * 2 ^ 28 + fat32Eoc
      else if l.getLast? = some x then copyEntry fs d k x / 2 ^ 28 * 2 ^ 28 + c
      else copyEntry fs d k x) ∧
    (∀ j < fs.sectorsPerCluster,
      (roundDisk fs (l.getLastD 0) c d).sectors (dataSector fs c j) = Block.zero) ∧
    ∀ s, ¬ InCopies fs s → (∀ j < fs.sectorsPerCluster, s ≠ dataSector fs c j) →
      (roundDisk fs (l.getLastD 0) c d).sectors s = d.sectors s := by
  obtain ⟨d₁, hset, hstored⟩ :=
    v.tableLayout.fatSetEntry_spec (hlt.trans (by decide)) hin fat32Eoc d
  obtain ⟨d₂, hlink, hentries, houtside⟩ := v.link_copies hl hlt d₁
  obtain ⟨hzero, hrest⟩ :=
    zeroSectors_spec v.noFault fs.sectorsPerCluster (clusterToSector fs c) d₂
  have hround : roundDisk fs (l.getLastD 0) c d =
      zeroSectors fs fs.sectorsPerCluster (clusterToSector fs c) d₂ := by
    rw [roundDisk, hset, hlink]
  rw [hround]
  set d₃ := zeroSectors fs fs.sectorsPerCluster (clusterToSector fs c) d₂ with hd₃
  -- the zeroes do not touch the table
  have htable : ∀ s, InCopies fs s → d₃.sectors s = d₂.sectors s := fun s hs =>
    hrest s fun j hj heq => by
      rw [sector_of_le h2 hsec hj] at heq
      exact v.not_inCopies_dataSector (heq ▸ hs)
  refine ⟨fun k hk x hx => ?_, fun j hj => ?_, fun s hs hdata => ?_⟩
  · rw [copyEntry_congr htable hk hx, hentries k hk x hx]
    by_cases hxc : x = c
    · have hlast : ¬ l.getLast? = some x := fun h => hcl (hxc ▸ List.mem_of_getLast? h)
      rw [if_neg hlast, if_pos hxc, hxc, hstored.stored k hk]
      rfl
    · rw [if_neg hxc, hstored.kept k hk x hx hxc]
  · rw [← sector_of_le h2 hsec hj]
    exact hzero j hj
  · rw [hrest s fun j hj heq => hdata j hj (by rw [heq, sector_of_le h2 hsec hj]),
      houtside s hs, hstored.outside s hs]

/-! ## All rounds -/

omit v in
theorem taken_nil : Taken fs d d [] :=
  ⟨List.nodup_nil, by simp, by simp, by simp, by simp, by simp, fun _ _ _ _ _ => rfl, by simp, id⟩

omit v in
/-- A taken cluster is not free any more. -/
theorem fatGetEntry_ne_zero {l : List ℕ} (h : Taken fs d₀ d l) {x : ℕ} (hx : x ∈ l) :
    fatGetEntry fs d x ≠ 0 := by
  obtain ⟨a, m, rfl⟩ := List.exists_cons_of_ne_nil (List.ne_nil_of_mem hx)
  have hw := h.walk a rfl
  intro hzero
  have hend : fatNext fs d x = none := by
    rw [fatNext, hzero]
    rfl
  have hlast := (hw.next_eq_none_iff hx).mp hend
  have heoc := h.ended x (by rw [List.getLast?_eq_some_getLast hw.ne_nil, hlast])
  rw [hzero] at heoc
  cases heoc

theorem free_of_taken {l : List ℕ} (h : Taken fs d₀ d l) (hc : FreeEntry fs d c)
    (hlt : c < 2 ^ 30) : FreeEntry fs d₀ c ∧ c ∉ l := by
  have hcl : c ∉ l := by
    intro hmem
    have hne := fatGetEntry_ne_zero h hmem
    rw [v.tableLayout.fatGetEntry_eq hlt] at hne
    exact hne hc.2.2
  have hkept := h.kept 0 v.copies_pos c hc.2.1 hcl
  exact ⟨⟨hc.1, hc.2.1, hkept ▸ hc.2.2⟩, hcl⟩

/-- A round adds its cluster to those taken. -/
theorem taken_append {l : List ℕ} (h : Taken fs d₀ d l) (hfree : FreeEntry fs d c)
    (hc : Linkable fs c) : Taken fs d₀ (roundDisk fs (l.getLastD 0) c d) (l ++ [c]) := by
  have hlt : c < 2 ^ 30 := hc.1.trans (by decide)
  obtain ⟨hfree₀, hcl⟩ := v.free_of_taken h hfree hlt
  obtain ⟨hentries, hzero, hrest⟩ :=
    v.round_spec (d := d) h.entries hfree.1 hfree.2.1 (hc.1.trans (by decide)) hc.2 hcl
  set d' := roundDisk fs (l.getLastD 0) c d with hd'
  have hlin : ∀ x ∈ l, x < 2 ^ 30 ∧ InTable fs x := fun x hx => (h.entries x hx).2
  have hcget : fatGetEntry fs d' c = fat32Eoc := by
    rw [v.tableLayout.fatGetEntry_eq hlt, hentries 0 v.copies_pos c hfree.2.1, if_pos rfl, fat32Eoc]
    omega
  -- the entries of the clusters taken before, but for the last one
  have hsame : ∀ x ∈ l, l.getLast? ≠ some x → fatGetEntry fs d' x = fatGetEntry fs d x := by
    intro x hx hne
    have hxc : x ≠ c := ne_of_mem_of_not_mem hx hcl
    rw [v.tableLayout.fatGetEntry_eq (hlin x hx).1, v.tableLayout.fatGetEntry_eq (hlin x hx).1,
      hentries 0 v.copies_pos x (hlin x hx).2, if_neg hxc, if_neg hne]
  have hlink : ∀ x, l.getLast? = some x → fatGetEntry fs d' x = c := by
    intro x hx
    have hxl := List.mem_of_getLast? hx
    have hxc : x ≠ c := ne_of_mem_of_not_mem hxl hcl
    rw [v.tableLayout.fatGetEntry_eq (hlin x hxl).1, hentries 0 v.copies_pos x (hlin x hxl).2,
      if_neg hxc, if_pos hx]
    have := hc.1
    unfold fat32Eoc at this
    omega
  have hnext : clusterHasNext c = true := by
    rw [clusterHasNext, decide_eq_true hfree.1, decide_eq_true hc.1]
    rfl
  have hend : Walk (fatNext fs d') c [c] := .last (by
    rw [fatNext, hcget]
    rfl)
  refine ⟨?_, ?_, ?_, fun a ha => ?_, fun x hx => ?_, ?_, fun k hk x hx hnot => ?_, fun k hk => ?_,
    fun hid k hk x hx => ?_⟩
  · exact List.nodup_append.mpr ⟨h.nodup, List.nodup_singleton c, fun a ha b hb heq =>
      hcl (by rwa [← List.mem_singleton.mp hb, ← heq])⟩
  · exact List.forall_mem_append.mpr ⟨h.free, List.forall_mem_singleton.mpr hfree₀⟩
  · exact List.forall_mem_append.mpr ⟨h.linkable, List.forall_mem_singleton.mpr hc⟩
  · cases hl : l with
    | nil =>
      rw [hl] at ha
      obtain rfl : c = a := by simpa using ha
      exact hend
    | cons b m =>
      rw [hl] at ha
      obtain rfl : b = a := by simpa using ha
      have hw := h.walk b (by rw [hl]; rfl)
      rw [← hl]
      have hlast : l.getLast? = some (l.getLast hw.ne_nil) :=
        List.getLast?_eq_some_getLast hw.ne_nil
      refine hw.append hend (fun x hx hn => ?_) fun x hx hn => ?_
      · have hne : l.getLast? ≠ some x := fun hp => by
          rw [hlast] at hp
          exact hn ((hw.next_eq_none_iff hx).mpr (Option.some.inj hp).symm)
        rw [fatNext, fatNext, hsame x hx hne]
      · have hx' : l.getLast? = some x := by rw [hlast, (hw.next_eq_none_iff hx).mp hn]
        have hval := hlink x hx'
        rw [fatNext_pos (by rw [hval]; exact hnext), hval]
  · rw [List.getLast?_append, List.getLast?_singleton, Option.some_or] at hx
    obtain rfl := Option.some.inj hx
    exact hcget
  · refine List.forall_mem_append.mpr ⟨fun x hx j hj => ?_, List.forall_mem_singleton.mpr hzero⟩
    by_cases hhit : ∃ i < fs.sectorsPerCluster, dataSector fs x j = dataSector fs c i
    · obtain ⟨i, hi, heq⟩ := hhit
      rw [heq]
      exact hzero i hi
    · rw [hrest _ v.not_inCopies_dataSector fun i hi heq => hhit ⟨i, hi, heq⟩]
      exact h.zeroed x hx j hj
  · rw [List.mem_append, List.mem_singleton, not_or] at hnot
    have hne : l.getLast? ≠ some x := fun hp => hnot.1 (List.mem_of_getLast? hp)
    rw [hentries k hk x hx, if_neg hnot.2, if_neg hne, h.kept k hk x hx hnot.1]
  · refine List.forall_mem_append.mpr ⟨fun x hx => ?_, List.forall_mem_singleton.mpr ?_⟩
    · have hxc : x ≠ c := ne_of_mem_of_not_mem hx hcl
      have hsmall := hc.1
      rw [← h.reserved k hk x hx, hentries k hk x (hlin x hx).2, if_neg hxc]
      split
      · unfold fat32Eoc at hsmall
        omega
      · rfl
    · rw [← h.kept k hk c hfree.2.1 hcl, hentries k hk c hfree.2.1, if_pos rfl, fat32Eoc]
      omega
  · rw [hentries k hk x hx, hentries 0 v.copies_pos x hx, h.identical hid k hk x hx]

omit v in
/-- The first cluster of the chain, as the loop keeps it. -/
theorem headD_append {l : List ℕ} (h : ∀ x ∈ l, 2 ≤ x) :
    (if l.headD 0 = 0 then c else l.headD 0) = (l ++ [c]).headD 0 := by
  cases hl : l with
  | nil => rfl
  | cons a m =>
    have ha := h a (by rw [hl]; exact List.mem_cons_self)
    rw [List.headD_cons, if_neg (by omega)]
    rfl

/-- A round of the loop that finds `c`. -/
theorem fatAllocChainLoop_round {l : List ℕ} (h : ∀ x ∈ l, 2 ≤ x)
    (hfind : fatFindFreeCluster fs d = c) (hc : c ≠ 0) (n : ℕ) :
    fatAllocChainLoop fs (n + 1) (l.headD 0) (l.getLastD 0) d =
      fatAllocChainLoop fs n ((l ++ [c]).headD 0) ((l ++ [c]).getLastD 0)
        (roundDisk fs (l.getLastD 0) c d) := by
  rw [fatAllocChainLoop, hfind, if_neg hc, v.noFault.fatSetEntry_eq]
  simp only
  rw [v.noFault.link_eq, headD_append h, List.getLastD_concat]
  rfl

/-- The way back: the partial chain is freed, and every entry is what it was. -/
theorem freePartial_taken {l : List ℕ} (h : Taken fs d₀ d l) (hid : IdenticalCopies fs d₀)
    (hlen : l.length ≤ 65536) : ∀ k < fs.fatCount, ∀ c, InTable fs c →
      copyEntry fs (freePartial fs d (l.headD 0)) k c = copyEntry fs d₀ k c := by
  intro k hk c hc
  cases hl : l with
  | nil => exact h.kept k hk c hc (by rw [hl]; exact List.not_mem_nil)
  | cons a m =>
    have ha : a ∈ l := by rw [hl]; exact List.mem_cons_self
    have h2 := (h.free a ha).1
    obtain ⟨d', hrun, hfreed⟩ := v.tableLayout.fatFreeChain_spec h2 (h.walk a (by rw [hl]; rfl))
      fun x hx => ⟨(h.linkable x hx).1.trans (by decide), (h.free x hx).2.1⟩
    rw [List.take_of_length_le hlen] at hfreed
    rw [List.headD_cons, freePartial, if_neg (by omega), hrun]
    by_cases hcl : c ∈ l
    · -- its low bits were 0 in the first copy, and so in every copy
      have hzero := (h.free c hcl).2.2
      rw [← hid k hk c hc] at hzero
      have hres := h.reserved k hk c hcl
      rw [hfreed.freed k hk c hcl]
      omega
    · rw [hfreed.kept k hk c hc hcl, h.kept k hk c hc hcl]

/-- The rounds of the loop take clusters until there are enough of them, or give all of them back. -/
theorem fatAllocChainLoop_taken (hid : IdenticalCopies fs d₀)
    (hlink : ∀ c, FreeEntry fs d₀ c → Linkable fs c) (n : ℕ) (l : List ℕ) (d : Disk)
    (h : Taken fs d₀ d l) (hlen : l.length + n ≤ 65536) :
    (∃ l' d', fatAllocChainLoop fs n (l.headD 0) (l.getLastD 0) d = (l'.headD 0, d') ∧
      l'.length = l.length + n ∧ Taken fs d₀ d' l') ∨
    ∃ d', fatAllocChainLoop fs n (l.headD 0) (l.getLastD 0) d = (0, d') ∧
      (freeEntries fs d₀).length < l.length + n ∧
      ∀ k < fs.fatCount, ∀ c, InTable fs c → copyEntry fs d' k c = copyEntry fs d₀ k c := by
  induction n generalizing l d with
  | zero => exact .inl ⟨l, d, rfl, rfl, h⟩
  | succ n ih =>
    have hfreelink : ∀ c, FreeEntry fs d c → Linkable fs c := by
      intro c hc
      by_cases hcl : c ∈ l
      · exact h.linkable c hcl
      · have hkept := h.kept 0 v.copies_pos c hc.2.1 hcl
        exact hlink c ⟨hc.1, hc.2.1, hkept ▸ hc.2.2⟩
    rcases v.fatFindFreeCluster_free fun c hc _ =>
        (hfreelink c hc).1.trans (by decide) with
      ⟨hnone, hall⟩ | ⟨hfree, -⟩
    · refine .inr ⟨freePartial fs d (l.headD 0), ?_, ?_, v.freePartial_taken h hid (by omega)⟩
      · rw [fatAllocChainLoop, hnone, if_pos rfl]
      · -- every cluster that was free has been taken
        have hsub : freeEntries fs d₀ ⊆ l := by
          intro c hc
          have hc₀ := v.mem_freeEntries.mp hc
          by_contra hcl
          have hkept := h.kept 0 v.copies_pos c hc₀.2.1 hcl
          exact hall c ⟨hc₀.1, hc₀.2.1, by rw [hkept]; exact hc₀.2.2⟩
        have hnodup : (freeEntries fs d₀).Nodup := List.nodup_range.filter _
        have hle := (hnodup.subperm hsub).length_le
        omega
    · set c := fatFindFreeCluster fs d with hc
      have hne : c ≠ 0 := by
        have := hfree.1
        omega
      have hlength : (l ++ [c]).length + n = l.length + (n + 1) := by
        rw [List.length_append, List.length_singleton]
        omega
      have hrest := ih (l ++ [c]) _ (v.taken_append h hfree (hfreelink c hfree)) (by omega)
      rw [v.fatAllocChainLoop_round (fun x hx => (h.free x hx).1) rfl hne, ← hlength]
      exact hrest

/-- The first free entry is the one found. -/
theorem fatFindFreeCluster_first (hfree : FreeEntry fs d c)
    (hmin : ∀ x, FreeEntry fs d x → c ≤ x ∧ x < 2 ^ 32) : fatFindFreeCluster fs d = c := by
  rcases v.fatFindFreeCluster_free fun x hx _ => (hmin x hx).2 with ⟨-, hnone⟩ | ⟨hfound, hle⟩
  · exact absurd hfree (hnone c)
  · exact Nat.le_antisymm (hle c hfree) (hmin _ hfound).1

end VolumeLayout

/-- What `fat_alloc_chain(n)` does to the disk `d`: its result and the disk afterwards are `r`. -/
structure AllocOutcome (fs : Fat32Instance) (d : Disk) (n : ℕ) (r : ℕ × Disk) : Prop where
  /-- a chain of `n` clusters that were free, filled with zeros -/
  success : r.1 ≠ 0 → ∃ l : List ℕ, l.length = n ∧ l.Nodup ∧ (∀ c ∈ l, FreeEntry fs d c) ∧
    Walk (fatNext fs r.2) r.1 l ∧ (∀ x, l.getLast? = some x → fatGetEntry fs r.2 x = fat32Eoc) ∧
    (∀ c ∈ l, ∀ j < fs.sectorsPerCluster, r.2.sectors (dataSector fs c j) = Block.zero) ∧
    (∀ k < fs.fatCount, ∀ c, InTable fs c → c ∉ l →
      copyEntry fs r.2 k c = copyEntry fs d k c) ∧ IdenticalCopies fs r.2
  /-- too few free clusters, and every entry of every copy as before -/
  failure : r.1 = 0 → (freeEntries fs d).length < n ∧
    ∀ k < fs.fatCount, ∀ c, InTable fs c → copyEntry fs r.2 k c = copyEntry fs d k c

/-- An allocation of at most 65536 clusters succeeds or leaves the table as it was, when every free
entry is one of a linkable cluster. -/
theorem allocOutcome_fatAllocChain {fs : Fat32Instance} (v : VolumeLayout fs) {d : Disk}
    (hid : IdenticalCopies fs d) (hlink : ∀ c, FreeEntry fs d c → Linkable fs c) {n : ℕ}
    (hpos : 1 ≤ n) (hn : n ≤ 65536) : AllocOutcome fs d n (fatAllocChain fs d n) := by
  have h := v.fatAllocChainLoop_taken hid hlink n [] d VolumeLayout.taken_nil
    (by rw [List.length_nil]; omega)
  rw [List.length_nil, Nat.zero_add] at h
  rcases h with ⟨l, d', hrun, hlen, htaken⟩ | ⟨d', hrun, hfew, hsame⟩
  · obtain ⟨a, m, rfl⟩ : ∃ a m, l = a :: m :=
      List.exists_cons_of_ne_nil (List.ne_nil_of_length_pos (by omega))
    have ha := (htaken.free a List.mem_cons_self).1
    have hrun' : fatAllocChain fs d n = (a, d') := hrun
    rw [hrun']
    exact ⟨fun _ => ⟨a :: m, hlen, htaken.nodup, htaken.free, htaken.walk a rfl, htaken.ended,
      htaken.zeroed, htaken.kept, htaken.identical hid⟩, fun h0 => absurd h0 (by simp only; omega)⟩
  · have hrun' : fatAllocChain fs d n = (0, d') := hrun
    rw [hrun']
    exact ⟨fun hne => absurd rfl hne, fun _ => ⟨hfew, hsame⟩⟩

/-! ## Volumes with a single copy of the table -/

theorem volumeLayout_ramFs {perCluster reserved perFat root : ℕ} (h : reserved + perFat < 2 ^ 32) :
    VolumeLayout (ramFs 512 perCluster reserved 1 perFat root) where
  noFault := noFault_ramFs _ _ _ _ _ _
  bytes := rfl
  copies_pos := Nat.one_pos
  dataStart := by
    simp only [ramFs]
    omega
  dataStart_lt := by
    simp only [ramFs]
    omega

theorem identicalCopies_single {fs : Fat32Instance} (h : fs.fatCount = 1) (d : Disk) :
    IdenticalCopies fs d := by
  intro k hk c _
  rw [show k = 0 by omega]

/-- A table in which the entries in `free` are free and the others are taken. -/
def freeTable (free : List ℕ) (c : ℕ) : ℕ := if c ∈ free then 0 else fat32Eoc

/-- The free entries of the disk are those of the table. -/
theorem freeEntry_tableDisk {perCluster reserved perFat root c : ℕ} (h : reserved + perFat < 2 ^ 32)
    (free : List ℕ) : FreeEntry (ramFs 512 perCluster reserved 1 perFat root)
        (tableDisk (ramFs 512 perCluster reserved 1 perFat root) (freeTable free)) c ↔
      2 ≤ c ∧ c < 128 * perFat ∧ c ∈ free := by
  have v : VolumeLayout (ramFs 512 perCluster reserved 1 perFat root) := volumeLayout_ramFs h
  rw [FreeEntry, v.inTable_iff]
  refine and_congr_right fun _ => and_congr_right fun hc => ?_
  have hc' : c < 128 * perFat := hc
  rw [copyEntry_tableDisk rfl (show reserved + c / 128 < 2 ^ 32 by omega), freeTable]
  split
  · simpa
  · simpa [fat32Eoc]

/-- Three of the clusters from 100 to 127 are taken, with two sectors each. -/
theorem allocOutcome_three : AllocOutcome (ramFs 512 2 32 1 1 2)
    (tableDisk (ramFs 512 2 32 1 1 2) (freeTable (List.range' 100 28))) 3
    (fatAllocChain (ramFs 512 2 32 1 1 2)
      (tableDisk (ramFs 512 2 32 1 1 2) (freeTable (List.range' 100 28))) 3) := by
  refine allocOutcome_fatAllocChain (volumeLayout_ramFs (by decide)) (identicalCopies_single rfl _)
    (fun c hc => ?_) (by decide) (by decide)
  have hlt := ((freeEntry_tableDisk (by decide) _).mp hc).2.1
  refine ⟨?_, ?_⟩
  · unfold fat32Eoc
    omega
  · show 33 + (c - 2) * 2 + 2 ≤ 2 ^ 32
    omega

/-- A table with `2 ^ 28` entries, of which 2 and the first end mark are free. -/
def markFs : Fat32Instance := ramFs 512 1 32 1 (2 ^ 21) 2

def markDisk : Disk := tableDisk markFs (freeTable [2, fat32Eoc])

/-- The link to the second cluster reads as the end of the chain. -/
theorem chain_markDisk : ∃ d', fatAllocChain markFs markDisk 2 = (2, d') ∧
    Walk (fatNext markFs d') 2 [2] := by
  have v : VolumeLayout markFs := volumeLayout_ramFs (by decide)
  have hfree : ∀ x, FreeEntry markFs markDisk x ↔ 2 ≤ x ∧ x < 2 ^ 28 ∧ (x = 2 ∨ x = fat32Eoc) := by
    intro x
    refine (freeEntry_tableDisk (by decide) [2, fat32Eoc]).trans ?_
    simp
  have hfree2 : FreeEntry markFs markDisk 2 := (hfree 2).mpr (by decide)
  have hlink2 : Linkable markFs 2 := ⟨by decide, by decide⟩
  have hfind : fatFindFreeCluster markFs markDisk = 2 := by
    refine v.fatFindFreeCluster_first hfree2 fun x hx => ?_
    have := (hfree x).mp hx
    omega
  have htaken := v.taken_append VolumeLayout.taken_nil hfree2 hlink2
  set d₁ := roundDisk markFs (([] : List ℕ).getLastD 0) 2 markDisk with hd₁
  have hkept : ∀ x, InTable markFs x → x ≠ 2 →
      copyEntry markFs d₁ 0 x = copyEntry markFs markDisk 0 x := fun x hx hne =>
    htaken.kept 0 v.copies_pos x hx (by simpa using hne)
  have hmark : FreeEntry markFs d₁ fat32Eoc := by
    have h := (hfree fat32Eoc).mpr (by decide)
    exact ⟨h.1, h.2.1, by rw [hkept _ h.2.1 (by decide)]; exact h.2.2⟩
  have hfind₁ : fatFindFreeCluster markFs d₁ = fat32Eoc := by
    refine v.fatFindFreeCluster_first hmark fun x hx => ?_
    have hne : x ≠ 2 := by
      rintro rfl
      have hget := VolumeLayout.fatGetEntry_ne_zero htaken (List.mem_singleton_self 2)
      rw [v.tableLayout.fatGetEntry_eq (by decide)] at hget
      exact hget hx.2.2
    have h := (hfree x).mp ⟨hx.1, hx.2.1, by rw [← hkept x hx.2.1 hne]; exact hx.2.2⟩
    exact ⟨by omega, by omega⟩
  obtain ⟨hentries, -, -⟩ := v.round_spec (l := [2]) (d := d₁)
    htaken.entries (by decide) hmark.2.1 (by decide) (by decide) (by decide)
  set d₂ := roundDisk markFs ([2].getLastD 0) fat32Eoc d₁ with hd₂
  have hrun : fatAllocChain markFs markDisk 2 = (2, d₂) :=
    (v.fatAllocChainLoop_round (l := []) (by simp) hfind (by decide) 1).trans
      (v.fatAllocChainLoop_round (fun x hx => (htaken.free x hx).1) hfind₁ (by decide) 0)
  refine ⟨d₂, hrun, .last ?_⟩
  have hval : fatGetEntry markFs d₂ 2 = fat32Eoc := by
    rw [v.tableLayout.fatGetEntry_eq (by decide), hentries 0 v.copies_pos 2 hfree2.2.1,
      if_neg (by decide), if_pos (show [2].getLast? = some 2 from rfl), fat32Eoc]
    omega
  rw [fatNext, hval]
  rfl

/-- A volume with 128 sectors per cluster whose table has entries for clusters behind sector `2 ^ 32`;
the first sector of cluster 33552386 is `2 ^ 32 + 32`. -/
def farFs : Fat32Instance := ramFs 512 128 32 1 (2 ^ 18) 2

def farDisk : Disk := tableDisk farFs (freeTable [33552386])

/-- The zeroes for the cluster land on the table. -/
theorem entry_farDisk : (fatAllocChain farFs farDisk 1).1 = 33552386 ∧
    copyEntry farFs (fatAllocChain farFs farDisk 1).2 0 3 = 0 := by
  have v : VolumeLayout farFs := volumeLayout_ramFs (by decide)
  have hfree : ∀ x, FreeEntry farFs farDisk x ↔ 2 ≤ x ∧ x < 2 ^ 25 ∧ x ∈ [33552386] := fun x =>
    freeEntry_tableDisk (by decide) [33552386]
  have hfind : fatFindFreeCluster farFs farDisk = 33552386 := by
    refine v.fatFindFreeCluster_first ((hfree _).mpr (by decide)) fun x hx => ?_
    have h := List.mem_singleton.mp ((hfree x).mp hx).2.2
    omega
  obtain ⟨d₁, hset, -⟩ := v.tableLayout.fatSetEntry_spec (c := 33552386) (by decide) (by decide)
    fat32Eoc farDisk
  have hrun : fatAllocChain farFs farDisk 1 =
      (33552386, zeroSectors farFs 128 (clusterToSector farFs 33552386) d₁) := by
    rw [fatAllocChain, fatAllocChainLoop, hfind, if_neg (by decide), hset]
    rfl
  rw [hrun]
  refine ⟨rfl, ?_⟩
  have hzero := (zeroSectors_spec v.noFault 128 (clusterToSector farFs 33552386) d₁).1 0 (by decide)
  have hsector : copySector farFs 0 (4 * 3 / farFs.bytesPerSector) =
      (clusterToSector farFs 33552386 + 0) % 2 ^ 32 := by decide
  rw [copyEntry, hsector, hzero]
  decide

/-- Neither kind of free entry may be left out: a cluster whose number is an end mark ends the chain
too early, and one whose sector numbers wrap around destroys other entries. -/
theorem not_allocOutcome_unlinkable :
    (VolumeLayout markFs ∧ IdenticalCopies markFs markDisk ∧
      ¬ AllocOutcome markFs markDisk 2 (fatAllocChain markFs markDisk 2)) ∧
    VolumeLayout farFs ∧ IdenticalCopies farFs farDisk ∧
      ¬ AllocOutcome farFs farDisk 1 (fatAllocChain farFs farDisk 1) := by
  refine ⟨⟨volumeLayout_ramFs (by decide), identicalCopies_single rfl _, fun h => ?_⟩,
    volumeLayout_ramFs (by decide), identicalCopies_single rfl _, fun h => ?_⟩
  · obtain ⟨d', hrun, hwalk⟩ := chain_markDisk
    rw [hrun] at h
    obtain ⟨l, hlen, -, -, hw, -⟩ := h.success (Nat.succ_ne_zero 1)
    rw [hw.unique hwalk] at hlen
    cases hlen
  · obtain ⟨hres, hzero⟩ := entry_farDisk
    have hin : InTable farFs 3 := by decide
    obtain ⟨l, -, -, hfree, -, -, -, hkept, -⟩ := h.success (by rw [hres]; decide)
    have h3 : (3 : ℕ) ∉ l := fun hmem =>
      absurd (List.mem_singleton.mp ((freeEntry_tableDisk (by decide) _).mp (hfree 3 hmem)).2.2)
        (by decide)
    have hold := hkept 0 (by decide) 3 hin h3
    rw [hzero, farDisk, copyEntry_tableDisk rfl (by decide)] at hold
    exact absurd hold (by decide)

end PsychWard.Fat32
