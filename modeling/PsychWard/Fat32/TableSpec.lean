import PsychWard.Fat32.Volume
import PsychWard.Fat32.CycleTest
import Mathlib.Tactic.Linarith

/-!
# The table functions on a volume

Each function of `Table` that edits the disk is described by what it does to the volume and by the
sectors it writes: `fat_set_entry` stores a table entry, `fat_find_free_cluster` returns the first
free cluster, `fat_free_chain` clears a chain, `fat_alloc_chain` links the first free clusters into a
chain. The device is assumed not to fail.
-/

namespace PsychWard.Fat32

/-! ## Bytes of a sector -/

namespace Block

variable (b : Block)

/-- The bytes of a block after a little-endian store. -/
theorem get_putU32 (i v j : ℕ) : (b.putU32 i v).get j =
    if i ≤ j ∧ j < i + 4 ∧ j < 512 then UInt8.ofNat (v / 2 ^ (8 * (j - i))) else b.get j := by
  unfold get putU32
  by_cases hj : j < 512
  · by_cases h : i ≤ j ∧ j < i + 4 <;> simp [hj, h]
  · simp [hj]

/-- A stored number is read back. -/
theorem u32_putU32_self {i : ℕ} (v : ℕ) (h : i + 4 ≤ 512) : (b.putU32 i v).u32 i = v % 2 ^ 32 := by
  simp only [u32, u16, get_putU32]
  rw [if_pos (by omega), if_pos (by omega), if_pos (by omega), if_pos (by omega)]
  simp only [UInt8.toNat_ofNat', show i + 2 + 1 - i = 3 by omega, show i + 2 - i = 2 by omega,
    show i + 1 - i = 1 by omega, Nat.sub_self]
  omega

/-- A number stored elsewhere leaves it alone. -/
theorem u32_putU32_of_disjoint {i j : ℕ} (v : ℕ) (h : i + 4 ≤ j ∨ j + 4 ≤ i) :
    (b.putU32 i v).u32 j = b.u32 j := by
  simp only [u32, u16, get_putU32]
  rw [if_neg (by omega), if_neg (by omega), if_neg (by omega), if_neg (by omega)]

/-- An entry is read back, in its 28 bits. -/
theorem u32_setFat_self {i : ℕ} (v : ℕ) (h : i + 4 ≤ 512) :
    (b.setFat i v).u32 i % 2 ^ 28 = v % 2 ^ 28 := by
  rw [setFat, u32_putU32_self _ _ h]
  omega

/-- Storing an entry leaves the others. -/
theorem u32_setFat_of_disjoint {i j : ℕ} (v : ℕ) (h : i + 4 ≤ j ∨ j + 4 ≤ i) :
    (b.setFat i v).u32 j = b.u32 j := u32_putU32_of_disjoint b _ h

end Block

/-! ## Where table entries and clusters lie -/

namespace Geometry

variable {fs : Fat32Instance} (g : Geometry fs) {c c' k : ℕ} {d : Disk}

include g

/-- A device without faults reads what the disk has. -/
theorem read (d : Disk) (s : ℕ) : fs.readBlocks d s = some (d.sectors s) := g.noFault.read d s

/-- A device without faults writes. -/
theorem write (d : Disk) (s : ℕ) (b : Block) : fs.writeBlocks d s b = (true, d.write s b) :=
  g.noFault.write d s b

theorem lt_two_pow (hc : c < fs.clusters) : c < 2 ^ 28 := by
  have := g.clusters_le
  unfold fat32Eoc at this
  omega

/-- 128 entries make up a sector. -/
theorem fatOffset_eq (hc : c < fs.clusters) : fatOffset fs c = 4 * (c % 128) := by
  have := g.lt_two_pow hc
  unfold fatOffset
  rw [g.bytes]
  omega

/-- The copies of the table lie in front of the data. -/
theorem copy_le (hk : k < fs.fatCount) (hc : c < fs.clusters) :
    fs.reservedSectors + k * fs.sectorsPerFat + c / 128 < fs.dataStartSector := by
  have hc' : c / 128 < fs.sectorsPerFat := by
    unfold Fat32Instance.clusters at hc
    omega
  have hmul : (k + 1) * fs.sectorsPerFat ≤ fs.fatCount * fs.sectorsPerFat :=
    Nat.mul_le_mul_right _ hk
  rw [Nat.add_mul] at hmul
  rw [g.dataStart]
  omega

/-- The sector of an entry does not wrap around. -/
theorem fatSector_eq (hk : k < fs.fatCount) (hc : c < fs.clusters) :
    fatSector fs k c = fs.reservedSectors + k * fs.sectorsPerFat + c / 128 := by
  have h1 := g.copy_le hk hc
  have h2 := g.sectors_lt
  have h3 := g.lt_two_pow hc
  unfold fatSector
  rw [g.bytes, Nat.mod_eq_of_lt (a := k * fs.sectorsPerFat) (by omega),
    show c * 4 % 2 ^ 32 / 512 = c / 128 by omega]
  exact Nat.mod_eq_of_lt (by omega)

/-- An entry lies in the area of the table. -/
theorem fatSector_lt (hk : k < fs.fatCount) (hc : c < fs.clusters) :
    FatArea fs (fatSector fs k c) := by
  rw [FatArea, g.fatSector_eq hk hc]
  exact g.copy_le hk hc

/-- Copies of the table do not overlap. -/
theorem fatSector_ne (hk : 0 < k) (hk' : k < fs.fatCount) (hc : c < fs.clusters)
    (hc' : c' < fs.clusters) : fatSector fs k c ≠ fatSector fs 0 c' := by
  rw [g.fatSector_eq hk' hc, g.fatSector_eq g.copies_pos hc']
  have h1 : c' / 128 < fs.sectorsPerFat := by
    unfold Fat32Instance.clusters at hc'
    omega
  have h2 : 1 * fs.sectorsPerFat ≤ k * fs.sectorsPerFat := Nat.mul_le_mul_right _ hk
  omega

/-- A data sector has a number of 32 bits. -/
theorem dataSector_lt (hc : 2 ≤ c ∧ c < fs.clusters) (hk : k < fs.sectorsPerCluster) :
    dataSector fs c k < 2 ^ 32 := by
  have h1 := g.sectors_lt
  have h2 : (c - 2 + 1) * fs.sectorsPerCluster ≤ fs.clusters * fs.sectorsPerCluster :=
    Nat.mul_le_mul_right _ (by omega)
  rw [Nat.add_mul] at h2
  unfold dataSector
  omega

/-- The first sector of a cluster does not wrap around. -/
theorem clusterToSector_eq (hc : 2 ≤ c ∧ c < fs.clusters) :
    clusterToSector fs c = dataSector fs c 0 := by
  have h := g.dataSector_lt hc g.sectors_pos
  unfold dataSector at h
  unfold clusterToSector dataSector
  simp only [if_neg (show ¬ c < 2 by omega)]
  rw [Nat.mod_eq_of_lt (a := (c - 2) * _) (by omega)]
  exact Nat.mod_eq_of_lt (by omega)

/-- The number of a sector of a cluster, as the loops compute it. -/
theorem sector_eq (hc : 2 ≤ c ∧ c < fs.clusters) (hk : k < fs.sectorsPerCluster) :
    (clusterToSector fs c + k) % 2 ^ 32 = dataSector fs c k := by
  have h := g.dataSector_lt hc hk
  rw [g.clusterToSector_eq hc]
  exact Nat.mod_eq_of_lt h

omit g in
/-- Data sectors lie behind the table. -/
theorem not_fatArea_dataSector : ¬ FatArea fs (dataSector fs c k) := by
  unfold FatArea dataSector
  omega

omit g in
/-- Different sectors of clusters have different numbers. -/
theorem dataSector_inj (hc : 2 ≤ c) (hc' : 2 ≤ c') {k' : ℕ} (hk : k < fs.sectorsPerCluster)
    (hk' : k' < fs.sectorsPerCluster) (h : dataSector fs c k = dataSector fs c' k') :
    c = c' ∧ k = k' := by
  unfold dataSector at h
  have hsum : (c - 2) * fs.sectorsPerCluster + k = (c' - 2) * fs.sectorsPerCluster + k' := by omega
  have hpos : 0 < fs.sectorsPerCluster := by omega
  have hq : c - 2 = c' - 2 := by
    have h1 := congrArg (· / fs.sectorsPerCluster) hsum
    simpa [Nat.mul_comm _ fs.sectorsPerCluster, Nat.mul_add_div hpos, Nat.div_eq_of_lt hk,
      Nat.div_eq_of_lt hk'] using h1
  rw [hq] at hsum
  omega

/-! ## The volume after a sector write -/

/-- The data of a cluster inside the table. -/
theorem volume_data (hc : 2 ≤ c ∧ c < fs.clusters) (hk : k < fs.sectorsPerCluster) :
    (volume fs d).data c k = d.sectors (dataSector fs c k) := by
  have h : clusterToSector fs c + k = dataSector fs c k := by
    rw [g.clusterToSector_eq hc]
    rfl
  simp only [volume, hc, hk, and_self, if_true, h]

/-- The clusters lie where the code finds them. -/
theorem diskVolume_data (hc : 2 ≤ c ∧ c < fs.clusters) (hk : k < fs.sectorsPerCluster) :
    (diskVolume fs d).data c k = (volume fs d).data c k := by
  rw [g.volume_data hc hk, ← g.sector_eq hc hk]
  rfl

omit g in
/-- The entry of a cluster inside the table. -/
theorem volume_fat (hc : c < fs.clusters) :
    (volume fs d).fat c = (d.sectors (fatSector fs 0 c)).u32 (fatOffset fs c) % 2 ^ 28 :=
  if_pos hc

omit g in
/-- Disks that agree on the first copy of the table and on the clusters hold the same volume. -/
theorem volume_congr {d d' : Disk}
    (hfat : ∀ c < fs.clusters, (volume fs d').fat c = (volume fs d).fat c)
    (hdata : ∀ c k, (2 ≤ c ∧ c < fs.clusters) → k < fs.sectorsPerCluster →
      (volume fs d').data c k = (volume fs d).data c k) : volume fs d' = volume fs d := by
  have h1 : (volume fs d').fat = (volume fs d).fat := by
    funext c
    by_cases hc : c < fs.clusters
    · exact hfat c hc
    · simp [volume, hc]
  have h2 : (volume fs d').data = (volume fs d).data := by
    funext c k
    by_cases h : (2 ≤ c ∧ c < fs.clusters) ∧ k < fs.sectorsPerCluster
    · exact hdata c k h.1 h.2
    · simp [volume, h]
  calc volume fs d' = ⟨_, _, (volume fs d').fat, (volume fs d').data⟩ := rfl
    _ = volume fs d := by rw [h1, h2]; rfl

/-- A write to a data sector stores that sector of its cluster. -/
theorem volume_write_data (hc : 2 ≤ c ∧ c < fs.clusters) (hk : k < fs.sectorsPerCluster)
    (b : Block) : volume fs (d.write (dataSector fs c k) b) = (volume fs d).setData c k b := by
  have h1 : (volume fs (d.write (dataSector fs c k) b)).fat = (volume fs d).fat := by
    funext x
    by_cases hx : x < fs.clusters
    · rw [volume_fat hx, volume_fat hx, Disk.write]
      simp only
      rw [Function.update_of_ne]
      intro heq
      exact not_fatArea_dataSector (heq ▸ g.fatSector_lt g.copies_pos hx)
    · simp [volume, hx]
  have h2 : (volume fs (d.write (dataSector fs c k) b)).data = ((volume fs d).setData c k b).data := by
    funext x j
    rw [Volume.setData_data]
    by_cases h : (2 ≤ x ∧ x < fs.clusters) ∧ j < fs.sectorsPerCluster
    · rw [g.volume_data h.1 h.2, g.volume_data h.1 h.2, Disk.write]
      simp only [Function.update_apply]
      by_cases heq : x = c ∧ j = k
      · obtain ⟨rfl, rfl⟩ := heq
        simp
      · rw [if_neg heq, if_neg]
        exact fun hs => heq (dataSector_inj h.1.1 hc.1 h.2 hk hs)
    · rw [if_neg (by rintro ⟨rfl, rfl⟩; exact h ⟨hc, hk⟩)]
      simp [volume, h]
  calc volume fs (d.write (dataSector fs c k) b)
      = ⟨_, _, (volume fs (d.write (dataSector fs c k) b)).fat,
          (volume fs (d.write (dataSector fs c k) b)).data⟩ := rfl
    _ = _ := by rw [h1, h2]; rfl

/-- A write to the table leaves the clusters alone. -/
theorem volume_write_fat_data {s : ℕ} (hs : FatArea fs s) (b : Block) :
    (volume fs (d.write s b)).data = (volume fs d).data := by
  funext x j
  by_cases h : (2 ≤ x ∧ x < fs.clusters) ∧ j < fs.sectorsPerCluster
  · rw [g.volume_data h.1 h.2, g.volume_data h.1 h.2, Disk.write]
    simp only
    rw [Function.update_of_ne]
    rintro rfl
    exact not_fatArea_dataSector hs
  · simp [volume, h]

/-- Storing an entry in the first copy of the table. -/
theorem volume_write_fat (hc : c < fs.clusters) (x : ℕ) :
    volume fs (d.write (fatSector fs 0 c) ((d.sectors (fatSector fs 0 c)).setFat (fatOffset fs c) x))
      = (volume fs d).setFat c (x % 2 ^ 28) := by
  set b := (d.sectors (fatSector fs 0 c)).setFat (fatOffset fs c) x with hb
  have h1 : (volume fs (d.write (fatSector fs 0 c) b)).fat
      = Function.update (volume fs d).fat c (x % 2 ^ 28) := by
    funext y
    by_cases hy : y < fs.clusters
    · rw [volume_fat hy, Disk.write]
      simp only [Function.update_apply]
      have hoff := g.fatOffset_eq hc
      have hoff' := g.fatOffset_eq hy
      by_cases hyc : y = c
      · subst hyc
        rw [if_pos rfl, if_pos rfl, hb, Block.u32_setFat_self _ _ (by omega)]
      · rw [if_neg hyc, volume_fat hy]
        -- another entry of the same sector keeps its four bytes
        by_cases hs : fatSector fs 0 y = fatSector fs 0 c
        · rw [if_pos hs, hs, hb, Block.u32_setFat_of_disjoint]
          rw [g.fatSector_eq g.copies_pos hy, g.fatSector_eq g.copies_pos hc] at hs
          omega
        · rw [if_neg hs]
    · have hyc : y ≠ c := by
        rintro rfl
        exact hy hc
      rw [Function.update_of_ne hyc]
      simp [volume, hy]
  calc volume fs (d.write (fatSector fs 0 c) b)
      = ⟨_, _, (volume fs (d.write (fatSector fs 0 c) b)).fat,
          (volume fs (d.write (fatSector fs 0 c) b)).data⟩ := rfl
    _ = _ := by rw [h1, g.volume_write_fat_data (g.fatSector_lt g.copies_pos hc)]; rfl

/-- Storing an entry in a further copy changes nothing that is read. -/
theorem volume_write_copy (hk : 0 < k) (hk' : k < fs.fatCount) (hc : c < fs.clusters) (b : Block) :
    volume fs (d.write (fatSector fs k c) b) = volume fs d := by
  refine volume_congr (fun y hy => ?_) fun x j _ _ => ?_
  · rw [volume_fat hy, volume_fat hy, Disk.write]
    simp only
    rw [Function.update_of_ne (g.fatSector_ne hk hk' hc hy).symm]
  · rw [g.volume_write_fat_data (g.fatSector_lt hk' hc)]

/-! ## `fat_get_entry` and `fat_set_entry` -/

/-- `fat_get_entry` reads the table of the volume. -/
theorem fatGetEntry_eq (hc : c < fs.clusters) : fatGetEntry fs d c = (volume fs d).fat c := by
  rw [fatGetEntry, g.read, volume_fat hc]

/-- The copies behind the first one are stored without effect on the volume. -/
private theorem fatSetEntryFrom_copies (hc : c < fs.clusters) (x n : ℕ) (hk : 0 < k)
    (hn : k + n = fs.fatCount) (d : Disk) : ∃ d', fatSetEntryFrom fs c x n k d = (true, d') ∧
      volume fs d' = volume fs d ∧ Writes (FatArea fs) d d' := by
  induction n generalizing k d with
  | zero => exact ⟨d, rfl, rfl, .refl _ _⟩
  | succ n ih =>
    have hk' : k < fs.fatCount := by omega
    simp only [fatSetEntryFrom, g.read, g.write]
    obtain ⟨d', h1, h2, h3⟩ := ih (Nat.succ_pos k) (by omega)
      (d.write (fatSector fs k c) ((d.sectors (fatSector fs k c)).setFat (fatOffset fs c) x))
    refine ⟨d', h1, by rw [h2, g.volume_write_copy hk hk' hc], ?_⟩
    exact (Writes.single (g.fatSector_lt hk' hc) _).trans h3

/-- `fat_set_entry` stores the entry and writes only the table. -/
theorem fatSetEntry_spec (hc : c < fs.clusters) (x : ℕ) (d : Disk) :
    ∃ d', fatSetEntry fs d c x = (true, d') ∧ volume fs d' = (volume fs d).setFat c (x % 2 ^ 28) ∧
      Writes (FatArea fs) d d' := by
  obtain ⟨n, hn⟩ : ∃ n, fs.fatCount = n + 1 := ⟨fs.fatCount - 1, by have := g.copies_pos; omega⟩
  simp only [fatSetEntry, hn, fatSetEntryFrom, g.read, g.write]
  obtain ⟨d', h1, h2, h3⟩ := g.fatSetEntryFrom_copies hc x n Nat.one_pos (by omega)
    (d.write (fatSector fs 0 c) ((d.sectors (fatSector fs 0 c)).setFat (fatOffset fs c) x))
  refine ⟨d', h1, by rw [h2, g.volume_write_fat hc], ?_⟩
  exact (Writes.single (g.fatSector_lt g.copies_pos hc) _).trans h3

/-! ## Chains -/

omit g in
/-- An entry with a next cluster leads to it. -/
theorem next_eq_some {v : Volume} (h : clusterHasNext (v.fat c) = true) :
    v.next c = some (v.fat c) := if_pos h

omit g in
/-- Any other entry ends its chain. -/
theorem next_eq_none {v : Volume} (h : clusterHasNext (v.fat c) = false) : v.next c = none :=
  if_neg (by simp [h])

omit g in
theorem walk {v : Volume} {l : List ℕ} (h : v.forest.Chain c l) : Walk v.next c l := h.1

omit g in
/-- The clusters of a chain are inside the table. -/
theorem lt_of_chain {l : List ℕ} (h : (volume fs d).forest.Chain c l) {x : ℕ} (hx : x ∈ l) :
    x < fs.clusters := (h.2 x hx).1.2

omit g in
/-- The link a chain takes at its first cluster. -/
theorem clusterHasNext_chain {l : List ℕ} (h : (volume fs d).forest.Chain c (c :: l)) :
    (l = [] ∧ clusterHasNext ((volume fs d).fat c) = false) ∨
      ∃ b t, l = b :: t ∧ clusterHasNext ((volume fs d).fat c) = true ∧ (volume fs d).fat c = b ∧
        (volume fs d).forest.Chain b l := by
  cases walk h with
  | last hn =>
    refine .inl ⟨rfl, ?_⟩
    by_contra hs
    rw [next_eq_some (by simpa using hs)] at hn
    cases hn
  | @cons _ b _ hs t =>
    have hhas : clusterHasNext ((volume fs d).fat c) = true := by
      by_contra hno
      rw [next_eq_none (by simpa using hno)] at hs
      cases hs
    have hb : (volume fs d).fat c = b := by
      rw [next_eq_some hhas] at hs
      exact Option.some.inj hs
    obtain ⟨u, rfl⟩ := t.eq_cons
    exact .inr ⟨b, u, rfl, hhas, hb, t, fun x hx => h.2 x (List.mem_cons_of_mem _ hx)⟩

/-- A chain of used clusters is what the code walks. -/
theorem walk_fatNext {l : List ℕ} (h : (volume fs d).forest.Chain c l) :
    Walk (fatNext fs d) c l := by
  refine (walk h).congr fun x hx => ?_
  rw [fatNext, g.fatGetEntry_eq (lt_of_chain h hx)]
  rfl

/-- A chain passes the cycle test. -/
theorem fatChainHasCycle_eq_false {l : List ℕ} (h : (volume fs d).forest.Chain c l) :
    fatChainHasCycle fs d c = false :=
  fatChainHasCycle_of_walk (g.walk_fatNext h)

/-! ## `fat_find_free_cluster` -/

/-- The search over the entries of one sector of the table. -/
private theorem fatFindFreeInSector_spec {sec : ℕ} (hsec : sec < fs.sectorsPerFat) (d : Disk) :
    (∀ e, fatFindFreeInSector (d.sectors ((fs.reservedSectors + sec) % 2 ^ 32)) sec 128 = some e →
      sec * 128 + e ∈ (volume fs d).freeClusters ∧ e < 128 ∧
        ∀ e' < e, sec * 128 + e' ∉ (volume fs d).freeClusters) ∧
    (fatFindFreeInSector (d.sectors ((fs.reservedSectors + sec) % 2 ^ 32)) sec 128 = none →
      ∀ e < 128, sec * 128 + e ∉ (volume fs d).freeClusters) := by
  have hlt : ∀ e < 128, sec * 128 + e < fs.clusters := fun e he => by
    unfold Fat32Instance.clusters
    omega
  -- the test of the loop is membership in the free clusters
  have htest : ∀ e < 128, (decide (2 ≤ (sec * 128 + e) % 2 ^ 32) && decide ((d.sectors
      ((fs.reservedSectors + sec) % 2 ^ 32)).u32 (4 * e) % 2 ^ 28 = 0)) = true ↔
      sec * 128 + e ∈ (volume fs d).freeClusters := by
    intro e he
    have hc := hlt e he
    have hs : fatSector fs 0 (sec * 128 + e) = (fs.reservedSectors + sec) % 2 ^ 32 := by
      have h1 := g.copy_le g.copies_pos hc
      have h2 := g.sectors_lt
      rw [g.fatSector_eq g.copies_pos hc, Nat.mod_eq_of_lt (by omega)]
      omega
    have hmod : (sec * 128 + e) % 2 ^ 32 = sec * 128 + e :=
      Nat.mod_eq_of_lt ((g.lt_two_pow hc).trans (by decide))
    rw [Volume.mem_freeClusters, volume_fat hc, g.fatOffset_eq hc, hs, hmod,
      show 4 * ((sec * 128 + e) % 128) = 4 * e by omega]
    simp only [Bool.and_eq_true, decide_eq_true_eq, Volume.InRange, volume]
    exact ⟨fun h => ⟨⟨h.1, hc⟩, h.2⟩, fun h => ⟨h.1.1, h.2⟩⟩
  constructor
  · intro e he
    obtain ⟨he1, he2, he3⟩ := List.find?_range_eq_some.mp he
    have hlt' := List.mem_range.mp he2
    refine ⟨(htest e hlt').mp he1, hlt', fun e' he' hmem => ?_⟩
    have h3 := he3 e' he'
    rw [(htest e' (by omega)).mpr hmem] at h3
    cases h3
  · intro hnone e he hmem
    have := List.find?_eq_none.mp hnone e (List.mem_range.mpr he)
    exact this ((htest e he).mpr hmem)

/-- The search finds the smallest free cluster from a sector of the table on, if there is one. -/
private theorem fatFindFreeClusterFrom_spec (d : Disk) (n sec : ℕ) (h : sec + n = fs.sectorsPerFat) :
    (fatFindFreeClusterFrom fs d n sec = 0 ∧
      ∀ c ∈ (volume fs d).freeClusters, c < sec * 128) ∨
    (fatFindFreeClusterFrom fs d n sec ∈ (volume fs d).freeClusters ∧
      ∀ c ∈ (volume fs d).freeClusters, sec * 128 ≤ c →
        fatFindFreeClusterFrom fs d n sec ≤ c) := by
  induction n generalizing sec with
  | zero =>
    refine .inl ⟨rfl, fun c hc => ?_⟩
    have := (Volume.mem_freeClusters.mp hc).1.2
    simp only [volume, Fat32Instance.clusters] at this
    omega
  | succ n ih =>
    obtain ⟨hsome, hnone⟩ := g.fatFindFreeInSector_spec (show sec < fs.sectorsPerFat by omega) d
    simp only [fatFindFreeClusterFrom, g.read, g.bytes]
    cases hfind : fatFindFreeInSector (d.sectors ((fs.reservedSectors + sec) % 2 ^ 32)) sec 128 with
    | some e =>
      obtain ⟨hmem, he, hmin⟩ := hsome e hfind
      have hmod : (sec * 128 + e) % 2 ^ 32 = sec * 128 + e := Nat.mod_eq_of_lt
        ((g.lt_two_pow (Volume.mem_freeClusters.mp hmem).1.2).trans (by decide))
      simp only [hmod]
      refine .inr ⟨hmem, fun c hc hle => ?_⟩
      by_contra hlt
      have hlt' : c < sec * 128 + e := by simpa using hlt
      exact hmin (c - sec * 128) (by omega) (by rwa [show sec * 128 + (c - sec * 128) = c by omega])
    | none =>
      -- no free cluster in this sector, so the bound moves to the next
      have hskip : ∀ c ∈ (volume fs d).freeClusters, sec * 128 ≤ c → (sec + 1) * 128 ≤ c := by
        intro c hc hle
        by_contra hlt
        refine hnone hfind (c - sec * 128) (by omega) ?_
        rwa [show sec * 128 + (c - sec * 128) = c by omega]
      rcases ih (sec + 1) (by omega) with ⟨h0, hall⟩ | ⟨hmem, hmin⟩
      · refine .inl ⟨h0, fun c hc => ?_⟩
        by_contra hlt
        have := hskip c hc (by omega)
        have := hall c hc
        omega
      · exact .inr ⟨hmem, fun c hc hle => hmin c hc (hskip c hc hle)⟩

/-- The search finds the first free cluster, and nothing exactly when there is none. -/
theorem fatFindFreeCluster_eq (d : Disk) :
    fatFindFreeCluster fs d = (volume fs d).freeClusters.headD 0 := by
  have hspec := g.fatFindFreeClusterFrom_spec d fs.sectorsPerFat 0 (Nat.zero_add _)
  rw [fatFindFreeCluster]
  cases hfree : (volume fs d).freeClusters with
  | nil =>
    rcases hspec with ⟨h0, -⟩ | ⟨hmem, -⟩
    · exact h0
    · rw [hfree] at hmem
      cases hmem
  | cons c rest =>
    have hc : c ∈ (volume fs d).freeClusters := by simp [hfree]
    rcases hspec with ⟨-, hall⟩ | ⟨hmem, hmin⟩
    · have := hall c hc
      omega
    · -- the list is increasing, so its head is its least element
      have hsorted : (volume fs d).freeClusters.Pairwise (· < ·) :=
        List.pairwise_lt_range.filter _
      rw [hfree] at hsorted hmem
      have hle := hmin c hc (by omega)
      rcases List.mem_cons.mp hmem with heq | hin
      · exact heq
      · have := (List.pairwise_cons.mp hsorted).1 _ hin
        omega

/-! ## `fat_free_chain` -/

/-- The loop clears the part of the chain that its `guard` covers. -/
theorem fatFreeChainLoop_spec {l : List ℕ} (h : (volume fs d).forest.Chain c l) (guard : ℕ) :
    volume fs (fatFreeChainLoop fs guard c d) = (volume fs d).clear (l.take guard) ∧
      Writes (FatArea fs) d (fatFreeChainLoop fs guard c d) := by
  induction guard generalizing c d l with
  | zero => exact ⟨by rw [List.take_zero, Volume.clear_nil]; rfl, .refl _ _⟩
  | succ guard ih =>
    have hu : (volume fs d).Used c := h.2 c h.1.mem_head
    have hlt : c < fs.clusters := hu.1.2
    obtain ⟨d', h1, h2, h3⟩ := g.fatSetEntry_spec hlt 0 d
    rw [fatFreeChainLoop, if_neg (show ¬ c < 2 by have := hu.1.1; omega), g.fatGetEntry_eq hlt, h1]
    have hnd := h.1.nodup
    obtain ⟨t, rfl⟩ := h.1.eq_cons
    rcases clusterHasNext_chain h with ⟨rfl, hno⟩ | ⟨b, u, rfl, hhas, hb, ht⟩
    · rw [if_neg (by simp [hno])]
      refine ⟨?_, h3⟩
      rw [h2, Nat.zero_mod, List.take_succ_cons, List.take_nil, ← Volume.clear_cons,
        Volume.clear_nil]
    · rw [if_pos hhas, hb]
      have ht' : (volume fs d').forest.Chain b (b :: u) := by
        rw [h2]
        refine Volume.chain_congr ht rfl fun x hx => ?_
        exact Function.update_of_ne (by rintro rfl; exact (List.nodup_cons.mp hnd).1 hx) _ _
      obtain ⟨ih1, ih2⟩ := ih ht'
      refine ⟨?_, h3.trans ih2⟩
      rw [ih1, h2, Nat.zero_mod, Volume.clear_cons, List.take_succ_cons]

/-- `fat_free_chain` clears the first 65536 clusters of a chain. -/
theorem fatFreeChain_spec {l : List ℕ} (h : (volume fs d).forest.Chain c l) :
    ∃ d', fatFreeChain fs d c = (true, d') ∧
      volume fs d' = (volume fs d).clear (l.take 65536) ∧ Writes (FatArea fs) d d' := by
  obtain ⟨h1, h2⟩ := g.fatFreeChainLoop_spec h 65536
  rw [fatFreeChain, g.fatChainHasCycle_eq_false h]
  exact ⟨_, rfl, h1, h2⟩

/-! ## `fat_alloc_chain` -/

/-- The sectors an allocation writes: the table and the sectors of free clusters. -/
def AllocArea (fs : Fat32Instance) (v : Volume) (s : ℕ) : Prop :=
  FatArea fs s ∨ ∃ c ∈ v.freeClusters, ∃ k < fs.sectorsPerCluster, s = dataSector fs c k

/-- The loop that zeroes a cluster, from sector `k` on. -/
private theorem zeroSectors_spec (hc : 2 ≤ c ∧ c < fs.clusters) (n k : ℕ) (d : Disk)
    (h : k + n = fs.sectorsPerCluster) :
    ∃ d', zeroSectors fs n (clusterToSector fs c + k) d = d' ∧
      (volume fs d').fat = (volume fs d).fat ∧
      (∀ x ≠ c, (volume fs d').data x = (volume fs d).data x) ∧
      (∀ j, (volume fs d').data c j =
        if k ≤ j ∧ j < fs.sectorsPerCluster then Block.zero else (volume fs d).data c j) ∧
      Writes (fun s => ∃ j < fs.sectorsPerCluster, s = dataSector fs c j) d d' := by
  induction n generalizing k d with
  | zero =>
    refine ⟨d, rfl, rfl, fun _ _ => rfl, fun j => ?_, .refl _ _⟩
    rw [if_neg (by omega)]
  | succ n ih =>
    have hk : k < fs.sectorsPerCluster := by omega
    obtain ⟨d', h1, h2, h3, h4, h5⟩ := ih (k + 1) (d.write (dataSector fs c k) Block.zero) (by omega)
    have hv := g.volume_write_data (d := d) hc hk Block.zero
    refine ⟨d', ?_, ?_, fun x hx => ?_, fun j => ?_, ?_⟩
    · rw [zeroSectors, g.sector_eq hc hk, g.write]
      exact h1
    · rw [h2, hv, Volume.setData_fat]
    · rw [h3 x hx, hv]
      exact Function.update_of_ne hx _ _
    · rw [h4 j, hv, Volume.setData_data]
      by_cases hj : j = k
      · subst hj
        simp [hk]
      · rw [if_neg (show ¬ (c = c ∧ j = k) from fun hh => hj hh.2)]
        exact if_congr (by omega) rfl rfl
    · exact (Writes.single ⟨k, hk, rfl⟩ _).trans h5

omit g in
/-- One more cluster at the end of an allocated chain. -/
private theorem allocated_step {v v₁ v' : Volume} {l rest : List ℕ} (h : Volume.Allocated v v₁ l)
    (hfree : v₁.freeClusters = c :: rest) (hnd : (l ++ c :: rest).Nodup)
    (hcl : v'.clusters = v₁.clusters) (hspc : v'.sectorsPerCluster = v₁.sectorsPerCluster)
    (hend : v'.fat c = fat32Eoc) (hsmall : c < fat32Eoc)
    (hlink : ∀ p, l.getLast? = some p → v'.fat p = c)
    (hfat : ∀ x ≠ c, l.getLast? ≠ some x → v'.fat x = v₁.fat x)
    (hdata : ∀ x ≠ c, v'.data x = v₁.data x)
    (hzero : ∀ k < v.sectorsPerCluster, v'.data c k = Block.zero) :
    Volume.Allocated v v' (l ++ [c]) ∧ v'.freeClusters = rest := by
  have hc : c ∈ v₁.freeClusters := by simp [hfree]
  obtain ⟨⟨hc2, -⟩, hc0⟩ := Volume.mem_freeClusters.mp hc
  have hcl' : c ∉ l := fun hin => (List.nodup_append.mp hnd).2.2 c hin c (by simp) rfl
  have hlast : ∀ p, l.getLast? = some p → p ∈ l := fun p hp => List.mem_of_getLast? hp
  -- the links of the old clusters are set, that of the last one by this round
  have hne : ∀ x ∈ l, v'.fat x ≠ 0 := by
    intro x hx
    by_cases hp : l.getLast? = some x
    · rw [hlink x hp]
      omega
    · rw [hfat x (by rintro rfl; exact hcl' hx) hp]
      exact h.fat_ne_zero x hx
  refine ⟨⟨hcl.trans h.clusters, hspc.trans h.sectorsPerCluster, fun x hx => ?_, fun x hx => ?_,
    fun a ha => ?_, fun x hx => ?_, fun x hx k hk => ?_⟩, ?_⟩
  · rw [List.mem_append, not_or, List.mem_singleton] at hx
    rw [hfat x hx.2 fun hp => hx.1 (hlast x hp), h.fat_eq x hx.1]
  · rcases List.mem_append.mp hx with hx | hx
    · exact hne x hx
    · rw [List.mem_singleton.mp hx, hend]
      exact Nat.succ_ne_zero _
  · have hlastc : Walk v'.next c [c] := .last (by
      rw [next_eq_none]
      rw [hend]
      rfl)
    cases l with
    | nil =>
      obtain rfl : c = a := by simpa using ha
      exact hlastc
    | cons b t =>
      obtain rfl : b = a := by simpa using ha
      have hw := h.walk b rfl
      have hgl : (b :: t).getLast? = some ((b :: t).getLast hw.ne_nil) :=
        List.getLast?_eq_some_getLast hw.ne_nil
      -- the walk is the old one up to its last cluster, whose link now leads to `c`
      refine hw.append hlastc (fun x hx hn => ?_) fun x hx hn => ?_
      · have hxl : (b :: t).getLast? ≠ some x := fun hp => by
          rw [hgl] at hp
          exact hn ((hw.next_eq_none_iff hx).mpr (Option.some.inj hp).symm)
        rw [Volume.next, Volume.next, hfat x (by rintro rfl; exact hcl' hx) hxl]
      · have hxl := (hw.next_eq_none_iff hx).mp hn
        have hf := hlink x (by rw [hgl, hxl])
        rw [next_eq_some (by rw [hf]; simp [clusterHasNext, hc2, hsmall]), hf]
  · rw [List.mem_append, not_or, List.mem_singleton] at hx
    rw [hdata x hx.2, h.data_eq x hx.1]
  · rcases List.mem_append.mp hx with hxl | hxc
    · have hne' : x ≠ c := fun heq => hcl' (heq ▸ hxl)
      rw [hdata x hne']
      exact h.data_zero x hxl k hk
    · rw [List.mem_singleton.mp hxc]
      exact hzero k hk
  · refine Volume.freeClusters_of_taken hfree hcl fun x => ?_
    by_cases hxc : x = c
    · subst hxc
      simp [hend, fat32Eoc]
    · by_cases hp : l.getLast? = some x
      · have h1 := hne x (hlast x hp)
        have h2 := h.fat_ne_zero x (hlast x hp)
        simp [h1, h2]
      · rw [hfat x hxc hp]
        simp [hxc]

omit g in
/-- Nothing has been allocated. -/
theorem allocated_nil (v : Volume) : Volume.Allocated v v [] :=
  ⟨rfl, rfl, fun _ _ => rfl, by simp, by simp, fun _ _ => rfl, by simp⟩

omit g in
/-- What was allocated is a chain. -/
theorem allocated_chain {v v' : Volume} {l : List ℕ} (h : Volume.Allocated v v' l)
    (hl : ∀ x ∈ l, v.InRange x) (hc : l.head? = some c) : v'.forest.Chain c l :=
  ⟨h.walk c hc, fun x hx => ⟨⟨(hl x hx).1, h.clusters ▸ (hl x hx).2⟩, h.fat_ne_zero x hx⟩⟩

omit g in
private theorem getLastD_mem {l : List ℕ} (hl : l ≠ []) : l.getLastD 0 ∈ l := by
  rw [List.getLastD_eq_getLast?, List.getLast?_eq_some_getLast hl]
  exact List.getLast_mem hl

omit g in
private theorem getLastD_eq_iff {l : List ℕ} (hl : l ≠ []) (x : ℕ) :
    l.getLast? = some x ↔ x = l.getLastD 0 := by
  rw [List.getLastD_eq_getLast?, List.getLast?_eq_some_getLast hl, Option.some.injEq,
    Option.getD_some]
  exact eq_comm

/-- `fat_set_entry(fs, prev, c)`, which the first round leaves out. -/
private theorem link_spec {l : List ℕ} (hl : ∀ x ∈ l, 2 ≤ x ∧ x < fs.clusters)
    (hc : c < fs.clusters) {prev : ℕ} (hprev : prev = l.getLastD 0) (d : Disk) :
    ∃ d', (if prev = 0 then (true, d) else fatSetEntry fs d prev c) = (true, d') ∧
      volume fs d' = (if l = [] then volume fs d else (volume fs d).setFat (l.getLastD 0) c) ∧
      Writes (FatArea fs) d d' := by
  by_cases hnil : l = []
  · subst hnil
    refine ⟨d, if_pos hprev, (if_pos rfl).symm, .refl _ _⟩
  · have hp := hl _ (getLastD_mem hnil)
    obtain ⟨d', h1, h2, h3⟩ := g.fatSetEntry_spec hp.2 c d
    rw [Nat.mod_eq_of_lt (g.lt_two_pow hc)] at h2
    refine ⟨d', ?_, by rw [if_neg hnil, h2], h3⟩
    rw [if_neg (by omega), hprev, h1]

/-- A round of `fat_alloc_chain` with the clusters `l` allocated so far and `c` the next free one. -/
private theorem fatAllocChainLoop_round (first : ℕ) {v : Volume} (hv : v.clusters = fs.clusters)
    (hspc : v.sectorsPerCluster = fs.sectorsPerCluster) {l rest : List ℕ} {prev : ℕ}
    (hal : Volume.Allocated v (volume fs d) l)
    (hfree : v.freeClusters = l ++ (volume fs d).freeClusters)
    (hfr : (volume fs d).freeClusters = c :: rest) (hprev : prev = l.getLastD 0) (n : ℕ) :
    ∃ d', fatAllocChainLoop fs (n + 1) first prev d =
        fatAllocChainLoop fs n (if first = 0 then c else first) c d' ∧
      Volume.Allocated v (volume fs d') (l ++ [c]) ∧ (volume fs d').freeClusters = rest ∧
      Writes (AllocArea fs v) d d' := by
  have hcv : c ∈ v.freeClusters := by simp [hfree, hfr]
  have hin : ∀ x ∈ v.freeClusters, 2 ≤ x ∧ x < fs.clusters := fun x hx =>
    hv ▸ (Volume.mem_freeClusters.mp hx).1
  have hc := hin c hcv
  have hl : ∀ x ∈ l, 2 ≤ x ∧ x < fs.clusters := fun x hx =>
    hin x (by rw [hfree]; exact List.mem_append_left _ hx)
  have hnd : (l ++ c :: rest).Nodup := by
    rw [← hfr, ← hfree]
    exact v.nodup_freeClusters
  -- end of chain first, then the link to it, then the zeros: the order of the source
  obtain ⟨d₁, h1, hv1, hw1⟩ := g.fatSetEntry_spec hc.2 fat32Eoc d
  obtain ⟨d₂, h2, hv2, hw2⟩ := g.link_spec hl hc.2 hprev d₁
  obtain ⟨d₃, h3, hf3, hd3, hz3, hw3⟩ :=
    g.zeroSectors_spec hc fs.sectorsPerCluster 0 d₂ (Nat.zero_add _)
  rw [show fat32Eoc % 2 ^ 28 = fat32Eoc from rfl] at hv1
  refine ⟨d₃, ?_, ?_⟩
  · rw [fatAllocChainLoop, g.fatFindFreeCluster_eq, hfr, List.headD_cons,
      if_neg (show ¬ c = 0 by omega), h1]
    simp only
    rw [h2]
    simp only
    rw [← h3, Nat.add_zero]
  have hclast : l ≠ [] → c ≠ l.getLastD 0 := fun hnil heq =>
    (List.nodup_append.mp hnd).2.2 _ (getLastD_mem hnil) c (by simp) heq.symm
  have hstep : Volume.Allocated v (volume fs d₃) (l ++ [c]) ∧
      (volume fs d₃).freeClusters = rest := by
    refine allocated_step hal hfr hnd rfl rfl ?_ (lt_of_lt_of_le hc.2 g.clusters_le)
      (fun p hp => ?_) (fun x hxc hxl => ?_) (fun x hxc => ?_) fun k hk => ?_
    · rw [hf3, hv2, hv1]
      by_cases hnil : l = []
      · rw [if_pos hnil, Volume.setFat_fat, Function.update_self]
      · rw [if_neg hnil, Volume.setFat_fat, Function.update_of_ne (hclast hnil),
          Volume.setFat_fat, Function.update_self]
    · have hnil : l ≠ [] := by
        rintro rfl
        cases hp
      rw [hf3, hv2, if_neg hnil, Volume.setFat_fat, (getLastD_eq_iff hnil p).mp hp,
        Function.update_self]
    · rw [hf3, hv2, hv1]
      by_cases hnil : l = []
      · rw [if_pos hnil, Volume.setFat_fat, Function.update_of_ne hxc]
      · have hne : x ≠ l.getLastD 0 := fun heq => hxl ((getLastD_eq_iff hnil x).mpr heq)
        rw [if_neg hnil, Volume.setFat_fat, Function.update_of_ne hne, Volume.setFat_fat,
          Function.update_of_ne hxc]
    · rw [hd3 x hxc, hv2, hv1]
      split <;> rfl
    · rw [hz3 k, if_pos ⟨Nat.zero_le _, hspc ▸ hk⟩]
  refine ⟨hstep.1, hstep.2, ?_⟩
  refine ((hw1.trans hw2).mono fun s hs => .inl hs).trans (hw3.mono fun s hs => .inr ?_)
  obtain ⟨j, hj, rfl⟩ := hs
  exact ⟨c, hcv, j, hj, rfl⟩

/-- `v'` is `v` after an allocation that found too few clusters: all free clusters were taken and given
back again, the first 65536 of them at least. -/
structure GivenBack (v v' : Volume) : Prop where
  fat_eq : ∀ c ∉ v.freeClusters, v'.fat c = v.fat c
  data_eq : ∀ c ∉ v.freeClusters, v'.data c = v.data c
  fat_free : v.freeClusters.length ≤ 65536 → v'.fat = v.fat

/-- On a full disk the partial chain, all free clusters there were, is given back. -/
private theorem freePartial_spec {v : Volume} {l : List ℕ} (hal : Volume.Allocated v (volume fs d) l)
    (hl : v.freeClusters = l) :
    ∃ d', freePartial fs d (l.headD 0) = d' ∧ Writes (FatArea fs) d d' ∧
      GivenBack v (volume fs d') := by
  have hin : ∀ x ∈ l, v.InRange x := fun x hx => (Volume.mem_freeClusters.mp (hl ▸ hx)).1
  cases h : l with
  | nil =>
    have hfat : ∀ c, (volume fs d).fat c = v.fat c := fun c => hal.fat_eq c (by simp [h])
    exact ⟨d, if_pos rfl, .refl _ _, fun c _ => hfat c, fun c _ => hal.data_eq c (by simp [h]),
      fun _ => funext hfat⟩
  | cons a t =>
    rw [← h, List.headD_eq_head?_getD, show l.head? = some a by rw [h]; rfl, Option.getD_some]
    have hchain := allocated_chain hal hin (show l.head? = some a by rw [h]; rfl)
    obtain ⟨d', h1, h2, h3⟩ := g.fatFreeChain_spec hchain
    have ha : ¬ a = 0 := by
      have := (hin a (by simp [h])).1
      omega
    refine ⟨d', by rw [freePartial, if_neg ha, h1], h3, fun c hc => ?_, fun c hc => ?_,
      fun hlen => funext fun c => ?_⟩
    · rw [hl] at hc
      rw [h2, ← hal.fat_eq c hc]
      exact if_neg fun hm => hc (List.mem_of_mem_take hm)
    · rw [hl] at hc
      rw [h2]
      exact hal.data_eq c hc
    · rw [hl] at hlen
      rw [h2, List.take_of_length_le hlen]
      by_cases hc : c ∈ l
      · exact (if_pos hc).trans (Volume.mem_freeClusters.mp (hl ▸ hc)).2.symm
      · exact (if_neg hc).trans (hal.fat_eq c hc)

/-- The loop of `fat_alloc_chain` with the clusters `l` allocated so far. -/
private theorem fatAllocChainLoop_spec (v : Volume) (hv : v.clusters = fs.clusters)
    (hspc : v.sectorsPerCluster = fs.sectorsPerCluster) (n : ℕ) (l : List ℕ) (first prev : ℕ)
    (d : Disk) (hal : Volume.Allocated v (volume fs d) l)
    (hfree : v.freeClusters = l ++ (volume fs d).freeClusters)
    (hfirst : first = l.headD 0) (hprev : prev = l.getLastD 0) :
    ∃ r d', fatAllocChainLoop fs n first prev d = (r, d') ∧ Writes (AllocArea fs v) d d' ∧
      (n ≤ (volume fs d).freeClusters.length →
        r = (l ++ (volume fs d).freeClusters.take n).headD 0 ∧
          Volume.Allocated v (volume fs d') (l ++ (volume fs d).freeClusters.take n)) ∧
      ((volume fs d).freeClusters.length < n → r = 0 ∧ GivenBack v (volume fs d')) := by
  -- on the clusters still to allocate; a full disk gives back what the rounds before have taken
  induction n generalizing l first prev d with
  | zero =>
    refine ⟨first, d, rfl, .refl _ _, fun _ => ?_, fun h => absurd h (by omega)⟩
    rw [List.take_zero, List.append_nil]
    exact ⟨hfirst, hal⟩
  | succ n ih =>
    cases hfr : (volume fs d).freeClusters with
    | nil =>
      rw [hfr, List.append_nil] at hfree
      obtain ⟨d', h1, h2, h3⟩ := g.freePartial_spec hal hfree
      refine ⟨0, d', ?_, h2.mono fun s hs => .inl hs, fun h => absurd h (by simp), fun _ => ?_⟩
      · rw [fatAllocChainLoop, g.fatFindFreeCluster_eq, hfr, List.headD_nil, if_pos rfl, hfirst, h1]
      · exact ⟨rfl, h3⟩
    | cons c rest =>
      obtain ⟨d', h1, h2, h3, h4⟩ :=
        g.fatAllocChainLoop_round first hv hspc hal hfree hfr hprev n
      obtain ⟨r, d'', e1, e2, e3, e4⟩ := ih (l ++ [c]) (if first = 0 then c else first) c d' h2
        (by rw [hfree, hfr, h3, List.append_assoc]; rfl)
        (by
          cases l with
          | nil => simp [hfirst]
          | cons a t =>
            have ha : ¬ a = 0 := by
              have := (Volume.mem_freeClusters.mp (show a ∈ v.freeClusters by simp [hfree])).1.1
              omega
            simp [hfirst, ha])
        (by simp)
      rw [h3] at e3 e4
      refine ⟨r, d'', by rw [h1, e1], h4.trans e2, fun hn => ?_, fun hn => ?_⟩
      · have := e3 (by simpa using hn)
        simpa using this
      · exact e4 (by simpa using hn)

/-- `fat_alloc_chain` takes the first free clusters. With too few of them it returns 0 and, unless
more than 65536 clusters have to be given back, leaves the table as it was. -/
theorem fatAllocChain_spec (n : ℕ) (d : Disk) :
    ∃ r d', fatAllocChain fs d n = (r, d') ∧ Writes (AllocArea fs (volume fs d)) d d' ∧
      (n ≤ (volume fs d).freeClusters.length →
        r = ((volume fs d).freeClusters.take n).headD 0 ∧
          Volume.Allocated (volume fs d) (volume fs d') ((volume fs d).freeClusters.take n)) ∧
      ((volume fs d).freeClusters.length < n → r = 0 ∧ GivenBack (volume fs d) (volume fs d')) :=
  g.fatAllocChainLoop_spec (volume fs d) rfl rfl n [] 0 0 d (allocated_nil _) rfl rfl rfl

end Geometry

end PsychWard.Fat32
