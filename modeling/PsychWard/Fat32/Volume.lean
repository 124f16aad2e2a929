import PsychWard.Fat32.Directory
import PsychWard.Common.ChainForest

/-!
# Volumes

A `Volume` is what a disk says once sectors are out of the way: the value of every table entry and
the contents of every cluster. `volume fs d` reads it off the disk under the geometry that a mounted
volume has, and the sector writes of the driver become the edits `setFat` and `setData`.

The directory tree is the `ChainForest` of a volume. Its references are the entries before a
directory's end mark that name a file or a directory, other than `.` and `..`, and have clusters.
-/

namespace PsychWard.Fat32

/-! ## Entries -/

namespace Entry

variable (e : Entry)

/-- The slot may be taken for a new entry. -/
def IsFree : Prop := e 0 = 0 ∨ e 0 = deleted

/-- The entry names a file or a directory: it is not free, no part of a long name, no volume label. -/
def IsNamed : Prop := ¬ e.IsFree ∧ e.attr ≠ 0x0F ∧ e.attr &&& 0x08 = 0

/-- The entry is `.` or `..`. -/
def IsDot : Prop := e.name = padBlank 11 [dot] ∨ e.name = padBlank 11 [dot, dot]

/-- `ATTR_DIRECTORY` -/
def isDir : Bool := decide (e.attr &&& 0x10 ≠ 0)

instance : Decidable e.IsFree := inferInstanceAs (Decidable (_ ∨ _))

instance : Decidable e.IsNamed := inferInstanceAs (Decidable (_ ∧ _ ∧ _))

instance : Decidable e.IsDot := inferInstanceAs (Decidable (_ ∨ _))

/-- The entry stands for the chain from `c`, which is a directory when `b` holds. -/
def Refers (c : ℕ) (b : Bool) : Prop :=
  e.IsNamed ∧ ¬ e.IsDot ∧ e.clus = c ∧ 2 ≤ c ∧ e.isDir = b

end Entry

/-! ## Volumes -/

/-- The table and the clusters of a volume. -/
structure Volume where
  /-- the number of table entries -/
  clusters : ℕ
  sectorsPerCluster : ℕ
  fat : ℕ → ℕ
  /-- sector `s` of cluster `c` -/
  data : ℕ → ℕ → Block

/-- The slots of one cluster, in the order of the disk. -/
def clusterSlots (sectorsPerCluster c : ℕ) : List DirCursor :=
  (List.range sectorsPerCluster).flatMap fun s => (List.range 16).map fun k => ⟨c, s, 32 * k⟩

namespace Volume

variable (v : Volume)

/-- The clusters that hold data. -/
def InRange (c : ℕ) : Prop := 2 ≤ c ∧ c < v.clusters

instance (c : ℕ) : Decidable (v.InRange c) := inferInstanceAs (Decidable (_ ∧ _))

/-- The table marks the cluster as taken. -/
def Used (c : ℕ) : Prop := v.InRange c ∧ v.fat c ≠ 0

/-- The cluster behind `c` in its chain. -/
def next (c : ℕ) : Option ℕ := if clusterHasNext (v.fat c) then some (v.fat c) else none

/-- The slots of a directory whose chain is `l`. -/
def slots (l : List ℕ) : List DirCursor := l.flatMap (clusterSlots v.sectorsPerCluster)

/-- The entry in a slot. -/
def entry (p : DirCursor) : Entry := (v.data p.cluster p.sectorInCluster).entry p.offsetInSector

/-- The slots of a directory before its end mark. -/
def beforeEnd (l : List ℕ) : List DirCursor :=
  (v.slots l).takeWhile fun p => decide (v.entry p 0 ≠ 0)

/-- The directory tree of a volume. -/
def forest : ChainForest ℕ DirCursor where
  used := v.Used
  next := v.next
  refs l p c b := p ∈ v.beforeEnd l ∧ (v.entry p).Refers c b
  home := DirCursor.cluster
  refs_home := by
    intro l p c b h
    obtain ⟨a, ha, hp⟩ := List.mem_flatMap.mp ((List.takeWhile_sublist _).subset h.1)
    obtain ⟨s, -, hp⟩ := List.mem_flatMap.mp hp
    obtain ⟨k, -, rfl⟩ := List.mem_map.mp hp
    exact ha
  refs_fun := by
    rintro l p c b c' b' ⟨-, -, -, hc, -, hb⟩ ⟨-, -, -, hc', -, hb'⟩
    exact ⟨hc.symm.trans hc', hb.symm.trans hb'⟩

/-- The root directory as the only root. -/
def rootOnly (root c : ℕ) (b : Bool) : Prop := c = root ∧ b = true

/-- The chains of the root directory and of all live entries reachable from it end, lie in used
clusters and are pairwise disjoint, and every used cluster is in one of them. -/
def Consistent (root : ℕ) : Prop := v.forest.Consistent (rootOnly root)

/-- Store a table entry. -/
def setFat (c x : ℕ) : Volume := { v with fat := Function.update v.fat c x }

/-- Store a sector of a cluster. -/
def setData (c s : ℕ) (b : Block) : Volume :=
  { v with data := Function.update v.data c (Function.update (v.data c) s b) }

/-- The free clusters, in the order `fat_find_free_cluster` looks at them. -/
def freeClusters : List ℕ :=
  (List.range v.clusters).filter fun c => decide (2 ≤ c) && decide (v.fat c = 0)

/-- Mark clusters as free. -/
def clear (l : List ℕ) : Volume := { v with fat := fun c => if c ∈ l then 0 else v.fat c }

/-- `v'` is `v` with the free clusters `l` zeroed and linked into a chain. -/
structure Allocated (v v' : Volume) (l : List ℕ) : Prop where
  clusters : v'.clusters = v.clusters
  sectorsPerCluster : v'.sectorsPerCluster = v.sectorsPerCluster
  fat_eq : ∀ c ∉ l, v'.fat c = v.fat c
  fat_ne_zero : ∀ c ∈ l, v'.fat c ≠ 0
  walk : ∀ c, l.head? = some c → Walk v'.next c l
  data_eq : ∀ c ∉ l, v'.data c = v.data c
  data_zero : ∀ c ∈ l, ∀ k < v.sectorsPerCluster, v'.data c k = Block.zero

variable {v}

@[simp] theorem setFat_clusters (c x : ℕ) : (v.setFat c x).clusters = v.clusters := rfl
@[simp] theorem setFat_sectorsPerCluster (c x : ℕ) :
    (v.setFat c x).sectorsPerCluster = v.sectorsPerCluster := rfl
@[simp] theorem setFat_data (c x : ℕ) : (v.setFat c x).data = v.data := rfl
@[simp] theorem setFat_fat (c x : ℕ) : (v.setFat c x).fat = Function.update v.fat c x := rfl
@[simp] theorem setData_clusters (c s : ℕ) (b : Block) : (v.setData c s b).clusters = v.clusters := rfl
@[simp] theorem setData_sectorsPerCluster (c s : ℕ) (b : Block) :
    (v.setData c s b).sectorsPerCluster = v.sectorsPerCluster := rfl
@[simp] theorem setData_fat (c s : ℕ) (b : Block) : (v.setData c s b).fat = v.fat := rfl

theorem setData_data (c s : ℕ) (b : Block) (c' s' : ℕ) :
    (v.setData c s b).data c' s' = if c' = c ∧ s' = s then b else v.data c' s' := by
  by_cases hc : c' = c
  · subst hc
    by_cases hs : s' = s
    · subst hs; simp [setData]
    · simp [setData, hs]
  · simp [setData, hc]

/-- Only the entries of the stored sector change. -/
theorem setData_entry (c s : ℕ) (b : Block) (p : DirCursor) :
    (v.setData c s b).entry p =
      if p.cluster = c ∧ p.sectorInCluster = s then b.entry p.offsetInSector else v.entry p := by
  simp only [entry, setData_data]
  split <;> rfl

theorem mem_clusterSlots {n c : ℕ} {p : DirCursor} : p ∈ clusterSlots n c ↔
    p.cluster = c ∧ p.sectorInCluster < n ∧ ∃ k < 16, p.offsetInSector = 32 * k := by
  obtain ⟨pc, ps, po⟩ := p
  simp only [clusterSlots, List.mem_flatMap, List.mem_range, List.mem_map, DirCursor.mk.injEq]
  constructor
  · rintro ⟨s, hs, k, hk, rfl, rfl, rfl⟩
    exact ⟨rfl, hs, k, hk, rfl⟩
  · rintro ⟨rfl, hs, k, hk, rfl⟩
    exact ⟨ps, hs, k, hk, rfl, rfl, rfl⟩

theorem mem_slots {l : List ℕ} {p : DirCursor} : p ∈ v.slots l ↔
    p.cluster ∈ l ∧ p.sectorInCluster < v.sectorsPerCluster ∧
      ∃ k < 16, p.offsetInSector = 32 * k := by
  simp only [slots, List.mem_flatMap, mem_clusterSlots]
  constructor
  · rintro ⟨a, ha, rfl, h⟩
    exact ⟨ha, h⟩
  · rintro ⟨ha, h⟩
    exact ⟨_, ha, rfl, h⟩

theorem nodup_clusterSlots (n c : ℕ) : (clusterSlots n c).Nodup := by
  refine List.nodup_flatMap.mpr ⟨fun s _ => ?_, ?_⟩
  · refine (List.nodup_range).map fun k k' h => ?_
    simp only [DirCursor.mk.injEq] at h
    omega
  · refine List.nodup_range.imp fun {s s'} hs p hp hp' => ?_
    obtain ⟨k, -, rfl⟩ := List.mem_map.mp hp
    obtain ⟨k', -, h⟩ := List.mem_map.mp hp'
    simp only [DirCursor.mk.injEq] at h
    exact hs h.2.1.symm

theorem nodup_slots {l : List ℕ} (h : l.Nodup) : (v.slots l).Nodup := by
  refine List.nodup_flatMap.mpr ⟨fun c _ => nodup_clusterSlots _ c, h.imp fun {c c'} hc p hp hp' => ?_⟩
  exact hc ((mem_clusterSlots.mp hp).1.symm.trans (mem_clusterSlots.mp hp').1)

theorem slots_congr {v' : Volume} (h : v'.sectorsPerCluster = v.sectorsPerCluster) (l : List ℕ) :
    v'.slots l = v.slots l := by
  rw [slots, slots, h]

theorem slots_append (l m : List ℕ) : v.slots (l ++ m) = v.slots l ++ v.slots m :=
  List.flatMap_append

/-! ### Free clusters -/

theorem mem_freeClusters {c : ℕ} : c ∈ v.freeClusters ↔ v.InRange c ∧ v.fat c = 0 := by
  simp only [freeClusters, List.mem_filter, List.mem_range, Bool.and_eq_true, decide_eq_true_eq,
    InRange]
  omega

theorem nodup_freeClusters : v.freeClusters.Nodup := List.nodup_range.filter _

theorem not_used_of_free {c : ℕ} (h : c ∈ v.freeClusters) : ¬ v.Used c :=
  fun hu => hu.2 (mem_freeClusters.mp h).2

/-- Taking the first free cluster leaves the rest of the list. -/
theorem freeClusters_of_taken {v' : Volume} {c : ℕ} {rest : List ℕ}
    (h : v.freeClusters = c :: rest) (hcl : v'.clusters = v.clusters)
    (hfat : ∀ x, v'.fat x = 0 ↔ v.fat x = 0 ∧ x ≠ c) : v'.freeClusters = rest := by
  have hnd := v.nodup_freeClusters
  rw [h] at hnd
  have hfilter : v'.freeClusters = v.freeClusters.filter fun x => decide (x ≠ c) := by
    rw [freeClusters, freeClusters, hcl, List.filter_filter]
    refine List.filter_congr fun x _ => ?_
    have hx := hfat x
    by_cases h1 : x = c <;> by_cases h3 : v.fat x = 0 <;> simp_all
  rw [hfilter, h, List.filter_cons_of_neg (by simp), List.filter_eq_self]
  intro x hx
  have : x ≠ c := by
    rintro rfl
    exact (List.nodup_cons.mp hnd).1 hx
  simpa using this

theorem clear_nil : v.clear [] = v := by simp [clear]

theorem clear_cons (c : ℕ) (l : List ℕ) : (v.setFat c 0).clear l = v.clear (c :: l) := by
  simp only [clear, setFat, Volume.mk.injEq, true_and, and_true]
  funext x
  by_cases hx : x = c
  · subst hx; simp
  · simp [hx]

/-- A chain stays a chain while entries outside it change. -/
theorem chain_congr {v' : Volume} {c : ℕ} {l : List ℕ} (h : v.forest.Chain c l)
    (hcl : v'.clusters = v.clusters) (hfat : ∀ x ∈ l, v'.fat x = v.fat x) :
    v'.forest.Chain c l := by
  refine h.congr (fun x hx => ?_) fun x hx => ?_
  · have hu : v.Used x := h.2 x hx
    exact ⟨⟨hu.1.1, hcl ▸ hu.1.2⟩, by rw [hfat x hx]; exact hu.2⟩
  · show v'.next x = v.next x
    rw [next, next, hfat x hx]

end Volume

/-! ## The volume on a disk -/

/-- The number of entries of the table, for 512-byte sectors. -/
def Fat32Instance.clusters (fs : Fat32Instance) : ℕ := 128 * fs.sectorsPerFat

/-- The volume on a disk, read from the first copy of the table and the data area. -/
def volume (fs : Fat32Instance) (d : Disk) : Volume where
  clusters := fs.clusters
  sectorsPerCluster := fs.sectorsPerCluster
  fat c :=
    if c < fs.clusters then (d.sectors (fatSector fs 0 c)).u32 (fatOffset fs c) % 2 ^ 28 else 0
  data c s :=
    if (2 ≤ c ∧ c < fs.clusters) ∧ s < fs.sectorsPerCluster then
      d.sectors (clusterToSector fs c + s)
    else Block.zero

/-- The volume as the code finds its table entries and its sectors. -/
def diskVolume (fs : Fat32Instance) (d : Disk) : Volume where
  clusters := fs.clusters
  sectorsPerCluster := fs.sectorsPerCluster
  fat := fatGetEntry fs d
  data c s := d.sectors ((clusterToSector fs c + s) % 2 ^ 32)

/-- A mounted volume with 512-byte sectors on a device that never fails: the copies of the table lie
before the data area, and sector and cluster numbers fit their types. -/
structure Geometry (fs : Fat32Instance) : Prop where
  noFault : NoFault fs
  bytes : fs.bytesPerSector = 512
  sectors_pos : 0 < fs.sectorsPerCluster
  copies_pos : 0 < fs.fatCount
  dataStart : fs.dataStartSector = fs.reservedSectors + fs.fatCount * fs.sectorsPerFat
  sectors_lt : fs.dataStartSector + fs.clusters * fs.sectorsPerCluster ≤ 2 ^ 32
  clusters_le : fs.clusters ≤ fat32Eoc

/-- The sectors of the table, all copies. -/
def FatArea (fs : Fat32Instance) (s : ℕ) : Prop := s < fs.dataStartSector

/-- Sector `k` of cluster `c`, `k < sectorsPerCluster`. -/
def dataSector (fs : Fat32Instance) (c k : ℕ) : ℕ :=
  fs.dataStartSector + (c - 2) * fs.sectorsPerCluster + k

end PsychWard.Fat32
