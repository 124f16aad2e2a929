import PsychWard.Fat32.SectorBuffers

/-!
# The sectors that clusters lead to

`cluster_to_sector` multiplies and adds in 32 bits. The clusters it gets come from the disk: table
values up to the bad-cluster mark, start clusters with all their 32 bits, the root cluster of the boot
sector. A traversal stays behind `data_start_sector` exactly when none of its sectors wraps around
(`atData_iff`), and there is a cluster that wraps on every volume with a table.
-/

namespace PsychWard.Fat32

open Traced

/-- A call of one of the functions that address sectors through `cluster_to_sector`. -/
inductive Traversal
  | dirScan (dirCluster : ℕ) (target : CString)
  | dirWriteEntryAt (cursor : DirCursor) (entry : Entry)
  | readChainData (startCluster offset maxLen : ℕ)
  | writeChainData (firstCluster : ℕ) (data : List UInt8)
  | fatAllocChain (numClusters : ℕ)

namespace Traversal

/-- What the call accesses. -/
def accesses (fs : Fat32Instance) (d : Disk) : Traversal → List Access
  | dirScan dirCluster target => (Accesses.dirScan fs d dirCluster target).log ()
  | dirWriteEntryAt cursor entry => (Accesses.dirWriteEntryAt fs d cursor entry).log ()
  | readChainData startCluster offset maxLen =>
    (Accesses.readChainData fs d startCluster offset maxLen).log ()
  | writeChainData firstCluster data => (Accesses.writeChainData fs d firstCluster data).log ()
  | fatAllocChain numClusters => (Accesses.fatAllocChain fs d numClusters).log ()

/-- Cluster arguments are 32-bit numbers, and a cursor points into a sector of a cluster. -/
def Valid (fs : Fat32Instance) : Traversal → Prop
  | dirScan dirCluster _ => dirCluster < 2 ^ 32
  | dirWriteEntryAt cursor _ => 2 ≤ cursor.cluster ∧ cursor.cluster < 2 ^ 32 ∧
      cursor.sectorInCluster < fs.sectorsPerCluster
  | readChainData startCluster _ _ => startCluster < 2 ^ 32
  | writeChainData firstCluster _ => firstCluster < 2 ^ 32
  | fatAllocChain _ => True

/-- Every sector the call addresses is at or after `data_start_sector`. -/
def AtData (fs : Fat32Instance) (d : Disk) (t : Traversal) : Prop :=
  ∀ c s, .sector c s ∈ t.accesses fs d →
    fs.dataStartSector ≤ (clusterToSector fs c + s) % 2 ^ 32

/-- No sector number of the clusters the call comes by wraps around when the offset of the data area
is added. -/
def Unwrapped (fs : Fat32Instance) (d : Disk) (t : Traversal) : Prop :=
  ∀ c s, .sector c s ∈ t.accesses fs d →
    fs.dataStartSector + ((c - 2) * fs.sectorsPerCluster + s) % 2 ^ 32 < 2 ^ 32

end Traversal

/-- A cluster that a traversal accepts, and one of its sectors. -/
def Accepted (fs : Fat32Instance) : Access → Prop
  | .buffer _ _ => True
  | .sector c s => 2 ≤ c ∧ c < 2 ^ 32 ∧ s < fs.sectorsPerCluster

theorem admits_accepted (fs : Fat32Instance) : Admits (Accepted fs) fs where
  entry := fun _ => trivial
  free := fun _ _ => trivial
  data := fun _ _ _ => trivial
  cluster := fun _ h2 hlt _ hs => ⟨h2, hlt, hs⟩

namespace Accesses

variable {P : Access → Prop} {fs : Fat32Instance} (a : Admits P fs) {d : Disk} {c : ℕ}

section
variable {σ : Type} {f : σ → DirCursor → Block → σ × Bool}

theorem within_scanCluster (hc : ∀ s < fs.sectorsPerCluster, P (.sector c s)) (n s : ℕ) (st : σ)
    (h : s + n ≤ fs.sectorsPerCluster) : Within P (scanCluster fs d f c n s st) := by
  induction n generalizing s st with
  | zero => exact .pure _
  | succ n ih =>
    rw [scanCluster]
    apply Within.seq (within_touch (hc s (by omega)))
    intro _
    cases fs.readBlocks d ((clusterToSector fs c + s) % 2 ^ 32) with
    | none => exact .pure _
    | some buf =>
      simp only
      rcases scanSector f buf c s 16 0 st with ⟨st, _ | _⟩
      · exact ih (s + 1) st (by omega)
      · exact .pure _

include a

theorem within_scanChain (hc : 2 ≤ c → ∀ s < fs.sectorsPerCluster, P (.sector c s))
    (guard last : ℕ) (st : σ) : Within P (scanChain fs d f guard c last st) := by
  induction guard generalizing c last st with
  | zero => exact .pure _
  | succ guard ih =>
    rw [scanChain]
    refine Within.ite (fun _ => .pure _) fun h2 => ?_
    apply Within.seq (within_scanCluster (hc (by omega)) _ 0 st (by omega))
    rintro (_ | ⟨st, _ | _⟩)
    · exact .pure _
    · apply Within.seq (within_fatGetEntry a.toAdmitsBuffers)
      intro next
      refine Within.ite (fun hnext => ?_) fun _ => .pure _
      exact ih (fun _ => a.cluster next (two_le_of_hasNext hnext).1 (two_le_of_hasNext hnext).2) c st
    · exact .pure _

end

include a

theorem within_dirStart : Within P (dirStart fs d c) := by
  refine Within.ite (fun _ => .pure _) fun _ => ?_
  apply Within.seq (within_fatChainHasCycle a.toAdmitsBuffers)
  intro cyclic
  exact Within.ite (fun _ => .pure _) fun _ => .pure _

theorem within_dirScan (hroot : fs.rootCluster < 2 ^ 32) (hc : c < 2 ^ 32) (target : CString) :
    Within P (dirScan fs d c target) := by
  rw [dirScan]
  apply Within.bind (within_dirStart a)
  intro u
  rw [val_dirStart]
  cases hstart : Fat32.dirStart fs d c with
  | none => exact .pure _
  | some clus =>
    have hlt : clus < 2 ^ 32 := by
      have hstart' : (if (if c < 2 then fs.rootCluster else c) < 2 then none
          else if Fat32.fatChainHasCycle fs d (if c < 2 then fs.rootCluster else c) then none
          else some (if c < 2 then fs.rootCluster else c)) = some clus := hstart
      have hle : (if c < 2 then fs.rootCluster else c) < 2 ^ 32 := by
        split <;> assumption
      generalize (if c < 2 then fs.rootCluster else c) = x at hstart' hle
      split at hstart'
      · cases hstart'
      · split at hstart'
        · cases hstart'
        · rwa [← Option.some.inj hstart']
    apply Within.seq (within_scanChain a (fun h2 => a.cluster clus h2 hlt) _ _ _)
    rintro (_ | ⟨st, last, stop⟩) <;> exact .pure _

omit a in
theorem within_dirWriteEntryAt {cur : DirCursor}
    (hc : P (.sector cur.cluster cur.sectorInCluster)) (entry : Entry) :
    Within P (dirWriteEntryAt fs d cur entry) := by
  rw [dirWriteEntryAt]
  apply Within.seq (within_touch hc)
  intro _
  cases fs.readBlocks d (dirCursorSector fs cur) with
  | none => exact .pure _
  | some buf => exact (within_touch hc).seq fun _ => .pure _

end Accesses

/-- The clusters a call addresses are those a traversal accepts. -/
theorem accepted_of_mem {fs : Fat32Instance} (hb : 0 < fs.bytesPerSector)
    (hspc : 0 < fs.sectorsPerCluster) (hroot : fs.rootCluster < 2 ^ 32) {d : Disk} {t : Traversal}
    (ht : t.Valid fs) {e : Access} (he : e ∈ t.accesses fs d) : Accepted fs e := by
  have a := admits_accepted fs
  cases t with
  | dirScan c target => exact Accesses.within_dirScan a hroot ht target () e he
  | dirWriteEntryAt cur entry => exact Accesses.within_dirWriteEntryAt ht entry () e he
  | readChainData c offset maxLen =>
    exact Accesses.within_readChainData a hb (fun h2 => a.cluster c h2 ht) offset maxLen () e he
  | writeChainData c data =>
    exact Accesses.within_writeChainData a (fun h2 => a.cluster c h2 ht) hspc data () e he
  | fatAllocChain n => exact Accesses.within_fatAllocChain a n () e he

/-- The addition of the data area's offset is the only place where a sector number can fall below
it. -/
theorem dataStart_le_sector_iff {fs : Fat32Instance} (hds : fs.dataStartSector < 2 ^ 32) {c : ℕ}
    (h2 : 2 ≤ c) (s : ℕ) : fs.dataStartSector ≤ (clusterToSector fs c + s) % 2 ^ 32 ↔
      fs.dataStartSector + ((c - 2) * fs.sectorsPerCluster + s) % 2 ^ 32 < 2 ^ 32 := by
  rw [clusterToSector_mod h2, dataSector]
  omega

/-- A cluster number that wraps around: its sector `s` falls below the data area. -/
theorem exists_wrapping {fs : Fat32Instance} (hds : fs.dataStartSector < 2 ^ 32)
    (hspc : 0 < fs.sectorsPerCluster)
    (hlarge : ¬ (fs.dataStartSector = 0 ∨ fs.sectorsPerCluster = 1 ∧ fs.dataStartSector ≤ 2)) :
    ∃ c s, 2 ≤ c ∧ c < 2 ^ 32 ∧ s < fs.sectorsPerCluster ∧
      (clusterToSector fs c + s) % 2 ^ 32 < fs.dataStartSector := by
  by_cases hone : fs.sectorsPerCluster = 1
  · refine ⟨2 ^ 32 - 1, 0, by decide, by decide, hspc, ?_⟩
    rw [clusterToSector_mod (by decide), dataSector, hone]
    omega
  · -- the last 32-bit number is a multiple of the cluster size and a rest
    obtain ⟨q, r, hr, hq, hsum⟩ : ∃ q r, r < fs.sectorsPerCluster ∧ q < 2 ^ 31 ∧
        q * fs.sectorsPerCluster + r = 2 ^ 32 - 1 := by
      refine ⟨(2 ^ 32 - 1) / fs.sectorsPerCluster, (2 ^ 32 - 1) % fs.sectorsPerCluster,
        Nat.mod_lt _ hspc, ?_, Nat.div_add_mod' _ _⟩
      exact (Nat.div_le_div_left (show 2 ≤ fs.sectorsPerCluster by omega) (by decide)).trans_lt
        (by decide)
    refine ⟨q + 2, r, by omega, by omega, hr, ?_⟩
    rw [clusterToSector_mod (by omega), dataSector, Nat.add_sub_cancel, Nat.add_assoc, hsum]
    omega

theorem fatGetEntry_blankDisk {fs : Fat32Instance} (hf : NoFault fs) (c : ℕ) :
    fatGetEntry fs blankDisk c = 0 := by
  have hget : ∀ i, Block.zero.get i = 0 := fun i => by
    rw [Block.get]
    split <;> rfl
  rw [fatGetEntry, hf.read]
  simp only [blankDisk, Block.u32, Block.u16, hget]
  rfl

/-- On a blank disk a cluster has no successor, and reading it addresses the sector asked for. -/
theorem mem_accesses_read {fs : Fat32Instance} (hf : NoFault fs) (hb : fs.bytesPerSector = 512)
    {c s : ℕ} (h2 : 2 ≤ c) (hs : s < fs.sectorsPerCluster) :
    .sector c s ∈ (Traversal.readChainData c (512 * s) 1).accesses fs blankDisk := by
  have hend : fatNext fs blankDisk c = none := by
    rw [fatNext, fatGetEntry_blankDisk hf]
    rfl
  have hskip : 512 * s / (512 * fs.sectorsPerCluster) = 0 :=
    Nat.div_eq_of_lt (Nat.mul_lt_mul_of_pos_left hs (by decide))
  have hoff : 512 * s % (512 * fs.sectorsPerCluster) / 512 = s := by
    rw [Nat.mod_eq_of_lt (Nat.mul_lt_mul_of_pos_left hs (by decide)), Nat.mul_div_cancel_left _
      (by decide)]
  have hpos : ¬ (512 * fs.sectorsPerCluster = 0 ∨ c < 2) := by omega
  rw [Traversal.accesses, Accesses.readChainData, hb, if_neg hpos]
  apply mem_log_right
  rw [Accesses.val_fatChainHasCycle, fatChainHasCycle_of_walk (.last hend), if_neg (by decide),
    hskip]
  apply mem_log_right
  rw [Accesses.val_skipClusters, skipClusters]
  simp only
  rw [show min 1 fat32MaxIoChunk = 0 + 1 from rfl, Accesses.readChainLoop, hb, hoff,
    if_neg (by omega)]
  exact mem_log_left (List.mem_singleton_self _)

/-- The geometry that `fat32_init` can leave. -/
theorem bounds_of_fat32Init {readBlocks : Disk → ℕ → Option Block}
    {writeBlocks : Disk → ℕ → Block → Bool × Disk} {d : Disk} {fs : Fat32Instance}
    (h : fat32Init readBlocks writeBlocks d = some fs) :
    fs.dataStartSector < 2 ^ 32 ∧ 0 < fs.bytesPerSector ∧ 0 < fs.sectorsPerCluster ∧
      fs.rootCluster < 2 ^ 32 := by
  obtain ⟨bpb, -, rfl⟩ := Option.map_eq_some_iff.mp h
  have hroot := bpb.u32_lt 44
  refine ⟨Nat.mod_lt _ (by decide), ?_, ?_, ?_⟩
  · simp only
    split <;> omega
  · simp only
    split <;> omega
  · simp only
    split <;> omega

section
variable {fs : Fat32Instance} (hds : fs.dataStartSector < 2 ^ 32) (hb : 0 < fs.bytesPerSector)
  (hspc : 0 < fs.sectorsPerCluster) (hroot : fs.rootCluster < 2 ^ 32)

include hds hb hspc hroot

theorem atData_iff_unwrapped (d : Disk) {t : Traversal} (ht : t.Valid fs) :
    t.AtData fs d ↔ t.Unwrapped fs d := by
  constructor
  · intro h c s he
    have hacc := accepted_of_mem hb hspc hroot ht he
    exact (dataStart_le_sector_iff hds hacc.1 s).mp (h c s he)
  · intro h c s he
    have hacc := accepted_of_mem hb hspc hroot ht he
    exact (dataStart_le_sector_iff hds hacc.1 s).mpr (h c s he)

/-- Where next to nothing lies in front of the data area no cluster number wraps around. -/
theorem unwrapped_of_small
    (h : fs.dataStartSector = 0 ∨ fs.sectorsPerCluster = 1 ∧ fs.dataStartSector ≤ 2) (d : Disk)
    {t : Traversal} (ht : t.Valid fs) : t.Unwrapped fs d := by
  intro c s he
  obtain ⟨h2, hlt, hs⟩ : Accepted fs (.sector c s) := accepted_of_mem hb hspc hroot ht he
  rcases h with h0 | ⟨h1, hle⟩
  · rw [h0, Nat.zero_add]
    exact Nat.mod_lt _ (by decide)
  · rw [h1] at hs ⊢
    omega

end

/-- A call keeps to the data area exactly when none of the sectors it addresses wraps around. All
calls on all devices and disks do so only where there is next to nothing in front of the data area. -/
theorem atData_iff {readBlocks : Disk → ℕ → Option Block}
    {writeBlocks : Disk → ℕ → Block → Bool × Disk} {d₀ : Disk} {fs : Fat32Instance}
    (hinit : fat32Init readBlocks writeBlocks d₀ = some fs) (hbytes : fs.bytesPerSector = 512) :
    (∀ d (t : Traversal), t.Valid fs → (t.AtData fs d ↔ t.Unwrapped fs d)) ∧
    ((∀ readBlocks writeBlocks d (t : Traversal), t.Valid fs →
        t.AtData { fs with readBlocks, writeBlocks } d) ↔
      fs.dataStartSector = 0 ∨ fs.sectorsPerCluster = 1 ∧ fs.dataStartSector ≤ 2) := by
  obtain ⟨hds, hb, hspc, hroot⟩ := bounds_of_fat32Init hinit
  refine ⟨fun d t ht => atData_iff_unwrapped hds hb hspc hroot d ht, fun h => ?_, ?_⟩
  · by_contra hlarge
    obtain ⟨c, s, h2, hlt, hs, hwrap⟩ := exists_wrapping hds hspc hlarge
    have hf : NoFault { fs with readBlocks := ramRead, writeBlocks := ramWrite } :=
      ⟨fun _ _ => rfl, fun _ _ _ => rfl⟩
    have hmem := mem_accesses_read hf hbytes h2 hs
    have hat := h ramRead ramWrite blankDisk (.readChainData c (512 * s) 1) hlt c s hmem
    exact absurd hwrap (Nat.not_lt.mpr hat)
  · intro hsmall read write d t ht
    -- the device is no part of the geometry
    generalize hg : ({ fs with readBlocks := read, writeBlocks := write } : Fat32Instance) = g
    have hds' : g.dataStartSector < 2 ^ 32 := hg ▸ hds
    have hb' : 0 < g.bytesPerSector := hg ▸ hb
    have hspc' : 0 < g.sectorsPerCluster := hg ▸ hspc
    have hroot' : g.rootCluster < 2 ^ 32 := hg ▸ hroot
    have ht' : t.Valid g := by
      rw [← hg]
      cases t <;> exact ht
    have hsmall' : g.dataStartSector = 0 ∨ g.sectorsPerCluster = 1 ∧ g.dataStartSector ≤ 2 := by
      rw [← hg]
      exact hsmall
    exact (atData_iff_unwrapped hds' hb' hspc' hroot' d ht').mpr
      (unwrapped_of_small hds' hb' hspc' hroot' hsmall' d ht')

/-- The geometry of a boot sector that leaves everything to the defaults. -/
theorem fat32Init_blankDisk :
    fat32Init ramRead ramWrite blankDisk = some (ramFs 512 8 32 2 1 2) := by
  have h11 : Block.zero.u16 11 = 0 := by decide
  have h13 : Block.zero.get 13 = 0 := by decide
  have h14 : Block.zero.u16 14 = 0 := by decide
  have h16 : Block.zero.get 16 = 0 := by decide
  have h36 : Block.zero.u32 36 = 0 := by decide
  have h44 : Block.zero.u32 44 = 0 := by decide
  simp only [fat32Init, ramRead, blankDisk, Option.map_some, h11, h13, h14, h16, h36, h44]
  rfl

theorem atData_iff_blankDisk : ¬ ∀ readBlocks writeBlocks d (t : Traversal),
    t.Valid (ramFs 512 8 32 2 1 2) →
      t.AtData { ramFs 512 8 32 2 1 2 with readBlocks, writeBlocks } d := by
  intro h
  exact absurd ((atData_iff fat32Init_blankDisk rfl).2.mp h) (by decide)

/-- A file or a directory that starts at cluster 4294967265 reaches the boot sector on a volume with
33 sectors in front of its data: reading the file starts there, and so does storing an entry. -/
theorem not_atData_wrapping :
    ¬ (Traversal.readChainData 4294967265 (512 * 0) 1).AtData (ramFs 512 1 32 1 1 2) blankDisk ∧
    ¬ (Traversal.dirWriteEntryAt ⟨4294967265, 0, 0⟩ Entry.zero).AtData (ramFs 512 1 32 1 1 2)
      blankDisk := by
  refine ⟨fun h => ?_, fun h => ?_⟩
  · have hmem := mem_accesses_read (c := 4294967265) (s := 0) (noFault_ramFs 512 1 32 1 1 2) rfl
      (by decide) (by decide)
    exact absurd (h 4294967265 0 hmem) (by decide)
  · exact absurd (h 4294967265 0 (mem_log_left (List.mem_singleton_self _))) (by decide)

end PsychWard.Fat32
