import PsychWard.Common.Traced
import PsychWard.Fat32.Directory

/-!
# Which bytes and which sectors a function accesses

The functions of `Table` and `Directory` that work on a sector buffer or reach a sector through
`cluster_to_sector`, once more, with a log of these accesses: the part of a 512-byte buffer that is
read or written, and the cluster and the sector behind its first one that is transferred. Each one
computes what the function of the same name computes (`val_fatGetEntry` and so on), so a statement
about the log is one about the function.
-/

namespace PsychWard.Fat32

/-- An access of the table, data and directory functions. -/
inductive Access
  /-- `length` bytes of a sector buffer from byte `offset` on -/
  | buffer (offset length : ℕ)
  /-- the sector `cluster_to_sector(cluster) + index` -/
  | sector (cluster index : ℕ)
  deriving DecidableEq

/-- A computation that logs its accesses. -/
abbrev Io := Traced Unit Access

namespace Accesses

open Traced

/-- Log an access. -/
def touch (e : Access) : Io Unit := access e fun _ => ()

/-- `fat_get_entry`: the sector is read into `fat_buf`, then four bytes of it. -/
def fatGetEntry (fs : Fat32Instance) (d : Disk) (cluster : ℕ) : Io ℕ :=
  match fs.readBlocks d (fatSector fs 0 cluster) with
  | none => pure fat32Eoc
  | some buf => do
    touch (.buffer (fatOffset fs cluster) 4)
    pure (buf.u32 (fatOffset fs cluster) % 2 ^ 28)

/-- `fat_set_entry` over the copies of the FAT: each sector is read, changed and written back. -/
def fatSetEntryFrom (fs : Fat32Instance) (cluster value : ℕ) : ℕ → ℕ → Disk → Io (Bool × Disk)
  | 0, _, d => pure (true, d)
  | n + 1, copy, d =>
    match fs.readBlocks d (fatSector fs copy cluster) with
    | none => pure (false, d)
    | some buf => do
      touch (.buffer (fatOffset fs cluster) 4)
      match fs.writeBlocks d (fatSector fs copy cluster)
          (buf.setFat (fatOffset fs cluster) value) with
      | (false, d) => pure (false, d)
      | (true, d) => fatSetEntryFrom fs cluster value n (copy + 1) d

/-- `fat_set_entry`, with its accesses. -/
def fatSetEntry (fs : Fat32Instance) (d : Disk) (cluster value : ℕ) : Io (Bool × Disk) :=
  fatSetEntryFrom fs cluster value fs.fatCount 0 d

/-- `fat_chain_has_cycle`: both walkers read the FAT through the same buffer. -/
def fatChainHasCycleLoop (fs : Fat32Instance) (d : Disk) : ℕ → ℕ → ℕ → Io (Option Bool)
  | 0, _, _ => pure none
  | fuel + 1, slow, fast => do
    let f1 ← fatGetEntry fs d fast
    if clusterHasNext f1 then
      let f2 ← fatGetEntry fs d f1
      if clusterHasNext f2 then
        let slow ← fatGetEntry fs d slow
        if slow = f2 then pure (some true) else fatChainHasCycleLoop fs d fuel slow f2
      else pure (some false)
    else pure (some false)

/-- `fat_chain_has_cycle`, with its accesses. -/
def fatChainHasCycle (fs : Fat32Instance) (d : Disk) (startCluster : ℕ) : Io Bool :=
  if startCluster < 2 then pure false
  else do
    let r ← fatChainHasCycleLoop fs d (2 ^ 28 + 1) startCluster startCluster
    pure (r.getD true)

/-- The loop over the entries of one sector of the table, from entry `e` on. -/
def fatFindFreeInSector (buf : Block) (sec entriesPerSector : ℕ) : ℕ → ℕ → Io (Option ℕ)
  | 0, _ => pure none
  | n + 1, e =>
    if (sec * entriesPerSector + e) % 2 ^ 32 < 2 then
      fatFindFreeInSector buf sec entriesPerSector n (e + 1)
    else do
      touch (.buffer (4 * e) 4)
      if buf.u32 (4 * e) % 2 ^ 28 = 0 then pure (some e)
      else fatFindFreeInSector buf sec entriesPerSector n (e + 1)

/-- `fat_find_free_cluster`: the entries of each FAT sector are read from the buffer. -/
def fatFindFreeClusterFrom (fs : Fat32Instance) (d : Disk) : ℕ → ℕ → Io ℕ
  | 0, _ => pure 0
  | n + 1, sec =>
    match fs.readBlocks d ((fs.reservedSectors + sec) % 2 ^ 32) with
    | none => pure 0
    | some buf => do
      match ← fatFindFreeInSector buf sec (fs.bytesPerSector / 4) (fs.bytesPerSector / 4) 0 with
      | some e => pure ((sec * (fs.bytesPerSector / 4) + e) % 2 ^ 32)
      | none => fatFindFreeClusterFrom fs d n (sec + 1)

/-- `fat_find_free_cluster`, with its accesses. -/
def fatFindFreeCluster (fs : Fat32Instance) (d : Disk) : Io ℕ :=
  fatFindFreeClusterFrom fs d fs.sectorsPerFat 0

/-- `fat_free_chain`: the next cluster is read before the entry is cleared. -/
def fatFreeChainLoop (fs : Fat32Instance) : ℕ → ℕ → Disk → Io Disk
  | 0, _, d => pure d
  | guard + 1, cluster, d =>
    if cluster < 2 then pure d
    else do
      let next ← fatGetEntry fs d cluster
      let (_, d) ← fatSetEntry fs d cluster 0
      if clusterHasNext next then fatFreeChainLoop fs guard next d else pure d

/-- `fat_free_chain`, with its accesses. -/
def fatFreeChain (fs : Fat32Instance) (d : Disk) (startCluster : ℕ) : Io (Bool × Disk) := do
  if ← fatChainHasCycle fs d startCluster then pure (false, d)
  else
    let d ← fatFreeChainLoop fs 65536 startCluster d
    pure (true, d)

/-- The zeroes of a cluster from its sector `s` on. -/
def zeroSectors (fs : Fat32Instance) (cluster : ℕ) : ℕ → ℕ → Disk → Io Disk
  | 0, _, d => pure d
  | n + 1, s, d => do
    touch (.sector cluster s)
    zeroSectors fs cluster n (s + 1)
      (fs.writeBlocks d ((clusterToSector fs cluster + s) % 2 ^ 32) Block.zero).2

/-- The rollback of `fat_alloc_chain` frees what was linked so far. -/
def freePartial (fs : Fat32Instance) (d : Disk) (first : ℕ) : Io Disk :=
  if first = 0 then pure d
  else do
    let (_, d) ← fatFreeChain fs d first
    pure d

/-- `prev != 0 && !fat_set_entry(fs, prev, c)` -/
def linkPrev (fs : Fat32Instance) (d : Disk) (prev c : ℕ) : Io (Bool × Disk) :=
  if prev = 0 then pure (true, d) else fatSetEntry fs d prev c

/-- `fat_alloc_chain`: each cluster is found, marked, zeroed and linked. -/
def fatAllocChainLoop (fs : Fat32Instance) : ℕ → ℕ → ℕ → Disk → Io (ℕ × Disk)
  | 0, first, _, d => pure (first, d)
  | n + 1, first, prev, d => do
    let c ← fatFindFreeCluster fs d
    if c = 0 then
      let d ← freePartial fs d first
      pure (0, d)
    else
      match ← fatSetEntry fs d c fat32Eoc with
      | (false, d) =>
        let d ← freePartial fs d first
        pure (0, d)
      | (true, d) =>
        match ← linkPrev fs d prev c with
        | (false, d) =>
          let (_, d) ← fatSetEntry fs d c 0
          let d ← freePartial fs d first
          pure (0, d)
        | (true, d) =>
          let d ← zeroSectors fs c fs.sectorsPerCluster 0 d
          fatAllocChainLoop fs n (if first = 0 then c else first) c d

/-- `fat_alloc_chain`, with its accesses. -/
def fatAllocChain (fs : Fat32Instance) (d : Disk) (numClusters : ℕ) : Io (ℕ × Disk) :=
  fatAllocChainLoop fs numClusters 0 0 d

/-- The clusters before the offset are walked and not read. -/
def skipClusters (fs : Fat32Instance) (d : Disk) : ℕ → ℕ → Io (Option ℕ)
  | 0, cluster => pure (some cluster)
  | n + 1, cluster =>
    if cluster < 2 then pure none
    else do
      let next ← fatGetEntry fs d cluster
      if clusterHasNext next then skipClusters fs d n next else pure none

/-- `fat32_read_chain_data`: each sector is copied out of the buffer. -/
def readChainLoop (fs : Fat32Instance) (d : Disk) : ℕ → ℕ → ℕ → ℕ → Io (List UInt8)
  | 0, _, _, _ => pure []
  | fuel + 1, need, cluster, offsetInCluster =>
    if need = 0 ∨ cluster < 2 then pure []
    else do
      touch (.sector cluster (offsetInCluster / fs.bytesPerSector))
      match fs.readBlocks d
          ((clusterToSector fs cluster + offsetInCluster / fs.bytesPerSector) % 2 ^ 32) with
      | none => pure []
      | some sbuf =>
        let byteInSector := offsetInCluster % fs.bytesPerSector
        let take := min need (fs.bytesPerSector - byteInSector)
        touch (.buffer byteInSector take)
        if fs.bytesPerSector * fs.sectorsPerCluster ≤ offsetInCluster + take then
          let next ← fatGetEntry fs d cluster
          let rest ← readChainLoop fs d fuel (need - take) (if clusterHasNext next then next else 0) 0
          pure (sbuf.bytes byteInSector take ++ rest)
        else
          let rest ← readChainLoop fs d fuel (need - take) cluster (offsetInCluster + take)
          pure (sbuf.bytes byteInSector take ++ rest)

/-- `read_chain_data`, with its accesses. -/
def readChainData (fs : Fat32Instance) (d : Disk) (startCluster offset maxLen : ℕ) :
    Io (List UInt8) :=
  let bytesPerCluster := fs.bytesPerSector * fs.sectorsPerCluster
  if bytesPerCluster = 0 ∨ startCluster < 2 then pure []
  else do
    if ← fatChainHasCycle fs d startCluster then pure []
    else
      match ← skipClusters fs d (offset / bytesPerCluster) startCluster with
      | none => pure []
      | some cluster =>
        readChainLoop fs d (min maxLen fat32MaxIoChunk) (min maxLen fat32MaxIoChunk) cluster
          (offset % bytesPerCluster)

/-- A short last sector is put together in `sector_buf`: the `n` bytes left, and zeros behind them. -/
def fillShort (n bytesPerSector : ℕ) : Io Unit :=
  if n < bytesPerSector then do
    touch (.buffer 0 n)
    touch (.buffer n (bytesPerSector - n))
  else pure ()

/-- The write loop fills the buffer from the data and pads the last sector with zeros. -/
def writeChainLoop (fs : Fat32Instance) : ℕ → List UInt8 → ℕ → ℕ → Disk → Io (Bool × Disk)
  | 0, _, _, _, d => pure (true, d)
  | fuel + 1, data, cluster, sectorInCluster, d =>
    if data = [] then pure (true, d)
    else if cluster < 2 then pure (false, d)
    else do
      fillShort data.length fs.bytesPerSector
      touch (.sector cluster sectorInCluster)
      match fs.writeBlocks d ((clusterToSector fs cluster + sectorInCluster) % 2 ^ 32)
          (Block.ofList (data.take fs.bytesPerSector)) with
      | (false, d) => pure (false, d)
      | (true, d) =>
        let rest := data.drop fs.bytesPerSector
        if fs.sectorsPerCluster ≤ sectorInCluster + 1 then
          if rest = [] then pure (true, d)
          else
            let next ← fatGetEntry fs d cluster
            if clusterHasNext next then writeChainLoop fs fuel rest next 0 d else pure (false, d)
        else writeChainLoop fs fuel rest cluster (sectorInCluster + 1) d

/-- `write_chain_data`, with its accesses. -/
def writeChainData (fs : Fat32Instance) (d : Disk) (firstCluster : ℕ) (data : List UInt8) :
    Io (Bool × Disk) :=
  writeChainLoop fs data.length data firstCluster 0 d

section Scan

variable {σ : Type}

/-- The sectors of one cluster, with the records read from the buffer. -/
def scanCluster (fs : Fat32Instance) (d : Disk) (f : σ → DirCursor → Block → σ × Bool) (clus : ℕ) :
    ℕ → ℕ → σ → Io (Option (σ × Bool))
  | 0, _, st => pure (some (st, false))
  | n + 1, s, st => do
    touch (.sector clus s)
    match fs.readBlocks d ((clusterToSector fs clus + s) % 2 ^ 32) with
    | none => pure none
    | some buf =>
      match scanSector f buf clus s 16 0 st with
      | (st, true) => pure (some (st, true))
      | (st, false) => scanCluster fs d f clus n (s + 1) st

/-- The clusters of a directory, with the FAT read between them. -/
def scanChain (fs : Fat32Instance) (d : Disk) (f : σ → DirCursor → Block → σ × Bool) :
    ℕ → ℕ → ℕ → σ → Io (Option (σ × ℕ × Bool))
  | 0, _, last, st => pure (some (st, last, false))
  | guard + 1, clus, last, st =>
    if clus < 2 then pure (some (st, last, false))
    else do
      match ← scanCluster fs d f clus fs.sectorsPerCluster 0 st with
      | none => pure none
      | some (st, true) => pure (some (st, clus, true))
      | some (st, false) =>
        let next ← fatGetEntry fs d clus
        if clusterHasNext next then scanChain fs d f guard next clus st
        else pure (some (st, clus, false))

end Scan

/-- Where a directory starts: the root cluster stands for 0. -/
def dirStart (fs : Fat32Instance) (d : Disk) (dirCluster : ℕ) : Io (Option ℕ) :=
  let clus := if dirCluster < 2 then fs.rootCluster else dirCluster
  if clus < 2 then pure none
  else do
    if ← fatChainHasCycle fs d clus then pure none else pure (some clus)

/-- `dir_scan`, with its accesses. -/
def dirScan (fs : Fat32Instance) (d : Disk) (dirCluster : ℕ) (target : CString) :
    Io (Option DirSlot) := do
  match ← dirStart fs d dirCluster with
  | none => pure none
  | some clus =>
    match ← scanChain fs d (dirScanBody fs target) 4096 clus clus ⟨.clear, none, none⟩ with
    | none => pure none
    | some (st, last, _) => pure (some ⟨st.found, st.free, last⟩)

/-- `dir_write_entry_at`: the sector is read, 32 bytes of it are replaced, and it is written. -/
def dirWriteEntryAt (fs : Fat32Instance) (d : Disk) (c : DirCursor) (entry : Entry) :
    Io (Bool × Disk) := do
  touch (.sector c.cluster c.sectorInCluster)
  match fs.readBlocks d (dirCursorSector fs c) with
  | none => pure (false, d)
  | some buf =>
    touch (.sector c.cluster c.sectorInCluster)
    pure (fs.writeBlocks d (dirCursorSector fs c) (buf.setEntry c.offsetInSector entry))

/-! ## The values are those of the functions -/

section Values

variable {fs : Fat32Instance} {d : Disk} {u : Unit}

/-- Touching the buffer returns nothing. -/
@[simp] theorem val_touch (e : Access) : (touch e).val u = () := rfl

/-- The entry read is that of `Table`. -/
@[simp] theorem val_fatGetEntry (c : ℕ) : (fatGetEntry fs d c).val u = Fat32.fatGetEntry fs d c := by
  rw [fatGetEntry, Fat32.fatGetEntry]
  cases fs.readBlocks d (fatSector fs 0 c) with
  | none => rfl
  | some buf => rw [val_bind, val_pure]

/-- The loop over the copies is that of `Table`, copy by copy. -/
theorem val_fatSetEntryFrom (c v n k : ℕ) (d : Disk) :
    (fatSetEntryFrom fs c v n k d).val u = Fat32.fatSetEntryFrom fs c v n k d := by
  induction n generalizing k d with
  | zero => rfl
  | succ n ih =>
    rw [fatSetEntryFrom, Fat32.fatSetEntryFrom]
    cases fs.readBlocks d (fatSector fs k c) with
    | none => rfl
    | some buf =>
      simp only [val_bind]
      cases fs.writeBlocks d (fatSector fs k c) (buf.setFat (fatOffset fs c) v) with
      | mk ok d =>
        cases ok with
        | false => rfl
        | true => exact ih (k + 1) d

/-- The entry is set as in `Table`. -/
@[simp] theorem val_fatSetEntry (c v : ℕ) :
    (fatSetEntry fs d c v).val u = Fat32.fatSetEntry fs d c v :=
  val_fatSetEntryFrom c v fs.fatCount 0 d

/-- The two walkers go the way of `Table`. -/
theorem val_fatChainHasCycleLoop (fuel slow fast : ℕ) :
    (fatChainHasCycleLoop fs d fuel slow fast).val u =
      Fat32.fatChainHasCycleLoop fs d fuel slow fast := by
  induction fuel generalizing slow fast with
  | zero => rfl
  | succ fuel ih =>
    simp only [fatChainHasCycleLoop, Fat32.fatChainHasCycleLoop, val_bind, val_ite,
      val_fatGetEntry, val_pure, ih]

/-- The verdict on a chain is that of `Table`. -/
@[simp] theorem val_fatChainHasCycle (c : ℕ) :
    (fatChainHasCycle fs d c).val u = Fat32.fatChainHasCycle fs d c := by
  simp only [fatChainHasCycle, Fat32.fatChainHasCycle, val_bind, val_ite, val_pure,
    val_fatChainHasCycleLoop]

/-- The scan of one sector finds the first free entry from cluster 2 on. -/
theorem val_fatFindFreeInSector (buf : Block) (sec per n e : ℕ) :
    (fatFindFreeInSector buf sec per n e).val u = (List.range' e n).find? fun e =>
      decide (2 ≤ (sec * per + e) % 2 ^ 32) && decide (buf.u32 (4 * e) % 2 ^ 28 = 0) := by
  induction n generalizing e with
  | zero => rfl
  | succ n ih =>
    rw [fatFindFreeInSector, List.range'_succ, List.find?_cons, val_ite]
    by_cases h2 : (sec * per + e) % 2 ^ 32 < 2
    · rw [if_pos h2, decide_eq_false (by omega), Bool.false_and]
      exact ih (e + 1)
    · rw [if_neg h2, decide_eq_true (by omega), Bool.true_and, val_bind, val_ite]
      by_cases hfree : buf.u32 (4 * e) % 2 ^ 28 = 0
      · rw [if_pos hfree, decide_eq_true hfree]
        rfl
      · rw [if_neg hfree, decide_eq_false hfree]
        exact ih (e + 1)

/-- The scan over the sectors is that of `Table`. -/
theorem val_fatFindFreeClusterFrom (n sec : ℕ) :
    (fatFindFreeClusterFrom fs d n sec).val u = Fat32.fatFindFreeClusterFrom fs d n sec := by
  induction n generalizing sec with
  | zero => rfl
  | succ n ih =>
    rw [fatFindFreeClusterFrom, Fat32.fatFindFreeClusterFrom]
    cases fs.readBlocks d ((fs.reservedSectors + sec) % 2 ^ 32) with
    | none => rfl
    | some buf =>
      simp only [val_bind, val_fatFindFreeInSector, ← List.range_eq_range',
        Fat32.fatFindFreeInSector]
      cases List.find? _ _ with
      | none => exact ih (sec + 1)
      | some e => rfl

/-- The free cluster found is that of `Table`. -/
@[simp] theorem val_fatFindFreeCluster :
    (fatFindFreeCluster fs d).val u = Fat32.fatFindFreeCluster fs d :=
  val_fatFindFreeClusterFrom fs.sectorsPerFat 0

/-- The loop frees what that of `Table` frees. -/
theorem val_fatFreeChainLoop (guard c : ℕ) (d : Disk) :
    (fatFreeChainLoop fs guard c d).val u = Fat32.fatFreeChainLoop fs guard c d := by
  induction guard generalizing c d with
  | zero => rfl
  | succ guard ih =>
    simp only [fatFreeChainLoop, Fat32.fatFreeChainLoop, val_bind, val_ite, val_pure,
      val_fatGetEntry, val_fatSetEntry, ih]

/-- A chain is freed as in `Table`. -/
@[simp] theorem val_fatFreeChain (c : ℕ) :
    (fatFreeChain fs d c).val u = Fat32.fatFreeChain fs d c := by
  simp only [fatFreeChain, Fat32.fatFreeChain, val_bind, val_ite, val_pure, val_fatChainHasCycle,
    val_fatFreeChainLoop]

/-- The rollback is that of `Table`. -/
@[simp] theorem val_freePartial (first : ℕ) :
    (freePartial fs d first).val u = Fat32.freePartial fs d first := by
  simp only [freePartial, Fat32.freePartial, val_bind, val_ite, val_pure, val_fatFreeChain]

/-- The sectors zeroed are those of `Table`, counted from the start of the cluster. -/
@[simp] theorem val_zeroSectors (c n s : ℕ) (d : Disk) : (zeroSectors fs c n s d).val u =
    Fat32.zeroSectors fs n (clusterToSector fs c + s) d := by
  induction n generalizing s d with
  | zero => rfl
  | succ n ih =>
    rw [zeroSectors, Fat32.zeroSectors]
    exact ih (s + 1) _

/-- The first cluster of a chain has nothing to be linked to. -/
@[simp] theorem val_linkPrev (prev c : ℕ) : (linkPrev fs d prev c).val u =
    if prev = 0 then (true, d) else Fat32.fatSetEntry fs d prev c := by
  simp only [linkPrev, val_ite, val_pure, val_fatSetEntry]

/-- The loop allocates what that of `Table` allocates. -/
theorem val_fatAllocChainLoop (n first prev : ℕ) (d : Disk) :
    (fatAllocChainLoop fs n first prev d).val u = Fat32.fatAllocChainLoop fs n first prev d := by
  induction n generalizing first prev d with
  | zero => rfl
  | succ n ih =>
    rw [fatAllocChainLoop, Fat32.fatAllocChainLoop]
    simp only [val_bind, val_ite, val_fatFindFreeCluster, val_pure, val_freePartial,
      val_fatSetEntry]
    split
    · rfl
    · cases Fat32.fatSetEntry fs d (Fat32.fatFindFreeCluster fs d) fat32Eoc with
      | mk ok d₁ =>
        cases ok with
        | false => simp only [val_bind, val_freePartial, val_pure]
        | true =>
          simp only [val_bind, val_linkPrev]
          cases if prev = 0 then (true, d₁)
              else Fat32.fatSetEntry fs d₁ prev (Fat32.fatFindFreeCluster fs d) with
          | mk ok d₂ =>
            cases ok with
            | false => simp only [val_bind, val_freePartial, val_pure, val_fatSetEntry]
            | true => simp only [val_bind, val_zeroSectors, Nat.add_zero, ih]

/-- A chain is allocated as in `Table`. -/
@[simp] theorem val_fatAllocChain (n : ℕ) :
    (fatAllocChain fs d n).val u = Fat32.fatAllocChain fs d n :=
  val_fatAllocChainLoop n 0 0 d

/-- The walk to the offset is that of `Table`. -/
theorem val_skipClusters (n c : ℕ) :
    (skipClusters fs d n c).val u = Fat32.skipClusters fs d n c := by
  induction n generalizing c with
  | zero => rfl
  | succ n ih =>
    simp only [skipClusters, Fat32.skipClusters, val_bind, val_ite, val_pure, val_fatGetEntry, ih]

/-- The bytes read are those of `Table`. -/
theorem val_readChainLoop (fuel need c off : ℕ) :
    (readChainLoop fs d fuel need c off).val u = Fat32.readChainLoop fs d fuel need c off := by
  induction fuel generalizing need c off with
  | zero => rfl
  | succ fuel ih =>
    rw [readChainLoop, Fat32.readChainLoop]
    simp only [val_bind, val_ite, val_pure]
    split
    · rfl
    · cases fs.readBlocks d ((clusterToSector fs c + off / fs.bytesPerSector) % 2 ^ 32) with
      | none => rfl
      | some sbuf =>
        simp only [val_bind, val_ite, val_pure, val_fatGetEntry, ih]
        split <;> rfl

/-- A slice of a chain is read as in `Table`. -/
@[simp] theorem val_readChainData (c offset maxLen : ℕ) :
    (readChainData fs d c offset maxLen).val u = Fat32.readChainData fs d c offset maxLen := by
  rw [readChainData, Fat32.readChainData]
  simp only [val_bind, val_ite, val_pure, val_fatChainHasCycle, val_skipClusters]
  split
  · rfl
  · split
    · rfl
    · cases Fat32.skipClusters fs d (offset / (fs.bytesPerSector * fs.sectorsPerCluster)) c with
      | none => rfl
      | some cluster => exact val_readChainLoop ..

/-- The sectors written are those of `Table`. -/
theorem val_writeChainLoop (fuel : ℕ) (data : List UInt8) (c s : ℕ) (d : Disk) :
    (writeChainLoop fs fuel data c s d).val u = Fat32.writeChainLoop fs fuel data c s d := by
  induction fuel generalizing data c s d with
  | zero => rfl
  | succ fuel ih =>
    rw [writeChainLoop, Fat32.writeChainLoop]
    simp only [val_bind, val_ite, val_pure]
    split
    · rfl
    · split
      · rfl
      · cases fs.writeBlocks d ((clusterToSector fs c + s) % 2 ^ 32)
            (Block.ofList (data.take fs.bytesPerSector)) with
        | mk ok d =>
          cases ok with
          | false => rfl
          | true => simp only [val_bind, val_ite, val_pure, val_fatGetEntry, ih]

/-- Data is written as in `Table`. -/
@[simp] theorem val_writeChainData (c : ℕ) (data : List UInt8) :
    (writeChainData fs d c data).val u = Fat32.writeChainData fs d c data :=
  val_writeChainLoop data.length data c 0 d

section Scan

variable {σ : Type} {f : σ → DirCursor → Block → σ × Bool}

/-- The scan of a cluster is that of `Directory`. -/
theorem val_scanCluster (c n s : ℕ) (st : σ) :
    (scanCluster fs d f c n s st).val u = Fat32.scanCluster fs d f c n s st := by
  induction n generalizing s st with
  | zero => rfl
  | succ n ih =>
    rw [scanCluster, Fat32.scanCluster]
    simp only [val_bind]
    cases fs.readBlocks d ((clusterToSector fs c + s) % 2 ^ 32) with
    | none => rfl
    | some buf =>
      simp only
      cases scanSector f buf c s 16 0 st with
      | mk st stop =>
        cases stop with
        | false => exact ih (s + 1) st
        | true => rfl

/-- The scan of a directory is that of `Directory`. -/
theorem val_scanChain (guard c last : ℕ) (st : σ) :
    (scanChain fs d f guard c last st).val u = Fat32.scanChain fs d f guard c last st := by
  induction guard generalizing c last st with
  | zero => rfl
  | succ guard ih =>
    rw [scanChain, Fat32.scanChain]
    simp only [val_bind, val_ite, val_pure, val_scanCluster]
    split
    · rfl
    · rcases Fat32.scanCluster fs d f c fs.sectorsPerCluster 0 st with _ | ⟨st, _ | _⟩
      · rfl
      · simp only [val_bind, val_ite, val_pure, val_fatGetEntry, ih]
      · rfl

end Scan

/-- A directory starts where it starts in `Directory`. -/
@[simp] theorem val_dirStart (c : ℕ) : (dirStart fs d c).val u = Fat32.dirStart fs d c := by
  simp only [dirStart, Fat32.dirStart, val_bind, val_ite, val_pure, val_fatChainHasCycle]

/-- A name is found where `Directory` finds it. -/
@[simp] theorem val_dirScan (c : ℕ) (target : CString) :
    (dirScan fs d c target).val u = Fat32.dirScan fs d c target := by
  rw [dirScan, Fat32.dirScan]
  simp only [val_bind, val_dirStart]
  cases Fat32.dirStart fs d c with
  | none => rfl
  | some clus =>
    simp only [val_bind, val_scanChain]
    rcases Fat32.scanChain fs d (dirScanBody fs target) 4096 clus clus ⟨.clear, none, none⟩ with
      _ | ⟨st, last, stop⟩ <;> rfl

/-- A record is written as in `Directory`. -/
@[simp] theorem val_dirWriteEntryAt (c : DirCursor) (entry : Entry) :
    (dirWriteEntryAt fs d c entry).val u = Fat32.dirWriteEntryAt fs d c entry := by
  rw [dirWriteEntryAt, Fat32.dirWriteEntryAt]
  simp only [val_bind]
  cases fs.readBlocks d (dirCursorSector fs c) <;> rfl

end Values

end Accesses

end PsychWard.Fat32
