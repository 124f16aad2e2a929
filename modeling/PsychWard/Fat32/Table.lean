import PsychWard.Fat32.Device

/-!
# The allocation table and cluster chains

The functions of `fat32.cpp` that read and edit the file allocation table and the data of a cluster
chain, as the source computes them: reads go to the first copy of the table, writes to every copy,
and a failed transfer takes the exit the source takes there. Loops run on a counter that is the
source's own bound where it has one (`guard`) and otherwise a bound no run reaches.
-/

namespace PsychWard.Fat32

/-- `FAT32_EOC`: table values from here on end a chain. -/
def fat32Eoc : ℕ := 0x0FFFFFF8

/-- Does a table value name a further data cluster? -/
def clusterHasNext (fatValue : ℕ) : Bool := decide (2 ≤ fatValue) && decide (fatValue < fat32Eoc)

/-- The first sector of a cluster; 0 and 1 stand for the root directory. -/
def clusterToSector (fs : Fat32Instance) (clus : ℕ) : ℕ :=
  let clus := if clus < 2 then fs.rootCluster else clus
  let clus := if clus < 2 then 2 else clus
  (fs.dataStartSector + (clus - 2) * fs.sectorsPerCluster % 2 ^ 32) % 2 ^ 32

/-- The sector of table copy `copy` that holds the entry of `cluster`. -/
def fatSector (fs : Fat32Instance) (copy cluster : ℕ) : ℕ :=
  (fs.reservedSectors + copy * fs.sectorsPerFat % 2 ^ 32
    + cluster * 4 % 2 ^ 32 / fs.bytesPerSector) % 2 ^ 32

/-- The offset of the entry of `cluster` in its sector. -/
def fatOffset (fs : Fat32Instance) (cluster : ℕ) : ℕ :=
  cluster * 4 % 2 ^ 32 % fs.bytesPerSector / 4 * 4

/-- Read the table entry of `cluster`, without its four reserved bits. -/
def fatGetEntry (fs : Fat32Instance) (d : Disk) (cluster : ℕ) : ℕ :=
  match fs.readBlocks d (fatSector fs 0 cluster) with
  | none => fat32Eoc
  | some buf => buf.u32 (fatOffset fs cluster) % 2 ^ 28

/-- `entries[i] = (entries[i] & 0xF0000000) | (value & 0x0FFFFFFF)` -/
def Block.setFat (buf : Block) (offset value : ℕ) : Block :=
  buf.putU32 offset (buf.u32 offset / 2 ^ 28 * 2 ^ 28 + value % 2 ^ 28)

/-- The loop over the copies of the table, from copy `copy` on. -/
def fatSetEntryFrom (fs : Fat32Instance) (cluster value : ℕ) : ℕ → ℕ → Disk → Bool × Disk
  | 0, _, d => (true, d)
  | n + 1, copy, d =>
    match fs.readBlocks d (fatSector fs copy cluster) with
    | none => (false, d)
    | some buf =>
      match fs.writeBlocks d (fatSector fs copy cluster)
          (buf.setFat (fatOffset fs cluster) value) with
      | (false, d) => (false, d)
      | (true, d) => fatSetEntryFrom fs cluster value n (copy + 1) d

/-- Store a table entry in every copy of the table. -/
def fatSetEntry (fs : Fat32Instance) (d : Disk) (cluster value : ℕ) : Bool × Disk :=
  fatSetEntryFrom fs cluster value fs.fatCount 0 d

/-- The rounds of the cycle test; `none` when `fuel` rounds did not decide. -/
def fatChainHasCycleLoop (fs : Fat32Instance) (d : Disk) : ℕ → ℕ → ℕ → Option Bool
  | 0, _, _ => none
  | fuel + 1, slow, fast =>
    let f1 := fatGetEntry fs d fast
    if clusterHasNext f1 then
      let f2 := fatGetEntry fs d f1
      if clusterHasNext f2 then
        let slow := fatGetEntry fs d slow
        if slow = f2 then some true else fatChainHasCycleLoop fs d fuel slow f2
      else some false
    else some false

/-- Is the chain from `startCluster` cyclic? A table value has 28 bits, so the source's loop without
a bound meets within `2 ^ 28` rounds or never. -/
def fatChainHasCycle (fs : Fat32Instance) (d : Disk) (startCluster : ℕ) : Bool :=
  if startCluster < 2 then false
  else (fatChainHasCycleLoop fs d (2 ^ 28 + 1) startCluster startCluster).getD true

/-- The free entry of smallest index in one sector of the table. -/
def fatFindFreeInSector (buf : Block) (sec entriesPerSector : ℕ) : Option ℕ :=
  (List.range entriesPerSector).find? fun e =>
    decide (2 ≤ (sec * entriesPerSector + e) % 2 ^ 32) && decide (buf.u32 (4 * e) % 2 ^ 28 = 0)

/-- The search from table sector `sec` on. -/
def fatFindFreeClusterFrom (fs : Fat32Instance) (d : Disk) : ℕ → ℕ → ℕ
  | 0, _ => 0
  | n + 1, sec =>
    match fs.readBlocks d ((fs.reservedSectors + sec) % 2 ^ 32) with
    | none => 0
    | some buf =>
      match fatFindFreeInSector buf sec (fs.bytesPerSector / 4) with
      | some e => (sec * (fs.bytesPerSector / 4) + e) % 2 ^ 32
      | none => fatFindFreeClusterFrom fs d n (sec + 1)

/-- The first free cluster, or 0 when the disk is full. -/
def fatFindFreeCluster (fs : Fat32Instance) (d : Disk) : ℕ :=
  fatFindFreeClusterFrom fs d fs.sectorsPerFat 0

/-- The loop of `fat_free_chain`; the first argument is what is left of its `guard`. -/
def fatFreeChainLoop (fs : Fat32Instance) : ℕ → ℕ → Disk → Disk
  | 0, _, d => d
  | guard + 1, cluster, d =>
    if cluster < 2 then d
    else
      let next := fatGetEntry fs d cluster
      let d := (fatSetEntry fs d cluster 0).2
      if clusterHasNext next then fatFreeChainLoop fs guard next d else d

/-- Free every cluster of a chain; a cyclic chain is left alone. -/
def fatFreeChain (fs : Fat32Instance) (d : Disk) (startCluster : ℕ) : Bool × Disk :=
  if fatChainHasCycle fs d startCluster then (false, d)
  else (true, fatFreeChainLoop fs 65536 startCluster d)

/-- Write zeros to `n` sectors; the results of the transfers are not looked at. -/
def zeroSectors (fs : Fat32Instance) : ℕ → ℕ → Disk → Disk
  | 0, _, d => d
  | n + 1, sec, d => zeroSectors fs n (sec + 1) (fs.writeBlocks d (sec % 2 ^ 32) Block.zero).2

/-- `if (first != 0) fat_free_chain(fs, first);` -/
def freePartial (fs : Fat32Instance) (d : Disk) (first : ℕ) : Disk :=
  if first = 0 then d else (fatFreeChain fs d first).2

/-- The loop of `fat_alloc_chain`: clusters still to allocate, `first`, `prev`. -/
def fatAllocChainLoop (fs : Fat32Instance) : ℕ → ℕ → ℕ → Disk → ℕ × Disk
  | 0, first, _, d => (first, d)
  | n + 1, first, prev, d =>
    let c := fatFindFreeCluster fs d
    if c = 0 then (0, freePartial fs d first)
    else
      match fatSetEntry fs d c fat32Eoc with
      | (false, d) => (0, freePartial fs d first)
      | (true, d) =>
        match if prev = 0 then (true, d) else fatSetEntry fs d prev c with
        | (false, d) => (0, freePartial fs (fatSetEntry fs d c 0).2 first)
        | (true, d) =>
          fatAllocChainLoop fs n (if first = 0 then c else first) c
            (zeroSectors fs fs.sectorsPerCluster (clusterToSector fs c) d)

/-- Allocate and link a chain of zeroed clusters: its first cluster, or 0 when there is no room. -/
def fatAllocChain (fs : Fat32Instance) (d : Disk) (numClusters : ℕ) : ℕ × Disk :=
  fatAllocChainLoop fs numClusters 0 0 d

/-- `FAT32_MAX_IO_CHUNK` -/
def fat32MaxIoChunk : ℕ := 4096

/-- Follow `n` links of a chain; `none` when it ends before. -/
def skipClusters (fs : Fat32Instance) (d : Disk) : ℕ → ℕ → Option ℕ
  | 0, cluster => some cluster
  | n + 1, cluster =>
    if cluster < 2 then none
    else if clusterHasNext (fatGetEntry fs d cluster) then
      skipClusters fs d n (fatGetEntry fs d cluster)
    else none

/-- `n` bytes of a sector from offset `i` on. -/
def Block.bytes (b : Block) (i n : ℕ) : List UInt8 := (List.range n).map fun k => b.get (i + k)

/-- The copying loop of `read_chain_data`: bytes still wanted, cluster, offset in the cluster. A round
copies at least one byte. -/
def readChainLoop (fs : Fat32Instance) (d : Disk) : ℕ → ℕ → ℕ → ℕ → List UInt8
  | 0, _, _, _ => []
  | fuel + 1, need, cluster, offsetInCluster =>
    if need = 0 ∨ cluster < 2 then []
    else
      match fs.readBlocks d
          ((clusterToSector fs cluster + offsetInCluster / fs.bytesPerSector) % 2 ^ 32) with
      | none => []
      | some sbuf =>
        let byteInSector := offsetInCluster % fs.bytesPerSector
        let take := min need (fs.bytesPerSector - byteInSector)
        let offsetInCluster := offsetInCluster + take
        sbuf.bytes byteInSector take ++
          if fs.bytesPerSector * fs.sectorsPerCluster ≤ offsetInCluster then
            let next := fatGetEntry fs d cluster
            readChainLoop fs d fuel (need - take) (if clusterHasNext next then next else 0) 0
          else readChainLoop fs d fuel (need - take) cluster offsetInCluster

/-- Up to `maxLen` bytes of a chain from byte `offset` on. -/
def readChainData (fs : Fat32Instance) (d : Disk) (startCluster offset maxLen : ℕ) : List UInt8 :=
  let bytesPerCluster := fs.bytesPerSector * fs.sectorsPerCluster
  if bytesPerCluster = 0 ∨ startCluster < 2 then []
  else if fatChainHasCycle fs d startCluster then []
  else
    match skipClusters fs d (offset / bytesPerCluster) startCluster with
    | none => []
    | some cluster =>
      readChainLoop fs d (min maxLen fat32MaxIoChunk) (min maxLen fat32MaxIoChunk) cluster
        (offset % bytesPerCluster)

/-- The loop of `write_chain_data`: rounds, data still to write, cluster, sector in the cluster. A
round writes at least one byte; a last short sector is filled up with zeros. -/
def writeChainLoop (fs : Fat32Instance) : ℕ → List UInt8 → ℕ → ℕ → Disk → Bool × Disk
  | 0, _, _, _, d => (true, d)
  | fuel + 1, data, cluster, sectorInCluster, d =>
    if data = [] then (true, d)
    else if cluster < 2 then (false, d)
    else
      match fs.writeBlocks d ((clusterToSector fs cluster + sectorInCluster) % 2 ^ 32)
          (Block.ofList (data.take fs.bytesPerSector)) with
      | (false, d) => (false, d)
      | (true, d) =>
        let rest := data.drop fs.bytesPerSector
        if fs.sectorsPerCluster ≤ sectorInCluster + 1 then
          if rest = [] then (true, d)
          else if clusterHasNext (fatGetEntry fs d cluster) then
            writeChainLoop fs fuel rest (fatGetEntry fs d cluster) 0 d
          else (false, d)
        else writeChainLoop fs fuel rest cluster (sectorInCluster + 1) d

/-- Write `data` to a chain that was allocated long enough. -/
def writeChainData (fs : Fat32Instance) (d : Disk) (firstCluster : ℕ) (data : List UInt8) :
    Bool × Disk :=
  writeChainLoop fs data.length data firstCluster 0 d

end PsychWard.Fat32
