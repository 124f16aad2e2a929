import PsychWard.Fat32.Table
import PsychWard.Fat32.Names

/-!
# Directory walks and directory entries

Every directory operation of `fat32.cpp` has the same three nested loops: over the clusters of the
directory's chain (at most 4096 of them, `guard`), over the sectors of a cluster, over the sixteen
entries of a sector. `scanChain` is that loop nest with its body as a parameter; the search, the
alias test, the search for a run of free slots and the deletion are instances of it.
-/

namespace PsychWard.Fat32

/-- `struct DirCursor`: a 32-byte slot of a directory. -/
structure DirCursor where
  cluster : ℕ
  sectorInCluster : ℕ
  offsetInSector : ℕ
  deriving DecidableEq

/-- The sector a cursor points into. -/
def dirCursorSector (fs : Fat32Instance) (c : DirCursor) : ℕ :=
  (clusterToSector fs c.cluster + c.sectorInCluster) % 2 ^ 32

section Scan

variable {σ : Type*}

/-- The loop over the slots of a sector. The body `f` gets the sector's buffer and says with `true`
that the whole walk stops. -/
def scanSector (f : σ → DirCursor → Block → σ × Bool) (buf : Block) (clus s : ℕ) :
    ℕ → ℕ → σ → σ × Bool
  | 0, _, st => (st, false)
  | n + 1, i, st =>
    match f st ⟨clus, s, i⟩ buf with
    | (st, true) => (st, true)
    | (st, false) => scanSector f buf clus s n (i + 32) st

/-- The loop over the sectors of a cluster; `none` when a read fails. -/
def scanCluster (fs : Fat32Instance) (d : Disk) (f : σ → DirCursor → Block → σ × Bool) (clus : ℕ) :
    ℕ → ℕ → σ → Option (σ × Bool)
  | 0, _, st => some (st, false)
  | n + 1, s, st =>
    match fs.readBlocks d ((clusterToSector fs clus + s) % 2 ^ 32) with
    | none => none
    | some buf =>
      match scanSector f buf clus s 16 0 st with
      | (st, true) => some (st, true)
      | (st, false) => scanCluster fs d f clus n (s + 1) st

/-- The loop over the clusters of the chain, with what is left of its `guard`: the last state, the
last cluster looked at and whether the body stopped the walk. -/
def scanChain (fs : Fat32Instance) (d : Disk) (f : σ → DirCursor → Block → σ × Bool) :
    ℕ → ℕ → ℕ → σ → Option (σ × ℕ × Bool)
  | 0, _, last, st => some (st, last, false)
  | guard + 1, clus, last, st =>
    if clus < 2 then some (st, last, false)
    else
      match scanCluster fs d f clus fs.sectorsPerCluster 0 st with
      | none => none
      | some (st, true) => some (st, clus, true)
      | some (st, false) =>
        let next := fatGetEntry fs d clus
        if clusterHasNext next then scanChain fs d f guard next clus st
        else some (st, clus, false)

end Scan

/-- The cluster a walk over a directory starts from, after the checks every walk begins with. -/
def dirStart (fs : Fat32Instance) (d : Disk) (dirCluster : ℕ) : Option ℕ :=
  let clus := if dirCluster < 2 then fs.rootCluster else dirCluster
  if clus < 2 then none else if fatChainHasCycle fs d clus then none else some clus

/-! ## Looking up a name -/

/-- What `DirSlot` holds when `found` is set. -/
structure FoundEntry where
  sector : ℕ
  offset : ℕ
  clus : ℕ
  size : ℕ
  deriving DecidableEq

/-- `struct DirSlot` -/
structure DirSlot where
  found : Option FoundEntry
  /-- `free_sector` and `free_offset`, when `has_free` is set -/
  free : Option (ℕ × ℕ)
  lastClus : ℕ

/-- The locals of the loop of `dir_scan`. -/
structure ScanState where
  lfnBuf : LfnBuf
  free : Option (ℕ × ℕ)
  found : Option FoundEntry

/-- The bytes of an array before its first zero. -/
def cString (l : List UInt8) : CString := l.takeWhile (· ≠ 0)

/-- Does an entry carry the name: by its long name if one was collected, else by its short name? -/
def entryMatches (lfnBuf : LfnBuf) (entry : Entry) (target : CString) : Bool :=
  if lfnBuf 0 ≠ 0 then decide (myStrcasecmp lfnBuf.str target = 0)
  else decide (myStrcmp (cString entry.name) (formatFat32Name target) = 0)

/-- The body of `dir_scan`. -/
def dirScanBody (fs : Fat32Instance) (target : CString) (st : ScanState) (c : DirCursor)
    (buf : Block) : ScanState × Bool :=
  let entry := buf.entry c.offsetInSector
  if entry 0 = 0 ∨ entry 0 = deleted then
    let free := st.free <|> some (dirCursorSector fs c, c.offsetInSector)
    if entry 0 = 0 then ({ st with free }, true)
    else ({ st with free, lfnBuf := .clear }, false)
  else if entry.attr = 0x0F then ({ st with lfnBuf := st.lfnBuf.store entry }, false)
  else if entry.attr &&& 0x08 ≠ 0 then ({ st with lfnBuf := .clear }, false)
  else if entryMatches st.lfnBuf entry target then
    ({ st with
        lfnBuf := .clear
        found := some ⟨dirCursorSector fs c, c.offsetInSector, entry.clus, entry.size⟩ }, true)
  -- the buffer is cleared together with the comparison against it
  else ({ st with lfnBuf := if st.lfnBuf 0 ≠ 0 then .clear else st.lfnBuf }, false)

/-- Search a directory for a name, and for the first free slot on the way. -/
def dirScan (fs : Fat32Instance) (d : Disk) (dirCluster : ℕ) (target : CString) : Option DirSlot :=
  match dirStart fs d dirCluster with
  | none => none
  | some clus =>
    match scanChain fs d (dirScanBody fs target) 4096 clus clus ⟨.clear, none, none⟩ with
    | none => none
    | some (st, last, _) => some ⟨st.found, st.free, last⟩

/-- Append a zeroed cluster to a directory: its first sector and its number. -/
def dirGrow (fs : Fat32Instance) (d : Disk) (lastClus : ℕ) : Option (ℕ × ℕ) × Disk :=
  match fatAllocChain fs d 1 with
  | (newClus, d) =>
    if newClus = 0 then (none, d)
    else
      match fatSetEntry fs d lastClus newClus with
      | (false, d) => (none, (fatFreeChain fs d newClus).2)
      | (true, d) => (some (clusterToSector fs newClus, newClus), d)

/-! ## Runs of slots for a long name -/

/-- The next slot, across sector and cluster borders; `none` at the end of the chain. -/
def dirCursorAdvance (fs : Fat32Instance) (d : Disk) (c : DirCursor) : Option DirCursor :=
  if c.offsetInSector + 32 < 512 then some { c with offsetInSector := c.offsetInSector + 32 }
  else if c.sectorInCluster + 1 < fs.sectorsPerCluster then
    some { c with sectorInCluster := c.sectorInCluster + 1, offsetInSector := 0 }
  else
    let next := fatGetEntry fs d c.cluster
    if clusterHasNext next then some ⟨next, 0, 0⟩ else none

/-- Store an entry in the slot under a cursor. -/
def dirWriteEntryAt (fs : Fat32Instance) (d : Disk) (c : DirCursor) (entry : Entry) : Bool × Disk :=
  match fs.readBlocks d (dirCursorSector fs c) with
  | none => (false, d)
  | some buf => fs.writeBlocks d (dirCursorSector fs c) (buf.setEntry c.offsetInSector entry)

/-- The locals of the loop of `dir_find_or_grow_run`. -/
structure RunState where
  runLen : ℕ
  runStart : DirCursor
  pastEnd : Bool

/-- The body of `dir_find_or_grow_run`: count free slots in a row. -/
def findRunBody (slotsNeeded : ℕ) (st : RunState) (c : DirCursor) (buf : Block) : RunState × Bool :=
  let entry := buf.entry c.offsetInSector
  let pastEnd := st.pastEnd || decide (entry 0 = 0)
  if pastEnd || decide (entry 0 = deleted) then
    (⟨st.runLen + 1, if st.runLen = 0 then c else st.runStart, pastEnd⟩,
      decide (slotsNeeded ≤ st.runLen + 1))
  else (⟨0, st.runStart, pastEnd⟩, false)

/-- The walk of `dir_find_or_grow_run`; `true` when it found enough free slots in a row. -/
def findRun (fs : Fat32Instance) (d : Disk) (dirCluster slotsNeeded : ℕ) :
    Option (RunState × ℕ × Bool) :=
  match dirStart fs d dirCluster with
  | none => none
  | some clus => scanChain fs d (findRunBody slotsNeeded) 4096 clus clus ⟨0, ⟨0, 0, 0⟩, false⟩

/-- The start of `slotsNeeded` free slots in a row; without one the directory grows by a cluster. -/
def dirFindOrGrowRun (fs : Fat32Instance) (d : Disk) (dirCluster slotsNeeded : ℕ) :
    Option DirCursor × Disk :=
  match findRun fs d dirCluster slotsNeeded with
  | none => (none, d)
  | some (st, _, true) => (some st.runStart, d)
  | some (st, last, false) =>
    match dirGrow fs d last with
    | (none, d) => (none, d)
    | (some (_, newClus), d) => (some (if st.runLen = 0 then ⟨newClus, 0, 0⟩ else st.runStart), d)

/-- The body of `dir_has_raw_83`. -/
def hasRaw83Body (raw11 : List UInt8) (_ : Bool) (c : DirCursor) (buf : Block) : Bool × Bool :=
  let entry := buf.entry c.offsetInSector
  if entry 0 = 0 then (false, true)
  else if entry 0 = deleted ∨ entry.attr = 0x0F then (false, false)
  else if entry.name = raw11 then (true, true)
  else (false, false)

/-- Is a short name taken? A directory that cannot be walked counts as full of it. -/
def dirHasRaw83 (fs : Fat32Instance) (d : Disk) (dirCluster : ℕ) (raw11 : List UInt8) : Bool :=
  match dirStart fs d dirCluster with
  | none => true
  | some clus =>
    match scanChain fs d (hasRaw83Body raw11) 4096 clus clus false with
    | none => false
    | some (st, _, _) => st

/-- The search of `generate_short_alias` from number `suffix` on. -/
def generateShortAliasFrom (fs : Fat32Instance) (d : Disk) (dirCluster : ℕ) (name : CString) :
    ℕ → ℕ → Option (List UInt8)
  | 0, _ => none
  | n + 1, suffix =>
    match aliasCandidate name suffix with
    | none => none
    | some candidate =>
      if dirHasRaw83 fs d dirCluster candidate then
        generateShortAliasFrom fs d dirCluster name n (suffix + 1)
      else some candidate

/-- A short name for a long one that the directory does not have yet. -/
def generateShortAlias (fs : Fat32Instance) (d : Disk) (dirCluster : ℕ) (name : CString) :
    Option (List UInt8) :=
  generateShortAliasFrom fs d dirCluster name 999999 1

/-- The loop that writes the long-name entries, the one with the highest number first. -/
def writeLfnEntries (fs : Fat32Instance) (basename : CString) (checksum : UInt8) (count : ℕ) :
    ℕ → DirCursor → Disk → Option DirCursor × Disk
  | 0, c, d => (some c, d)
  | seq + 1, c, d =>
    match dirWriteEntryAt fs d c (lfnEntry basename checksum count (seq + 1)) with
    | (false, d) => (none, d)
    | (true, d) =>
      match dirCursorAdvance fs d c with
      | none => (none, d)
      | some c => writeLfnEntries fs basename checksum count seq c d

/-- A fresh short entry. -/
def shortEntry (name : List UInt8) (attr : UInt8) (clus size : ℕ) : Entry :=
  (((Entry.zero.setName name).setByte 11 attr).setClus clus).setSize size

/-- Write the entries of a name, long-name entries included. -/
def dirWriteNamedEntry (fs : Fat32Instance) (d : Disk) (dirCluster : ℕ) (basename : CString)
    (fileClus fileSize : ℕ) (attr : UInt8) : Bool × Disk :=
  let needLfn := nameNeedsLfn basename
  match if needLfn then generateShortAlias fs d dirCluster basename
      else some (formatFat32Name basename) with
  | none => (false, d)
  | some shortName =>
    let lfnCount := if needLfn then (basename.length + 12) / 13 else 0
    let slotsNeeded := lfnCount + 1
    if 21 < slotsNeeded then (false, d)
    else
      match dirFindOrGrowRun fs d dirCluster slotsNeeded with
      | (none, d) => (false, d)
      | (some cur, d) =>
        match writeLfnEntries fs basename (lfnChecksum shortName) lfnCount lfnCount cur d with
        | (none, d) => (false, d)
        | (some cur, d) => dirWriteEntryAt fs d cur (shortEntry shortName attr fileClus fileSize)

end PsychWard.Fat32
