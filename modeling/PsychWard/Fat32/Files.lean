import PsychWard.Fat32.Directory

/-!
# Paths and file operations

The exported operations of `fat32.cpp`. Each resolves its path from the current directory, walks the
parent directory and then edits the disk; a failed step returns `false` with the disk as the writes
before it left it.
-/

namespace PsychWard.Fat32

/-- `0xFFFFFFFF`: no such directory or entry. -/
def notFound : ℕ := 0xFFFFFFFF

/-- The cluster a name in a directory leads to, or `notFound`. -/
def fat32FindInDir (fs : Fat32Instance) (d : Disk) (dirCluster : ℕ) (target : CString) : ℕ :=
  if myStrcmp target [dot, dot] = 0 ∧ (dirCluster = fs.rootCluster ∨ dirCluster = 0) then
    fs.rootCluster
  else
    match dirScan fs d dirCluster target with
    | none => notFound
    | some slot =>
      match slot.found with
      | none => notFound
      | some found => found.clus

/-- Split off the next component of a path (at most 63 bytes) and the slashes behind it. -/
def nextToken (p : CString) : CString × CString :=
  let token := (p.takeWhile (· ≠ slash)).take 63
  (token, (p.drop token.length).dropWhile (· = slash))

/-- The loop of `fat32_resolve_parent`: the rest of the path and the directory reached. -/
def resolveFrom (fs : Fat32Instance) (d : Disk) : ℕ → CString → ℕ → ℕ × CString
  | 0, _, currentClus => (currentClus, [])
  | fuel + 1, p, currentClus =>
    if p = [] then (currentClus, [])
    else
      let token := (nextToken p).1
      let rest := (nextToken p).2
      if rest = [] then (currentClus, token)
      else
        let nextClus := fat32FindInDir fs d currentClus token
        if nextClus = notFound then (notFound, [])
        else resolveFrom fs d fuel rest (if nextClus = 0 then fs.rootCluster else nextClus)

/-- The directory of the last component of a path (or `notFound`), and that component. -/
def fat32ResolveParent (fs : Fat32Instance) (d : Disk) (fullPath : CString) : ℕ × CString :=
  let currentClus := if fs.currentDirCluster = 0 then fs.rootCluster else fs.currentDirCluster
  if fullPath.head? = some slash then
    resolveFrom fs d fullPath.length (fullPath.dropWhile (· = slash)) fs.rootCluster
  else resolveFrom fs d fullPath.length fullPath currentClus

/-- The prologue of the operations: `none` for a path without a parent directory or a name, else
the parent as the path gives it and the name. -/
def resolveTarget (fs : Fat32Instance) (d : Disk) (path : CString) : Option (ℕ × CString) :=
  let r := fat32ResolveParent fs d path
  if r.1 = notFound ∨ r.2 = [] then none else some r

/-- `if (parent_clus == 0) parent_clus = fs->root_cluster;` -/
def orRoot (fs : Fat32Instance) (clus : ℕ) : ℕ := if clus = 0 then fs.rootCluster else clus

/-- Read at most a page of a file from byte `offset` on; `none` is the result `false`. -/
def fat32ReadFile (fs : Fat32Instance) (d : Disk) (filename : CString) (offset : ℕ) :
    Option (List UInt8) :=
  match resolveTarget fs d filename with
  | none => none
  | some (parentClus, basename) =>
    match (dirScan fs d (orRoot fs parentClus) basename).bind DirSlot.found with
    | none => none
    | some found =>
      if found.size ≤ offset then some []
      else
        let copied := readChainData fs d found.clus offset (min (found.size - offset) 4096)
        if copied = [] then none else some copied

/-- The slot for a new entry: the first free one, else the first one of a new cluster. -/
def takeSlot (fs : Fat32Instance) (d : Disk) (slot : DirSlot) : Option (ℕ × ℕ) × Disk :=
  match slot.free with
  | some pos => (some pos, d)
  | none =>
    match dirGrow fs d slot.lastClus with
    | (none, d) => (none, d)
    | (some (sector, _), d) => (some (sector, 0), d)

/-- `touch` -/
def fat32CreateFile (fs : Fat32Instance) (d : Disk) (path : CString) : Bool × Disk :=
  match resolveTarget fs d path with
  | none => (false, d)
  | some (parentClus, basename) =>
    match dirScan fs d (orRoot fs parentClus) basename with
    | none => (false, d)
    | some slot =>
      if slot.found.isSome then (true, d)
      else
        match takeSlot fs d slot with
        | (none, d) => (false, d)
        | (some (sector, offset), d) =>
          match fs.readBlocks d sector with
          | none => (false, d)
          | some buf =>
            fs.writeBlocks d sector
              (buf.setEntry offset (shortEntry (formatFat32Name basename) 0x20 0 0))

/-- The slot `fat32_write_file` stores the entry in: that of the file if it exists. -/
def writeSlot (fs : Fat32Instance) (d : Disk) (slot : DirSlot) : Option (ℕ × ℕ) × Disk :=
  match slot.found with
  | some found => (some (found.sector, found.offset), d)
  | none => takeSlot fs d slot

/-- `need_clusters`, computed in 32 bits. -/
def needClusters (fs : Fat32Instance) (len : ℕ) : ℕ :=
  let bytesPerCluster := fs.bytesPerSector * fs.sectorsPerCluster
  (len + bytesPerCluster - 1) % 2 ^ 32 / bytesPerCluster

/-- The part of `fat32_write_file` behind the choice of the slot: the sector of the entry is kept in
`buf` while the old chain is freed and the new one allocated. -/
def writeEntryAndData (fs : Fat32Instance) (d : Disk) (sector offset oldClus : ℕ) (buf : Block)
    (targetEntry : Entry) (text : List UInt8) : Bool × Disk :=
  let d := if 2 ≤ oldClus then (fatFreeChain fs d oldClus).2 else d
  match if text = [] then (0, d) else fatAllocChain fs d (needClusters fs text.length) with
  | (newClus, d) =>
    if text ≠ [] ∧ newClus = 0 then (false, d)
    else
      match fs.writeBlocks d sector
          (buf.setEntry offset ((targetEntry.setClus newClus).setSize text.length)) with
      | (false, d) => (false, d)
      | (true, d) => if text = [] then (true, d) else writeChainData fs d newClus text

/-- `echo > file`: the file's contents become `text`. -/
def fat32WriteFile (fs : Fat32Instance) (d : Disk) (path : CString) (text : List UInt8) :
    Bool × Disk :=
  match resolveTarget fs d path with
  | none => (false, d)
  | some (parentClus, basename) =>
    match dirScan fs d (orRoot fs parentClus) basename with
    | none => (false, d)
    | some slot =>
      match writeSlot fs d slot with
      | (none, d) => (false, d)
      | (some (sector, offset), d) =>
        match fs.readBlocks d sector with
        | none => (false, d)
        | some buf =>
          match slot.found with
          | some found =>
            writeEntryAndData fs d sector offset found.clus buf (buf.entry offset) text
          | none =>
            writeEntryAndData fs d sector offset 0 buf
              (shortEntry (formatFat32Name basename) 0x20 0 0) text

/-! ## Deletion -/

/-- The locals of the loop of `fat32_delete_file`. -/
structure DeleteState where
  lfnBuf : LfnBuf
  lfnStartIdx : Option ℕ
  /-- where the walk stopped at a matching entry, and that sector's buffer -/
  found : Option (DirCursor × Block)

/-- The body of `fat32_delete_file`. Long-name entries are remembered within one sector only. -/
def deleteBody (target : CString) (st : DeleteState) (c : DirCursor) (buf : Block) :
    DeleteState × Bool :=
  let entry := buf.entry c.offsetInSector
  let lfnStartIdx := if c.offsetInSector = 0 then none else st.lfnStartIdx
  if entry 0 = 0 then ({ st with lfnStartIdx }, true)
  else if entry 0 = deleted then ({ st with lfnBuf := .clear, lfnStartIdx := none }, false)
  else if entry.attr = 0x0F then
    ({ st with
        lfnBuf := st.lfnBuf.store entry
        lfnStartIdx := lfnStartIdx <|> some c.offsetInSector }, false)
  else if entry.attr &&& 0x08 ≠ 0 then
    ({ st with lfnBuf := .clear, lfnStartIdx := none }, false)
  else if entryMatches st.lfnBuf entry target then
    ({ st with lfnStartIdx, found := some (c, buf) }, true)
  else ({ st with lfnBuf := .clear, lfnStartIdx := none }, false)

/-- Mark the slots at offsets `i`, `i + 32`, … (`n` of them) as deleted. -/
def markDeleted (buf : Block) (i : ℕ) : ℕ → Block
  | 0 => buf
  | n + 1 => markDeleted (buf.put i deleted) (i + 32) n

/-- The walk of `fat32_delete_file`: the slot of the entry with the name, its sector's buffer and
the offset from which on entries are to be marked. -/
def deleteSearch (fs : Fat32Instance) (d : Disk) (dirCluster : ℕ) (basename : CString) :
    Option (DirCursor × Block × ℕ) :=
  match dirStart fs d dirCluster with
  | none => none
  | some clus =>
    match scanChain fs d (deleteBody basename) 4096 clus clus ⟨.clear, none, none⟩ with
    | none => none
    | some (st, _, _) =>
      st.found.map fun (c, buf) => (c, buf, st.lfnStartIdx.getD c.offsetInSector)

/-- `rm` -/
def fat32DeleteFile (fs : Fat32Instance) (d : Disk) (path : CString) : Bool × Disk :=
  match resolveTarget fs d path with
  | none => (false, d)
  | some (parentClus, basename) =>
    match deleteSearch fs d (orRoot fs parentClus) basename with
    | none => (false, d)
    | some (c, buf, start) =>
      let i := c.offsetInSector
      let fileClus := (buf.entry i).clus
      match fs.writeBlocks d (dirCursorSector fs c)
          (markDeleted (buf.put i deleted) start ((i - start) / 32)) with
      | (false, d) => (false, d)
      | (true, d) => (true, if 2 ≤ fileClus then (fatFreeChain fs d fileClus).2 else d)

/-! ## Renaming -/

/-- Mark the long-name entries right before offset `32 * n` as deleted. -/
def markLfnBefore (buf : Block) : ℕ → Block
  | 0 => buf
  | n + 1 =>
    let prev := buf.entry (32 * n)
    if prev.attr = 0x0F ∧ prev 0 ≠ deleted then markLfnBefore (buf.put (32 * n) deleted) n else buf

/-- `mv`, within one directory. A new name that needs no long-name entries is stored in place. -/
def fat32RenameFile (fs : Fat32Instance) (d : Disk) (oldPath newPath : CString) : Bool × Disk :=
  match resolveTarget fs d oldPath with
  | none => (false, d)
  | some (oldParentClus, oldBasename) =>
    match resolveTarget fs d newPath with
    | none => (false, d)
    | some (newParentClus, newBasename) =>
      if oldParentClus ≠ newParentClus then (false, d)
      else
        let parentClus := orRoot fs oldParentClus
        match (dirScan fs d parentClus oldBasename).bind DirSlot.found with
        | none => (false, d)
        | some found =>
          match fs.readBlocks d found.sector with
          | none => (false, d)
          | some buf =>
            let entry := buf.entry found.offset
            if nameNeedsLfn newBasename then
              match fs.writeBlocks d found.sector
                  (markLfnBefore (buf.put found.offset deleted) (found.offset / 32)) with
              | (false, d) => (false, d)
              | (true, d) =>
                dirWriteNamedEntry fs d parentClus newBasename found.clus found.size entry.attr
            else
              fs.writeBlocks d found.sector
                (buf.setEntry found.offset (entry.setName (formatFat32Name newBasename)))

/-! ## Directories -/

/-- The first sector of a new directory: the entries `.` and `..`. -/
def newDirSector (newClus parentClus : ℕ) : Block :=
  (Block.zero.setEntry 0 (shortEntry (padBlank 11 [dot]) 0x10 newClus 0)).setEntry 32
    (shortEntry (padBlank 11 [dot, dot]) 0x10 parentClus 0)

/-- `mkdir` -/
def fat32Mkdir (fs : Fat32Instance) (d : Disk) (path : CString) : Bool × Disk :=
  match resolveTarget fs d path with
  | none => (false, d)
  | some (parentClus, basename) =>
    match dirScan fs d (orRoot fs parentClus) basename with
    | none => (false, d)
    | some slot =>
      if slot.found.isSome then (false, d)
      else
        match takeSlot fs d slot with
        | (none, d) => (false, d)
        | (some (sector, offset), d) =>
          match fatAllocChain fs d 1 with
          | (newClus, d) =>
            if newClus = 0 then (false, d)
            else
              match fs.readBlocks d sector with
              | none => (false, (fatFreeChain fs d newClus).2)
              | some buf =>
                match fs.writeBlocks d sector
                    (buf.setEntry offset
                      (shortEntry (formatFat32Name basename) 0x10 newClus 0)) with
                | (false, d) => (false, (fatFreeChain fs d newClus).2)
                | (true, d) =>
                  fs.writeBlocks d (clusterToSector fs newClus) (newDirSector newClus parentClus)

/-- `cd` -/
def fat32Cd (fs : Fat32Instance) (d : Disk) (path : CString) : Bool × Fat32Instance :=
  if myStrcmp path [slash] = 0 then (true, { fs with currentDirCluster := fs.rootCluster })
  else
    let r := fat32ResolveParent fs d path
    if r.1 = notFound then (false, fs)
    else
      let target := fat32FindInDir fs d r.1 r.2
      if target = notFound then (false, fs)
      else (true, { fs with currentDirCluster := orRoot fs target })

end PsychWard.Fat32
