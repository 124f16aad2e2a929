import PsychWard.Fat32.Files

/-!
# Listings and texts

The two operations of `fat32.cpp` that produce text for the shell: `fat32_format_dir_listing` and
`fat32_read_text_file`. Both collect it in a buffer of their own before they hand it over.
-/

namespace PsychWard.Fat32

/-- The bytes of a string literal. -/
def ascii (s : String) : CString := s.toList.map fun c => UInt8.ofNat c.toNat

/-- The locals of the loop of `fat32_format_dir_listing`; the text is what `staging` holds. -/
structure ListingState where
  lfnBuf : LfnBuf
  text : CString
  truncated : Bool

/-- The name shown for an entry: the long name if one was collected, else the short one. -/
def shownName (lfnBuf : LfnBuf) (entry : Entry) : CString :=
  if lfnBuf 0 ≠ 0 then lfnBuf.str else cString (reconstructName entry.name)

/-- The line for an entry. -/
def listingLine (name : CString) (entry : Entry) : CString :=
  if entry.attr &&& 0x10 ≠ 0 then ascii " [DIR] " ++ name ++ ascii "\n"
  else ascii " [FAT] " ++ name ++ ascii " \t(" ++ digits entry.size ++ ascii " bytes)\n"

/-- The body of `fat32_format_dir_listing`; `true` stops the walk. -/
def listingBody (maxLen : ℕ) (st : ListingState) (entry : Entry) : ListingState × Bool :=
  if entry 0 = 0 then (st, true)
  else if entry 0 = deleted then ({ st with lfnBuf := .clear }, false)
  else if entry.attr = 0x0F then ({ st with lfnBuf := st.lfnBuf.store entry }, false)
  else if entry.attr &&& 0x08 ≠ 0 then ({ st with lfnBuf := .clear }, false)
  else
    let name := shownName st.lfnBuf entry
    let st := { st with lfnBuf := if st.lfnBuf 0 ≠ 0 then .clear else st.lfnBuf }
    if name = [] then (st, false)
    -- room for the longest line is kept
    else if maxLen - 300 < st.text.length then ({ st with truncated := true }, true)
    else ({ st with text := st.text ++ listingLine name entry }, false)

/-- The loop over the entries of a sector. -/
def listingSector (maxLen : ℕ) (buf : Block) : ℕ → ℕ → ListingState → ListingState × Bool
  | 0, _, st => (st, false)
  | n + 1, i, st =>
    match listingBody maxLen st (buf.entry i) with
    | (st, true) => (st, true)
    | (st, false) => listingSector maxLen buf n (i + 32) st

/-- The loop over the sectors of a cluster; a failed read ends the listing. -/
def listingCluster (fs : Fat32Instance) (d : Disk) (maxLen clus : ℕ) :
    ℕ → ℕ → ListingState → ListingState × Bool
  | 0, _, st => (st, false)
  | n + 1, s, st =>
    match fs.readBlocks d ((clusterToSector fs clus + s) % 2 ^ 32) with
    | none => (st, true)
    | some buf =>
      match listingSector maxLen buf 16 0 st with
      | (st, true) => (st, true)
      | (st, false) => listingCluster fs d maxLen clus n (s + 1) st

/-- The loop over the clusters of the directory, with what is left of its `guard`. -/
def listingChain (fs : Fat32Instance) (d : Disk) (maxLen : ℕ) :
    ℕ → ℕ → ListingState → ListingState
  | 0, _, st => st
  | guard + 1, clus, st =>
    if clus < 2 then st
    else
      match listingCluster fs d maxLen clus fs.sectorsPerCluster 0 st with
      | (st, true) => st
      | (st, false) =>
        let next := fatGetEntry fs d clus
        if clusterHasNext next then listingChain fs d maxLen guard next st else st

/-- The text of a directory listing; `none` is the result `false`. -/
def fat32FormatDirListing (fs : Fat32Instance) (d : Disk) (dirCluster maxLen : ℕ) :
    Option CString :=
  let clus := if dirCluster < 2 then fs.rootCluster else dirCluster
  if clus < 2 ∨ maxLen < 300 then none
  else if fatChainHasCycle fs d clus then none
  else
    let st := listingChain fs d (min maxLen fat32MaxIoChunk) 4096 clus ⟨.clear, [], false⟩
    some (st.text ++ if st.truncated then ascii "...\n" else [])

/-- `cat`: at most 4000 bytes of a file; `none` is the result `false`. -/
def fat32ReadTextFile (fs : Fat32Instance) (d : Disk) (path : CString) : Option (List UInt8) :=
  match resolveTarget fs d path with
  | none => none
  | some (parentClus, basename) =>
    match (dirScan fs d (orRoot fs parentClus) basename).bind DirSlot.found with
    | none => none
    | some found =>
      if found.size = 0 ∨ found.clus < 2 then some []
      else some (readChainData fs d found.clus 0 (min found.size 4000))

end PsychWard.Fat32
