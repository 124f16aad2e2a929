import PsychWard.Fat32.Copies
import PsychWard.Fat32.EntrySpec
import PsychWard.Fat32.Listing
import PsychWard.Fat32.WalkSpec
import Mathlib.Data.List.GetD
import Mathlib.Data.List.TakeWhile

/-!
# The text of a listing

`Listing` describes `fat32_format_dir_listing` by the text it produces. Here are the bytes: the text
is put together with `my_strcpy` in a static buffer of 4096 bytes, `staging`, and the part up to the
terminator is copied to the caller. A line is at most 289 bytes long, so the 300 bytes that are kept
in reserve are enough for a line, the mark `...` and the terminator (`Shows.inside`).

The terminator comes with the lines: a listing without any line copies the first byte of `staging`
as an earlier listing has left it. And the mark is written when the room runs out, but not when the
walk ends early for another reason, after 4096 clusters or at a sector that cannot be read. Apart from
these two cases the text is what it should be, and `listsDirectory_iff` says so.
-/

namespace PsychWard.Fat32

namespace Staged

/-- The locals of the loop of `fat32_format_dir_listing`, with the static buffer. -/
structure State where
  lfnBuf : LfnBuf
  staging : ℕ → UInt8
  /-- the start and the length of every write to `staging`, latest first -/
  writes : List (ℕ × ℕ)
  offset : ℕ
  truncated : Bool

/-- `my_strcpy(staging + offset, src); offset += my_strlen(src);` -/
def State.append (st : State) (src : CString) : State :=
  { st with
    staging := fun i =>
      if st.offset ≤ i ∧ i ≤ st.offset + src.length then src.getD (i - st.offset) 0 else st.staging i
    writes := (st.offset, src.length + 1) :: st.writes
    offset := st.offset + src.length }

/-- The body of the loop over the entries; `true` stops the walk. -/
def listingBody (maxLen : ℕ) (st : State) (entry : Entry) : State × Bool :=
  if entry 0 = 0 then (st, true)
  else if entry 0 = deleted then ({ st with lfnBuf := .clear }, false)
  else if entry.attr = 0x0F then ({ st with lfnBuf := st.lfnBuf.store entry }, false)
  else if entry.attr &&& 0x08 ≠ 0 then ({ st with lfnBuf := .clear }, false)
  else
    let finalName := shownName st.lfnBuf entry
    let st := { st with lfnBuf := if st.lfnBuf 0 ≠ 0 then .clear else st.lfnBuf }
    if finalName = [] then (st, false)
    else if maxLen - 300 < st.offset then ({ st with truncated := true }, true)
    else
      let isDir := entry.attr &&& 0x10 ≠ 0
      let st := (st.append (if isDir then ascii " [DIR] " else ascii " [FAT] ")).append finalName
      let st := if isDir then st
        else ((st.append (ascii " \t(")).append (digits entry.size)).append (ascii " bytes)")
      (st.append (ascii "\n"), false)

/-- The loop over the entries of a sector. -/
def listingSector (maxLen : ℕ) (buf : Block) : ℕ → ℕ → State → State × Bool
  | 0, _, st => (st, false)
  | n + 1, i, st =>
    match listingBody maxLen st (buf.entry i) with
    | (st, true) => (st, true)
    | (st, false) => listingSector maxLen buf n (i + 32) st

/-- The loop over the sectors of a cluster; a failed read ends the listing. -/
def listingCluster (fs : Fat32Instance) (d : Disk) (maxLen clus : ℕ) :
    ℕ → ℕ → State → State × Bool
  | 0, _, st => (st, false)
  | n + 1, s, st =>
    match fs.readBlocks d ((clusterToSector fs clus + s) % 2 ^ 32) with
    | none => (st, true)
    | some buf =>
      match listingSector maxLen buf 16 0 st with
      | (st, true) => (st, true)
      | (st, false) => listingCluster fs d maxLen clus n (s + 1) st

/-- The loop over the clusters of the directory, with what is left of its `guard`. -/
def listingChain (fs : Fat32Instance) (d : Disk) (maxLen : ℕ) : ℕ → ℕ → State → State
  | 0, _, st => st
  | guard + 1, clus, st =>
    if clus < 2 then st
    else
      match listingCluster fs d maxLen clus fs.sectorsPerCluster 0 st with
      | (st, true) => st
      | (st, false) =>
        let next := fatGetEntry fs d clus
        if clusterHasNext next then listingChain fs d maxLen guard next st else st

/-- The result of a call, the caller's buffer and the static one behind it, and the writes to the
latter. -/
structure Result where
  ok : Bool
  outBuffer : ℕ → UInt8
  staging : ℕ → UInt8
  writes : List (ℕ × ℕ)

/-- `fat32_format_dir_listing` on the contents of its two buffers. -/
def fat32FormatDirListing (fs : Fat32Instance) (d : Disk) (dirCluster maxLen : ℕ)
    (staging outBuffer : ℕ → UInt8) : Result :=
  let clus := if dirCluster < 2 then fs.rootCluster else dirCluster
  let outBuffer := Function.update outBuffer 0 0
  if clus < 2 ∨ maxLen < 300 then ⟨false, outBuffer, staging, []⟩
  else if fatChainHasCycle fs d clus then ⟨false, outBuffer, staging, []⟩
  else
    let st := listingChain fs d (min maxLen fat32MaxIoChunk) 4096 clus ⟨.clear, staging, [], 0, false⟩
    let st := if st.truncated then st.append (ascii "...\n") else st
    ⟨true, fun i => if i < st.offset + 1 then st.staging i else outBuffer i, st.staging, st.writes⟩

/-! ## The buffer holds the text -/

/-- The buffer of `st`, which was `old` at first, shows the text of `t` and is written below `limit`
only. -/
structure Shows (limit : ℕ) (old : ℕ → UInt8) (t : ListingState) (st : State) : Prop where
  lfnBuf : st.lfnBuf = t.lfnBuf
  truncated : st.truncated = t.truncated
  offset : st.offset = t.text.length
  bytes : ∀ i < t.text.length, st.staging i = t.text.getD i 0
  terminated : t.text ≠ [] → st.staging t.text.length = 0
  untouched : t.text = [] → st.staging = old
  inside : ∀ w ∈ st.writes, w.1 + w.2 ≤ limit

/-- A name that is shown has at most 261 characters. -/
theorem length_shownName_le (buf : LfnBuf) (e : Entry) : (shownName buf e).length ≤ 261 := by
  rw [shownName]
  split
  · have h : ((List.range 261).map (buf ·)).length = 261 := by
      rw [List.length_map, List.length_range]
    exact (List.takeWhile_sublist _).length_le.trans h.le
  · have h1 : (e.name.take 8).length ≤ 8 := List.length_take_le _ _
    have h2 : (e.name.drop 8).length ≤ 3 := by
      rw [List.length_drop, Entry.name, List.length_take]
      omega
    have h3 := (List.takeWhile_sublist (p := (· ≠ blank)) (l := e.name.take 8)).length_le
    have h4 := (List.takeWhile_sublist (p := (· ≠ blank)) (l := e.name.drop 8)).length_le
    have h5 := (List.takeWhile_sublist (p := (· ≠ 0)) (l := reconstructName e.name)).length_le
    have h6 : (reconstructName e.name).length ≤ 12 := by
      rw [reconstructName, List.length_append]
      split
      · rw [List.length_cons]
        omega
      · rw [List.length_nil]
        omega
    unfold cString
    omega

/-- The parts of the line for an entry, as they are appended. -/
def lineParts (name : CString) (e : Entry) : List CString :=
  if e.attr &&& 0x10 ≠ 0 then [ascii " [DIR] ", name, ascii "\n"]
  else [ascii " [FAT] ", name, ascii " \t(", digits e.size, ascii " bytes)", ascii "\n"]

theorem flatten_lineParts (name : CString) (e : Entry) :
    (lineParts name e).flatten = listingLine name e := by
  have hlast : ascii " bytes)\n" = ascii " bytes)" ++ ascii "\n" := by decide
  rw [lineParts, listingLine]
  split
  · simp
  · simp [hlast]

theorem digits_ne_nil (n : ℕ) : digits n ≠ [] := by
  simp [digits]

theorem ne_nil_of_mem_lineParts {name : CString} (hname : name ≠ []) {e : Entry} :
    ∀ s ∈ lineParts name e, s ≠ [] := by
  intro s hs
  rw [lineParts] at hs
  split at hs
  · simp only [List.mem_cons, List.not_mem_nil, or_false] at hs
    rcases hs with rfl | rfl | rfl
    · decide
    · exact hname
    · decide
  · simp only [List.mem_cons, List.not_mem_nil, or_false] at hs
    rcases hs with rfl | rfl | rfl | rfl | rfl | rfl
    · decide
    · exact hname
    · decide
    · exact digits_ne_nil _
    · decide
    · decide

/-- A line with the longest name and the largest size. -/
theorem length_listingLine_le {name : CString} (hname : name.length ≤ 261) (e : Entry) :
    (listingLine name e).length ≤ 289 := by
  have hsize : (digits e.size).length ≤ 10 := by
    rw [digits, List.length_map, Nat.length_toDigits_le_iff (by decide) (by decide), Entry.size]
    have h0 := (e 28).toNat_lt
    have h1 := (e 29).toNat_lt
    have h2 := (e 30).toNat_lt
    have h3 := (e 31).toNat_lt
    omega
  have hdir : (ascii " [DIR] ").length = 7 := by decide
  have hfat : (ascii " [FAT] ").length = 7 := by decide
  have hparen : (ascii " \t(").length = 3 := by decide
  have hbytes : (ascii " bytes)\n").length = 8 := by decide
  have hnewline : (ascii "\n").length = 1 := by decide
  rw [listingLine]
  split
  · simp only [List.length_append]
    omega
  · simp only [List.length_append]
    omega

namespace Shows

variable {limit : ℕ} {old : ℕ → UInt8} {t : ListingState} {st : State}

/-- A string is appended to the text, and its terminator is written behind it. -/
theorem append (h : Shows limit old t st) {s : CString} (hs : s ≠ [])
    (hroom : t.text.length + s.length + 1 ≤ limit) :
    Shows limit old { t with text := t.text ++ s } (st.append s) where
  lfnBuf := h.lfnBuf
  truncated := h.truncated
  offset := by
    rw [List.length_append, ← h.offset]
    rfl
  bytes := by
    intro i hi
    simp only [State.append, h.offset]
    rw [List.length_append] at hi
    by_cases hlt : i < t.text.length
    · rw [if_neg (by omega), List.getD_append _ _ _ _ hlt]
      exact h.bytes i hlt
    · rw [if_pos (by omega), List.getD_append_right _ _ _ _ (by omega)]
  terminated := by
    intro _
    simp only [State.append, h.offset]
    rw [List.length_append, if_pos (by omega), List.getD_eq_default _ _ (by omega)]
  untouched := fun hnil => absurd (List.append_eq_nil_iff.mp hnil).2 hs
  inside := by
    intro w hw
    rcases List.mem_cons.mp hw with rfl | hw
    · rw [h.offset]
      omega
    · exact h.inside w hw

theorem appendAll {parts : List CString} (hne : ∀ s ∈ parts, s ≠ []) {t : ListingState} {st : State}
    (h : Shows limit old t st) (hroom : t.text.length + parts.flatten.length + 1 ≤ limit) :
    Shows limit old { t with text := t.text ++ parts.flatten } (parts.foldl State.append st) := by
  induction parts generalizing t st with
  | nil => simpa using h
  | cons s parts ih =>
    rw [List.flatten_cons, List.length_append] at hroom
    have hs := h.append (hne s List.mem_cons_self) (by omega)
    have hrest := ih (fun x hx => hne x (List.mem_cons_of_mem _ hx)) hs (by
      rw [List.length_append]
      omega)
    rwa [List.append_assoc] at hrest

end Shows

/-- The state of the buffer while the walk goes on: room for the mark is left. -/
def Collects (limit : ℕ) (old : ℕ → UInt8) (r : ListingState × Bool) (r' : State × Bool) : Prop :=
  r'.2 = r.2 ∧ Shows limit old r.1 r'.1 ∧ r.1.text.length + 5 ≤ limit

theorem collects_body {limit : ℕ} {old : ℕ → UInt8} (hlimit : 300 ≤ limit) {t : ListingState}
    {st : State} (h : Shows limit old t st) (hroom : t.text.length + 5 ≤ limit) (e : Entry) :
    Collects limit old (Fat32.listingBody limit t e) (listingBody limit st e) := by
  have hbuf : ∀ buf : LfnBuf, Shows limit old { t with lfnBuf := buf } { st with lfnBuf := buf } :=
    fun buf => { h with lfnBuf := rfl }
  rw [Fat32.listingBody, listingBody, h.lfnBuf]
  by_cases hend : e 0 = 0
  · simp only [if_pos hend]
    exact ⟨rfl, h, hroom⟩
  by_cases hdel : e 0 = deleted
  · simp only [if_neg hend, if_pos hdel]
    exact ⟨rfl, hbuf _, hroom⟩
  by_cases hlfn : e.attr = 0x0F
  · simp only [if_neg hend, if_neg hdel, if_pos hlfn]
    exact ⟨rfl, hbuf _, hroom⟩
  by_cases hlabel : e.attr &&& 0x08 ≠ 0
  · simp only [if_neg hend, if_neg hdel, if_neg hlfn, if_pos hlabel]
    exact ⟨rfl, hbuf _, hroom⟩
  simp only [if_neg hend, if_neg hdel, if_neg hlfn, if_neg hlabel]
  have hb := hbuf (if t.lfnBuf 0 ≠ 0 then .clear else t.lfnBuf)
  by_cases hname : shownName t.lfnBuf e = []
  · simp only [if_pos hname]
    exact ⟨rfl, hb, hroom⟩
  simp only [if_neg hname]
  -- 300 bytes are kept free in front of a line, so the line and the mark fit
  by_cases hfull : limit - 300 < st.offset
  · simp only [if_pos hfull, if_pos (h.offset ▸ hfull)]
    exact ⟨rfl, { hb with truncated := rfl }, hroom⟩
  · rw [h.offset] at hfull
    simp only [if_neg hfull, if_neg (h.offset ▸ hfull)]
    have hlen := length_listingLine_le (length_shownName_le t.lfnBuf e) e
    have hline := hb.appendAll (ne_nil_of_mem_lineParts hname (e := e)) (by
      rw [flatten_lineParts]
      simp only
      omega)
    rw [flatten_lineParts] at hline
    refine ⟨rfl, ?_, ?_⟩
    · convert hline using 1
      rw [lineParts]
      split <;> rfl
    · simp only [List.length_append]
      omega

section
variable {limit : ℕ} {old : ℕ → UInt8} (hlimit : 300 ≤ limit)

include hlimit

theorem collects_sector (buf : Block) (n i : ℕ) {t : ListingState} {st : State}
    (h : Shows limit old t st) (hroom : t.text.length + 5 ≤ limit) :
    Collects limit old (Fat32.listingSector limit buf n i t) (listingSector limit buf n i st) := by
  induction n generalizing i t st with
  | zero => exact ⟨rfl, h, hroom⟩
  | succ n ih =>
    have hbody := collects_body hlimit h hroom (buf.entry i)
    rw [Fat32.listingSector, listingSector]
    revert hbody
    rcases Fat32.listingBody limit t (buf.entry i) with ⟨t', stop⟩
    rcases listingBody limit st (buf.entry i) with ⟨st', stop'⟩
    rintro ⟨rfl, hs, hr⟩
    cases stop' with
    | true => exact ⟨rfl, hs, hr⟩
    | false => exact ih (i + 32) hs hr

theorem collects_cluster (fs : Fat32Instance) (d : Disk) (clus n s : ℕ) {t : ListingState}
    {st : State} (h : Shows limit old t st) (hroom : t.text.length + 5 ≤ limit) :
    Collects limit old (Fat32.listingCluster fs d limit clus n s t)
      (listingCluster fs d limit clus n s st) := by
  induction n generalizing s t st with
  | zero => exact ⟨rfl, h, hroom⟩
  | succ n ih =>
    rw [Fat32.listingCluster, listingCluster]
    cases fs.readBlocks d ((clusterToSector fs clus + s) % 2 ^ 32) with
    | none => exact ⟨rfl, h, hroom⟩
    | some buf =>
      have hsector := collects_sector hlimit buf 16 0 h hroom
      revert hsector
      simp only
      rcases Fat32.listingSector limit buf 16 0 t with ⟨t', stop⟩
      rcases listingSector limit buf 16 0 st with ⟨st', stop'⟩
      rintro ⟨rfl, hs, hr⟩
      cases stop' with
      | true => exact ⟨rfl, hs, hr⟩
      | false => exact ih (s + 1) hs hr

/-- At the end of the walk the buffer shows the text that `Listing` speaks of. -/
theorem collects_chain (fs : Fat32Instance) (d : Disk) (guard clus : ℕ) {t : ListingState}
    {st : State} (h : Shows limit old t st) (hroom : t.text.length + 5 ≤ limit) :
    Shows limit old (Fat32.listingChain fs d limit guard clus t)
        (listingChain fs d limit guard clus st) ∧
      (Fat32.listingChain fs d limit guard clus t).text.length + 5 ≤ limit := by
  induction guard generalizing clus t st with
  | zero => exact ⟨h, hroom⟩
  | succ guard ih =>
    rw [Fat32.listingChain, listingChain]
    split
    · exact ⟨h, hroom⟩
    · have hcluster := collects_cluster hlimit fs d clus fs.sectorsPerCluster 0 h hroom
      revert hcluster
      rcases Fat32.listingCluster fs d limit clus fs.sectorsPerCluster 0 t with ⟨t', stop⟩
      rcases listingCluster fs d limit clus fs.sectorsPerCluster 0 st with ⟨st', stop'⟩
      rintro ⟨rfl, hs, hr⟩
      cases stop' with
      | true => exact ⟨hs, hr⟩
      | false =>
        simp only
        split
        · exact ih _ hs hr
        · exact ⟨hs, hr⟩

end

end Staged

/-! ## Which entries a listing sees -/

/-- The entries of a sector. -/
def sectorEntries (buf : Block) : List Entry := (List.range 16).map fun k => buf.entry (32 * k)

/-- The sectors of a cluster, as the code computes their numbers. -/
def clusterSectors (fs : Fat32Instance) (clus : ℕ) : List ℕ :=
  (List.range fs.sectorsPerCluster).map fun s => (clusterToSector fs clus + s) % 2 ^ 32

/-- The entries in the clusters `l`, as they lie on the disk. -/
def dirEntries (fs : Fat32Instance) (d : Disk) (l : List ℕ) : List Entry :=
  l.flatMap fun c => (clusterSectors fs c).flatMap fun s => sectorEntries (d.sectors s)

/-- The entries of some sectors in front of the first one that cannot be read; `true` when there is
one. -/
def readEntries (fs : Fat32Instance) (d : Disk) : List ℕ → List Entry × Bool
  | [] => ([], false)
  | s :: sectors =>
    match fs.readBlocks d s with
    | none => ([], true)
    | some buf => (sectorEntries buf ++ (readEntries fs d sectors).1, (readEntries fs d sectors).2)

/-- The entries in the first `guard` clusters of a directory, in front of the first sector that cannot
be read. -/
def chainEntries (fs : Fat32Instance) (d : Disk) : ℕ → ℕ → List Entry
  | 0, _ => []
  | guard + 1, clus =>
    if clus < 2 then []
    else
      match readEntries fs d (clusterSectors fs clus) with
      | (es, true) => es
      | (es, false) =>
        let next := fatGetEntry fs d clus
        es ++ if clusterHasNext next then chainEntries fs d guard next else []

/-- The loop of the listing over a list of entries. -/
def listingEntries (maxLen : ℕ) : List Entry → ListingState → ListingState × Bool
  | [], st => (st, false)
  | e :: es, st =>
    match listingBody maxLen st e with
    | (st, true) => (st, true)
    | (st, false) => listingEntries maxLen es st

section
variable {fs : Fat32Instance} {d : Disk} {maxLen : ℕ}

theorem listingEntries_append (es es' : List Entry) (st : ListingState) :
    listingEntries maxLen (es ++ es') st =
      match listingEntries maxLen es st with
      | (st, true) => (st, true)
      | (st, false) => listingEntries maxLen es' st := by
  induction es generalizing st with
  | nil => rfl
  | cons e es ih =>
    rw [List.cons_append, listingEntries, listingEntries]
    rcases listingBody maxLen st e with ⟨st, _ | _⟩
    · exact ih st
    · rfl

theorem listingSector_eq (buf : Block) (st : ListingState) :
    listingSector maxLen buf 16 0 st = listingEntries maxLen (sectorEntries buf) st := by
  have hloop : ∀ n k st, listingSector maxLen buf n (32 * k) st =
      listingEntries maxLen ((List.range' k n).map fun j => buf.entry (32 * j)) st := by
    intro n
    induction n with
    | zero => exact fun _ _ => rfl
    | succ n ih =>
      intro k st
      rw [listingSector, List.range'_succ, List.map_cons, listingEntries]
      rcases listingBody maxLen st (buf.entry (32 * k)) with ⟨st, _ | _⟩
      · exact ih (k + 1) st
      · rfl
  rw [sectorEntries, List.range_eq_range']
  exact hloop 16 0 st

theorem listingCluster_eq (clus : ℕ) (st : ListingState) :
    listingCluster fs d maxLen clus fs.sectorsPerCluster 0 st =
      ((listingEntries maxLen (readEntries fs d (clusterSectors fs clus)).1 st).1,
        (listingEntries maxLen (readEntries fs d (clusterSectors fs clus)).1 st).2 ||
          (readEntries fs d (clusterSectors fs clus)).2) := by
  have hloop : ∀ n s st, listingCluster fs d maxLen clus n s st =
      ((listingEntries maxLen (readEntries fs d ((List.range' s n).map fun s =>
          (clusterToSector fs clus + s) % 2 ^ 32)).1 st).1,
        (listingEntries maxLen (readEntries fs d ((List.range' s n).map fun s =>
          (clusterToSector fs clus + s) % 2 ^ 32)).1 st).2 ||
        (readEntries fs d ((List.range' s n).map fun s =>
          (clusterToSector fs clus + s) % 2 ^ 32)).2) := by
    intro n
    induction n with
    | zero => exact fun _ _ => rfl
    | succ n ih =>
      intro s st
      rw [listingCluster, List.range'_succ, List.map_cons, readEntries]
      cases fs.readBlocks d ((clusterToSector fs clus + s) % 2 ^ 32) with
      | none => rfl
      | some buf =>
        simp only [listingSector_eq, listingEntries_append]
        rcases listingEntries maxLen (sectorEntries buf) st with ⟨st, _ | _⟩
        · exact ih (s + 1) st
        · rfl
  rw [clusterSectors, List.range_eq_range']
  exact hloop _ 0 st

/-- The walk over a directory is a loop over the entries it sees. -/
theorem listingChain_eq (guard clus : ℕ) (st : ListingState) :
    listingChain fs d maxLen guard clus st =
      (listingEntries maxLen (chainEntries fs d guard clus) st).1 := by
  induction guard generalizing clus st with
  | zero => rfl
  | succ guard ih =>
    rw [listingChain, chainEntries]
    split
    · rfl
    · rw [listingCluster_eq]
      rcases readEntries fs d (clusterSectors fs clus) with ⟨es, _ | _⟩
      · simp only [listingEntries_append, Bool.or_false]
        rcases listingEntries maxLen es st with ⟨st, _ | _⟩
        · simp only
          split
          · exact ih _ st
          · rfl
        · rfl
      · simp only [Bool.or_true]

end

/-! ## The lines of a listing -/

/-- The lines for the live entries with a name, up to the end mark; `buf` is what the entries in front
have left in the long-name buffer. -/
def liveLines : LfnBuf → List Entry → List CString
  | _, [] => []
  | buf, e :: es =>
    if e 0 = 0 then []
    else if e.IsNamed ∧ shownName buf e ≠ [] then
      listingLine (shownName buf e) e :: liveLines (lfnStep buf e) es
    else liveLines (lfnStep buf e) es

/-- The lines that there is room for, when `used` bytes are taken: those that start at `limit` at the
latest. -/
def fitting (limit : ℕ) : ℕ → List CString → List CString
  | _, [] => []
  | used, line :: lines =>
    if limit < used then [] else line :: fitting limit (used + line.length) lines

theorem fitting_isPrefix (limit used : ℕ) (lines : List CString) :
    fitting limit used lines <+: lines := by
  induction lines generalizing used with
  | nil => exact List.nil_prefix
  | cons line lines ih =>
    rw [fitting]
    split
    · exact List.nil_prefix
    · exact List.cons_prefix_cons.mpr ⟨rfl, ih _⟩

/-- A line is left out when the last one would start behind `limit`. -/
theorem fitting_ne_iff (limit used : ℕ) (lines : List CString) :
    fitting limit used lines ≠ lines ↔
      lines ≠ [] ∧ limit < used + lines.dropLast.flatten.length := by
  induction lines generalizing used with
  | nil => simp [fitting]
  | cons line lines ih =>
    rw [fitting]
    by_cases hfull : limit < used
    · rw [if_pos hfull]
      exact iff_of_true (List.cons_ne_nil _ _).symm ⟨List.cons_ne_nil _ _, by omega⟩
    · rw [if_neg hfull, Ne, List.cons.injEq, not_and]
      cases lines with
      | nil => simp [fitting, hfull]
      | cons next lines =>
        rw [List.dropLast_cons_cons, List.flatten_cons, List.length_append, ← Nat.add_assoc]
        have ih := ih (used + line.length)
        exact ⟨fun h => ⟨List.cons_ne_nil _ _, (ih.mp (h rfl)).2⟩,
          fun h _ => ih.mpr ⟨List.cons_ne_nil _ _, h.2⟩⟩

/-- More entries behind add lines behind. -/
theorem liveLines_isPrefix {es es' : List Entry} (h : es <+: es') (buf : LfnBuf) :
    liveLines buf es <+: liveLines buf es' := by
  induction es generalizing es' buf with
  | nil => exact List.nil_prefix
  | cons e es ih =>
    obtain ⟨tail, rfl⟩ := h
    have hrest := fun buf => ih (List.prefix_append es tail) buf
    rw [List.cons_append, liveLines, liveLines]
    split
    · exact List.nil_prefix
    · split
      · exact List.cons_prefix_cons.mpr ⟨rfl, hrest _⟩
      · exact hrest _

theorem listingBody_eq (maxLen : ℕ) (st : ListingState) (e : Entry) :
    listingBody maxLen st e =
      if e 0 = 0 then (st, true)
      else if e.IsNamed ∧ shownName st.lfnBuf e ≠ [] then
        if maxLen - 300 < st.text.length then
          (⟨lfnStep st.lfnBuf e, st.text, true⟩, true)
        else
          (⟨lfnStep st.lfnBuf e, st.text ++ listingLine (shownName st.lfnBuf e) e, st.truncated⟩,
            false)
      else ({ st with lfnBuf := lfnStep st.lfnBuf e }, false) := by
  rw [listingBody]
  -- the branches of the body in its order
  by_cases hend : e 0 = 0
  · rw [if_pos hend, if_pos hend]
  rw [if_neg hend, if_neg hend]
  by_cases hdel : e 0 = deleted
  · have hfree : e.IsFree := .inr hdel
    rw [if_pos hdel, if_neg fun h => h.1.1 hfree, lfnStep_of_free _ hfree]
  have hfree : ¬ e.IsFree := not_or.mpr ⟨hend, hdel⟩
  rw [if_neg hdel]
  by_cases hlfn : e.attr = 0x0F
  · rw [if_pos hlfn, if_neg fun h => h.1.2.1 hlfn, lfnStep, if_neg hfree, if_pos hlfn]
  rw [if_neg hlfn]
  by_cases hlabel : e.attr &&& 0x08 ≠ 0
  · rw [if_pos hlabel, if_neg fun h => hlabel h.1.2.2, lfnStep, if_neg hfree, if_neg hlfn,
      if_pos hlabel]
  rw [if_neg hlabel]
  have hnamed : e.IsNamed := ⟨hfree, hlfn, not_not.mp hlabel⟩
  rw [lfnStep_of_named _ hnamed]
  by_cases hname : shownName st.lfnBuf e = []
  · have hnameless : ¬ (e.IsNamed ∧ shownName st.lfnBuf e ≠ []) := fun h => h.2 hname
    simp only [if_pos hname, if_neg hnameless]
  · have hshown : e.IsNamed ∧ shownName st.lfnBuf e ≠ [] := ⟨hnamed, hname⟩
    simp only [if_neg hname, if_pos hshown]

/-- The text of a listing are the lines that there is room for, and the mark is set when these are not
all of them. -/
theorem listingEntries_text (maxLen : ℕ) (es : List Entry) (st : ListingState) :
    (listingEntries maxLen es st).1.text = st.text ++
        (fitting (maxLen - 300) st.text.length (liveLines st.lfnBuf es)).flatten ∧
      (listingEntries maxLen es st).1.truncated = (st.truncated ||
        decide (fitting (maxLen - 300) st.text.length (liveLines st.lfnBuf es) ≠
          liveLines st.lfnBuf es)) := by
  induction es generalizing st with
  | nil => simp [listingEntries, liveLines, fitting]
  | cons e es ih =>
    rw [listingEntries, listingBody_eq, liveLines]
    by_cases hend : e 0 = 0
    · simp [hend, fitting]
    rw [if_neg hend, if_neg hend]
    by_cases hname : e.IsNamed ∧ shownName st.lfnBuf e ≠ []
    · rw [if_pos hname, if_pos hname, fitting]
      by_cases hfull : maxLen - 300 < st.text.length
      · simp [hfull]
      · rw [if_neg hfull, if_neg hfull]
        obtain ⟨htext, htr⟩ := ih
          ⟨lfnStep st.lfnBuf e, st.text ++ listingLine (shownName st.lfnBuf e) e, st.truncated⟩
        rw [List.length_append] at htext htr
        refine ⟨htext.trans ?_, htr.trans ?_⟩
        · rw [List.flatten_cons, List.append_assoc]
        · simp
    · rw [if_neg hname, if_neg hname]
      exact ih _

/-! ## The entries seen are the first ones of the directory -/

section
variable {fs : Fat32Instance} {d : Disk} (hread : ∀ s b, fs.readBlocks d s = some b → b = d.sectors s)

include hread

theorem readEntries_spec (sectors : List ℕ) :
    (readEntries fs d sectors).1 <+: (sectors.flatMap fun s => sectorEntries (d.sectors s)) ∧
      ((readEntries fs d sectors).2 = false →
        (readEntries fs d sectors).1 = sectors.flatMap fun s => sectorEntries (d.sectors s)) := by
  induction sectors with
  | nil => exact ⟨List.nil_prefix, fun _ => rfl⟩
  | cons s sectors ih =>
    rw [readEntries, List.flatMap_cons]
    cases hblock : fs.readBlocks d s with
    | none => exact ⟨List.nil_prefix, fun h => by cases h⟩
    | some buf =>
      obtain rfl := hread s buf hblock
      refine ⟨(List.prefix_append_right_inj _).mpr ih.1, fun h => ?_⟩
      simp only
      rw [ih.2 h]

/-- The successor of a cluster, where the device yields it, is the one on the disk. -/
theorem fatNext_eq_of_read {c b : ℕ} (h : fatNext fs d c = some b) :
    fatNext { fs with readBlocks := ramRead } d c = some b := by
  have hget : fatGetEntry fs d c = fatGetEntry { fs with readBlocks := ramRead } d c ∨
      fatGetEntry fs d c = fat32Eoc := by
    rw [fatGetEntry, fatGetEntry]
    cases hblock : fs.readBlocks d (fatSector fs 0 c) with
    | none => exact .inr rfl
    | some buf =>
      obtain rfl := hread _ _ hblock
      exact .inl rfl
  rcases hget with heq | heoc
  · rwa [fatNext, ← heq]
  · rw [fatNext, heoc] at h
    cases h

/-- The walk that the device yields is the first part of the chain. -/
theorem exists_walk_isPrefix {clus : ℕ} {l : List ℕ}
    (hw : Walk (fatNext { fs with readBlocks := ramRead } d) clus l) :
    ∃ l', l' <+: l ∧ Walk (fatNext fs d) clus l' := by
  induction hw with
  | @last c hend =>
    refine ⟨[c], List.prefix_rfl, .last ?_⟩
    by_contra hne
    obtain ⟨b, hb⟩ := Option.ne_none_iff_exists'.mp hne
    rw [fatNext_eq_of_read hread hb] at hend
    cases hend
  | @cons c b l hs _ ih =>
    cases hnext : fatNext fs d c with
    | none => exact ⟨[c], List.cons_prefix_cons.mpr ⟨rfl, List.nil_prefix⟩, .last hnext⟩
    | some b' =>
      obtain rfl : b = b' := Option.some.inj (hs.symm.trans (fatNext_eq_of_read hread hnext))
      obtain ⟨l', hl', hw'⟩ := ih
      exact ⟨c :: l', List.cons_prefix_cons.mpr ⟨rfl, hl'⟩, .cons hnext hw'⟩

theorem chainEntries_isPrefix (guard : ℕ) {clus : ℕ} {l : List ℕ} (hw : Walk (fatNext fs d) clus l) :
    chainEntries fs d guard clus <+: dirEntries fs d l := by
  induction guard generalizing clus l with
  | zero => exact List.nil_prefix
  | succ guard ih =>
    obtain ⟨t, rfl⟩ := hw.eq_cons
    have hspec := readEntries_spec hread (clusterSectors fs clus)
    rw [chainEntries, dirEntries, List.flatMap_cons]
    split
    · exact List.nil_prefix
    revert hspec
    rcases readEntries fs d (clusterSectors fs clus) with ⟨es, _ | _⟩
    · rintro ⟨-, hall⟩
      have hes := hall rfl
      simp only at hes ⊢
      rw [← hes]
      refine (List.prefix_append_right_inj es).mpr ?_
      split
      · rename_i hnext
        cases hw with
        | last hend =>
          rw [fatNext_pos hnext] at hend
          cases hend
        | cons hs hw =>
          rw [fatNext_pos hnext] at hs
          obtain rfl := Option.some.inj hs
          exact ih hw
      · exact List.nil_prefix
    · exact fun h => h.1.trans (List.prefix_append _ _)

end

/-- On a device that reads every sector a listing sees all entries of at most 4096 clusters. -/
theorem chainEntries_eq {fs : Fat32Instance} {d : Disk}
    (hread : ∀ s, fs.readBlocks d s = some (d.sectors s))
    {guard clus : ℕ} {l : List ℕ} (h2 : 2 ≤ clus) (hw : Walk (fatNext fs d) clus l)
    (hlen : l.length ≤ guard) : chainEntries fs d guard clus = dirEntries fs d l := by
  -- no sector fails, so no listing breaks off in the middle of a cluster
  have hsectors : ∀ sectors, readEntries fs d sectors =
      (sectors.flatMap fun s => sectorEntries (d.sectors s), false) := by
    intro sectors
    induction sectors with
    | nil => rfl
    | cons s sectors ih => simp only [readEntries, hread, ih, List.flatMap_cons]
  induction hw generalizing guard with
  | @last c hend =>
    obtain ⟨guard, rfl⟩ := Nat.exists_eq_add_of_le' hlen
    have hno : ¬ clusterHasNext (fatGetEntry fs d c) = true := fun hnext => by
      rw [fatNext_pos hnext] at hend
      cases hend
    rw [List.length_singleton, chainEntries, if_neg (by omega), hsectors]
    simp only [if_neg hno, dirEntries, List.flatMap_cons, List.flatMap_nil]
  | @cons c b l hs _ ih =>
    rw [List.length_cons] at hlen
    obtain ⟨guard, rfl⟩ := Nat.exists_eq_add_of_le' (show 1 ≤ guard by omega)
    have hnext : clusterHasNext (fatGetEntry fs d c) = true := by
      by_contra hno
      rw [fatNext_neg hno] at hs
      cases hs
    rw [fatNext_pos hnext] at hs
    obtain rfl := Option.some.inj hs
    rw [chainEntries, if_neg (by omega), hsectors]
    simp only [if_pos hnext, dirEntries, List.flatMap_cons]
    have h2' : 2 ≤ fatGetEntry fs d c := by
      rw [clusterHasNext, Bool.and_eq_true, decide_eq_true_eq] at hnext
      exact hnext.1
    rw [ih h2' (show l.length ≤ guard by omega)]
    rfl

/-! ## What a call hands out -/

/-- The string in a buffer of `n` bytes; all of them when there is no terminator. -/
def bufferString (n : ℕ) (buf : ℕ → UInt8) : CString := cString ((List.range n).map buf)

/-- The mark of a listing that was cut off. -/
def mark : CString := ascii "...\n"

/-- What a call of `fat32_format_dir_listing(dir_cluster, out_buffer, max_len)` promises, `lines` being
the lines for the live named entries of the directory. -/
structure ListsDirectory (maxLen : ℕ) (lines : List CString) (r : Staged.Result) : Prop where
  ok : r.ok = true
  /-- no byte of `staging` at or behind `min(max_len, 4096)` is written -/
  inside : ∀ w ∈ r.writes, w.1 + w.2 ≤ min maxLen fat32MaxIoChunk
  /-- a terminator lies in the caller's buffer -/
  terminated : (bufferString maxLen r.outBuffer).length < maxLen
  /-- whole lines from the first one on, and the mark when one is missing -/
  text : ∃ p, p <+: lines ∧
    bufferString maxLen r.outBuffer = p.flatten ++ if p = lines then [] else mark

/-- The string of a buffer ends at its first zero. -/
theorem bufferString_eq {n : ℕ} {buf : ℕ → UInt8} {text : CString} (h0 : 0 ∉ text)
    (hlen : text.length < n) (hbytes : ∀ i < text.length, buf i = text.getD i 0)
    (hend : buf text.length = 0) : bufferString n buf = text := by
  obtain ⟨m, rfl⟩ := Nat.exists_eq_add_of_lt hlen
  have hmap : (List.range (text.length + m + 1)).map buf =
      text ++ 0 :: ((List.range m).map Nat.succ).map (fun i => buf (text.length + i)) := by
    rw [Nat.add_assoc, List.range_add, List.range_succ_eq_map, List.map_append, List.map_map,
      List.map_cons]
    congr 1
    · refine List.ext_getElem (by rw [List.length_map, List.length_range]) fun i h1 h2 => ?_
      rw [List.getElem_map, List.getElem_range, hbytes i h2, List.getD_eq_getElem _ _ h2]
    · exact congrArg (· :: _) hend
  rw [bufferString, cString, hmap, List.takeWhile_append_of_pos fun x hx => ?_,
    List.takeWhile_cons_of_neg (by simp), List.append_nil]
  exact decide_eq_true fun h => h0 (h ▸ hx)

theorem zero_notMem_digits (n : ℕ) : 0 ∉ digits n :=
  fun h => absurd (mem_digits h).1 (by decide)

theorem zero_notMem_listingLine (buf : LfnBuf) (e : Entry) :
    0 ∉ listingLine (shownName buf e) e := by
  have hname : 0 ∉ shownName buf e := by
    intro h
    rw [shownName] at h
    split at h
    · have := List.mem_takeWhile_imp h
      simp at this
    · have := List.mem_takeWhile_imp h
      simp at this
  have hdir : 0 ∉ ascii " [DIR] " := by decide
  have hfat : 0 ∉ ascii " [FAT] " := by decide
  have hparen : 0 ∉ ascii " \t(" := by decide
  have hbytes : 0 ∉ ascii " bytes)\n" := by decide
  have hnewline : 0 ∉ ascii "\n" := by decide
  rw [listingLine]
  split
  · simp only [List.mem_append, hdir, hname, hnewline, or_self, not_false_eq_true]
  · simp only [List.mem_append, hfat, hname, hparen, zero_notMem_digits, hbytes, or_self,
      not_false_eq_true]

/-- Every line starts with a blank and has no terminator in it. -/
theorem mem_liveLines {buf : LfnBuf} {es : List Entry} {line : CString} (h : line ∈ liveLines buf es) :
    (∃ tail, line = blank :: tail) ∧ 0 ∉ line := by
  induction es generalizing buf with
  | nil => cases h
  | cons e es ih =>
    rw [liveLines] at h
    split at h
    · cases h
    · split at h
      · rcases List.mem_cons.mp h with rfl | h
        · refine ⟨?_, zero_notMem_listingLine buf e⟩
          rw [listingLine]
          split
          · exact ⟨_, rfl⟩
          · exact ⟨_, rfl⟩
        · exact ih h
      · exact ih h

/-- The text for `lines`: those that there is room for, and the mark when these are not all. -/
def listingText (maxLen : ℕ) (lines : List CString) : CString :=
  (fitting (min maxLen fat32MaxIoChunk - 300) 0 lines).flatten ++
    if fitting (min maxLen fat32MaxIoChunk - 300) 0 lines = lines then [] else mark

/-- There is always room for the first line. -/
theorem fitting_cons (limit : ℕ) (line : CString) (lines : List CString) :
    fitting limit 0 (line :: lines) = line :: fitting limit line.length lines := by
  rw [fitting, if_neg (Nat.not_lt_zero limit), Nat.zero_add]

theorem listingText_eq_nil_iff {maxLen : ℕ} {buf : LfnBuf} {es : List Entry} :
    listingText maxLen (liveLines buf es) = [] ↔ liveLines buf es = [] := by
  cases hlines : liveLines buf es with
  | nil => simp [listingText, fitting]
  | cons line lines =>
    obtain ⟨⟨tail, rfl⟩, -⟩ := mem_liveLines (hlines ▸ List.mem_cons_self)
    rw [listingText, fitting_cons]
    simp

theorem zero_notMem_flatten {buf : LfnBuf} {es : List Entry} {p : List CString}
    (h : p <+: liveLines buf es) : 0 ∉ p.flatten := by
  intro h0
  obtain ⟨line, hline, hmem⟩ := List.mem_flatten.mp h0
  exact (mem_liveLines (h.subset hline)).2 hmem

theorem zero_notMem_listingText (maxLen : ℕ) (buf : LfnBuf) (es : List Entry) :
    0 ∉ listingText maxLen (liveLines buf es) := by
  rw [listingText, List.mem_append, not_or]
  refine ⟨zero_notMem_flatten (fitting_isPrefix _ _ _), ?_⟩
  split
  · exact List.not_mem_nil
  · decide

theorem listingChain_text (fs : Fat32Instance) (d : Disk) (maxLen clus : ℕ) {t : ListingState}
    (ht : listingChain fs d (min maxLen fat32MaxIoChunk) 4096 clus ⟨.clear, [], false⟩ = t) :
    t.text ++ (if t.truncated then mark else []) =
      listingText maxLen (liveLines .clear (chainEntries fs d 4096 clus)) := by
  obtain ⟨htext, htr⟩ := listingEntries_text (min maxLen fat32MaxIoChunk)
    (chainEntries fs d 4096 clus) ⟨.clear, [], false⟩
  rw [← listingChain_eq, ht] at htext htr
  simp only [List.nil_append, Bool.false_or, List.length_nil] at htext htr
  rw [listingText, htr, htext]
  by_cases hall : fitting (min maxLen fat32MaxIoChunk - 300) 0
      (liveLines .clear (chainEntries fs d 4096 clus)) =
        liveLines .clear (chainEntries fs d 4096 clus)
  · rw [if_pos hall, if_neg (by simpa using hall)]
  · rw [if_neg hall, if_pos (by simpa using hall)]

section
variable {fs : Fat32Instance} {d : Disk} {dirCluster clus maxLen : ℕ} {l : List ℕ}
  (hclus : (if dirCluster < 2 then fs.rootCluster else dirCluster) = clus) (h2 : 2 ≤ clus)
  (hw : Walk (fatNext fs d) clus l) (hmax : 300 ≤ maxLen) (staging outBuffer : ℕ → UInt8)

include hclus h2 hw hmax

/-- The buffers after a call, by the lines for the entries that it sees. -/
theorem fat32FormatDirListing_spec :
    ∃ st t, Staged.fat32FormatDirListing fs d dirCluster maxLen staging outBuffer =
        ⟨true, fun i => if i < st.offset + 1 then st.staging i
          else Function.update outBuffer 0 0 i, st.staging, st.writes⟩ ∧
      Staged.Shows (min maxLen fat32MaxIoChunk) staging t st ∧
      t.text = listingText maxLen (liveLines .clear (chainEntries fs d 4096 clus)) ∧
      t.text.length + 1 ≤ min maxLen fat32MaxIoChunk := by
  set limit := min maxLen fat32MaxIoChunk with hlimit
  have h300 : 300 ≤ limit := le_min hmax (by decide)
  have hstart : Staged.Shows limit staging ⟨.clear, [], false⟩ ⟨.clear, staging, [], 0, false⟩ :=
    ⟨rfl, rfl, rfl, fun i hi => absurd hi (Nat.not_lt_zero i), fun h => absurd rfl h, fun _ => rfl,
      fun w hw => absurd hw List.not_mem_nil⟩
  obtain ⟨hshows, hroom⟩ := Staged.collects_chain h300 fs d 4096 clus hstart
    (show 0 + 5 ≤ limit by omega)
  generalize ht : listingChain fs d limit 4096 clus ⟨.clear, [], false⟩ = t at hshows hroom
  have htext := listingChain_text fs d maxLen clus ht
  set st := Staged.listingChain fs d limit 4096 clus ⟨.clear, staging, [], 0, false⟩ with hst
  have hrun : Staged.fat32FormatDirListing fs d dirCluster maxLen staging outBuffer =
      ⟨true, fun i => if i < (if st.truncated then st.append mark else st).offset + 1 then
          (if st.truncated then st.append mark else st).staging i
        else Function.update outBuffer 0 0 i,
        (if st.truncated then st.append mark else st).staging,
        (if st.truncated then st.append mark else st).writes⟩ := by
    rw [Staged.fat32FormatDirListing]
    simp only [hclus]
    rw [if_neg (by omega), fatChainHasCycle_of_walk hw, if_neg (by decide)]
    rfl
  -- the 300 bytes that a line leaves free hold the mark and the terminator
  have hmark : mark.length = 4 := by decide
  refine ⟨_, if t.truncated then { t with text := t.text ++ mark } else t, hrun, ?_, ?_, ?_⟩
  · rw [hshows.truncated]
    split
    · exact hshows.append (by decide) (by omega)
    · exact hshows
  · rw [← htext]
    split
    · rfl
    · exact (List.append_nil _).symm
  · split
    · rw [List.length_append]
      omega
    · omega

/-- The text of `Listing` is the one for the lines of the entries that are seen. -/
theorem fat32FormatDirListing_eq :
    fat32FormatDirListing fs d dirCluster maxLen =
      some (listingText maxLen (liveLines .clear (chainEntries fs d 4096 clus))) := by
  rw [fat32FormatDirListing, ← listingChain_text fs d maxLen clus rfl]
  simp only [hclus]
  rw [if_neg (by omega), fatChainHasCycle_of_walk hw, if_neg (by decide)]
  rfl

/-- The buffer holds the text of `Listing` when there is a line, or a terminator is left in the
static buffer. -/
theorem some_bufferString
    (h : liveLines .clear (chainEntries fs d 4096 clus) ≠ [] ∨ staging 0 = 0) :
    some (bufferString maxLen
        (Staged.fat32FormatDirListing fs d dirCluster maxLen staging outBuffer).outBuffer) =
      fat32FormatDirListing fs d dirCluster maxLen := by
  rw [fat32FormatDirListing_eq hclus h2 hw hmax]
  refine congrArg some ?_
  obtain ⟨st, t, hrun, hshows, htext, hroom⟩ :=
    fat32FormatDirListing_spec hclus h2 hw hmax staging outBuffer
  rw [hrun, ← htext]
  have hle := hroom.trans (min_le_left maxLen fat32MaxIoChunk)
  refine bufferString_eq ?_ (by omega) (fun i hi => ?_) ?_
  · rw [htext]
    exact zero_notMem_listingText _ _ _
  · simp only [hshows.offset]
    rw [if_pos (by omega)]
    exact hshows.bytes i hi
  · simp only [hshows.offset]
    rw [if_pos (by omega)]
    by_cases hnil : t.text = []
    · rw [hnil, hshows.untouched hnil]
      rw [htext, listingText_eq_nil_iff] at hnil
      exact h.resolve_left fun hne => hne hnil
    · exact hshows.terminated hnil

/-- This text reaches the caller. -/
theorem bufferString_outBuffer
    (h : liveLines .clear (chainEntries fs d 4096 clus) ≠ [] ∨ staging 0 = 0) :
    bufferString maxLen
        (Staged.fat32FormatDirListing fs d dirCluster maxLen staging outBuffer).outBuffer =
      listingText maxLen (liveLines .clear (chainEntries fs d 4096 clus)) :=
  Option.some.inj ((some_bufferString hclus h2 hw hmax staging outBuffer h).trans
    (fat32FormatDirListing_eq hclus h2 hw hmax))

/-- Without either the first byte is what an earlier call has left, and nothing ends the string. -/
theorem not_terminated (hnil : liveLines .clear (chainEntries fs d 4096 clus) = [])
    (h0 : staging 0 ≠ 0) : (bufferString maxLen
      (Staged.fat32FormatDirListing fs d dirCluster maxLen staging fun _ => 1).outBuffer).length =
        maxLen := by
  obtain ⟨st, t, hrun, hshows, htext, -⟩ :=
    fat32FormatDirListing_spec hclus h2 hw hmax staging fun _ => 1
  have ht : t.text = [] := htext.trans (listingText_eq_nil_iff.mpr hnil)
  rw [hrun, hshows.offset, ht, hshows.untouched ht]
  have hne : ∀ i, (if i < ([] : CString).length + 1 then staging i
      else Function.update (fun _ => (1 : UInt8)) 0 0 i) ≠ 0 := by
    intro i
    rw [List.length_nil]
    split
    · rwa [show i = 0 by omega]
    · rw [Function.update_of_ne (by omega)]
      decide
  rw [bufferString, cString, List.takeWhile_eq_self_iff.mpr fun x hx => ?_, List.length_map,
    List.length_range]
  obtain ⟨i, -, rfl⟩ := List.mem_map.mp hx
  exact decide_eq_true (hne i)

/-- A listing with a line leaves the blank that its text starts with. -/
theorem staging_of_line (h : liveLines .clear (chainEntries fs d 4096 clus) ≠ []) :
    (Staged.fat32FormatDirListing fs d dirCluster maxLen staging outBuffer).staging 0 = blank := by
  obtain ⟨st, t, hrun, hshows, htext, -⟩ :=
    fat32FormatDirListing_spec hclus h2 hw hmax staging outBuffer
  obtain ⟨line, lines, hlines⟩ := List.exists_cons_of_ne_nil h
  obtain ⟨⟨tail, rfl⟩, -⟩ := mem_liveLines (hlines ▸ List.mem_cons_self)
  rw [hlines, listingText, fitting_cons] at htext
  rw [hrun]
  refine (hshows.bytes 0 (by simp [htext])).trans ?_
  rw [htext]
  rfl

end

/-- What makes a text the one of a longer list of lines. -/
theorem exists_isPrefix_iff {maxLen : ℕ} {buf : LfnBuf} {es : List Entry} {seen : List CString}
    (h : seen <+: liveLines buf es) :
    (∃ p, p <+: liveLines buf es ∧
      listingText maxLen seen = p.flatten ++ if p = liveLines buf es then [] else mark) ↔
    seen = liveLines buf es ∨
      min maxLen fat32MaxIoChunk - 300 < seen.dropLast.flatten.length := by
  have hfits : fitting (min maxLen fat32MaxIoChunk - 300) 0 seen ≠ seen ↔
      min maxLen fat32MaxIoChunk - 300 < seen.dropLast.flatten.length := by
    rw [fitting_ne_iff, Nat.zero_add]
    refine and_iff_right_of_imp fun hlt hnil => ?_
    rw [hnil] at hlt
    exact Nat.not_lt_zero _ hlt
  rw [← hfits]
  set all := liveLines buf es with hall
  set fit := fitting (min maxLen fat32MaxIoChunk - 300) 0 seen with hfit
  have hfitseen : fit <+: seen := fitting_isPrefix _ _ _
  have hline : ∀ line ∈ all, ∃ tail, line = blank :: tail := fun line hl => (mem_liveLines hl).1
  rw [listingText, ← hfit]
  constructor
  · rintro ⟨p, hp, heq⟩
    by_contra hnot
    rw [not_or, not_not] at hnot
    obtain ⟨hne, hsame⟩ := hnot
    rw [if_pos hsame, List.append_nil, hsame] at heq
    by_cases hpall : p = all
    · -- the lines that are missing are not empty
      rw [if_pos hpall, List.append_nil, hpall] at heq
      obtain ⟨rest, hrest⟩ := h
      rw [← hrest, List.flatten_append] at heq
      have hnil : rest.flatten = [] := List.self_eq_append_right.mp heq
      cases rest with
      | nil => exact hne (by rw [← hrest, List.append_nil])
      | cons line rest =>
        obtain ⟨tail, rfl⟩ := hline line (by
          rw [← hrest]
          exact List.mem_append_right _ List.mem_cons_self)
        cases hnil
    · rw [if_neg hpall] at heq
      rcases List.prefix_or_prefix_of_prefix hp h with hps | hsp
      · -- a line does not start like the mark
        obtain ⟨q, rfl⟩ := hps
        rw [List.flatten_append] at heq
        have hq := List.append_cancel_left heq
        cases q with
        | nil => cases hq
        | cons line q =>
          obtain ⟨tail, rfl⟩ := hline line (h.subset (List.mem_append_right _ List.mem_cons_self))
          have hhead : mark.head? = some blank := by
            rw [← hq]
            rfl
          exact absurd hhead (by decide)
      · obtain ⟨q, rfl⟩ := hsp
        have hlen := congrArg List.length heq
        rw [List.flatten_append, List.length_append, List.length_append] at hlen
        have hmark : mark.length = 4 := by decide
        omega
  · intro hcond
    refine ⟨fit, hfitseen.trans h, ?_⟩
    congr 1
    by_cases hsame : fit = seen
    · have heq := hcond.resolve_right fun hne => hne hsame
      rw [if_pos hsame, if_pos (hsame.trans heq)]
    · rw [if_neg hsame, if_neg fun heq => hsame (hfitseen.eq_of_length_le ?_)]
      rw [heq]
      exact h.length_le

theorem dirEntries_isPrefix {fs : Fat32Instance} {d : Disk} {l' l : List ℕ} (h : l' <+: l) :
    dirEntries fs d l' <+: dirEntries fs d l := by
  obtain ⟨rest, rfl⟩ := h
  rw [dirEntries, dirEntries, List.flatMap_append]
  exact List.prefix_append _ _

/-- A listing is what it should be, in every buffer of the caller, exactly when it has a line or the
static buffer starts with a terminator, and when it sees all lines of the directory or runs out of
room before. -/
theorem listsDirectory_iff {fs : Fat32Instance} {d : Disk} {dirCluster clus maxLen : ℕ} {l : List ℕ}
    (hread : ∀ s b, fs.readBlocks d s = some b → b = d.sectors s)
    (hclus : (if dirCluster < 2 then fs.rootCluster else dirCluster) = clus) (h2 : 2 ≤ clus)
    (hw : Walk (fatNext { fs with readBlocks := ramRead } d) clus l) (hmax : 300 ≤ maxLen)
    (staging : ℕ → UInt8) :
    (∀ outBuffer, ListsDirectory maxLen (liveLines .clear (dirEntries fs d l))
      (Staged.fat32FormatDirListing fs d dirCluster maxLen staging outBuffer)) ↔
    (liveLines .clear (chainEntries fs d 4096 clus) ≠ [] ∨ staging 0 = 0) ∧
    (liveLines .clear (chainEntries fs d 4096 clus) = liveLines .clear (dirEntries fs d l) ∨
      min maxLen fat32MaxIoChunk - 300 <
        (liveLines .clear (chainEntries fs d 4096 clus)).dropLast.flatten.length) := by
  obtain ⟨l', hl', hw'⟩ := exists_walk_isPrefix hread hw
  have hseen : liveLines .clear (chainEntries fs d 4096 clus) <+:
      liveLines .clear (dirEntries fs d l) :=
    liveLines_isPrefix ((chainEntries_isPrefix hread 4096 hw').trans (dirEntries_isPrefix hl')) .clear
  constructor
  · intro h
    -- the converse takes one bad buffer: all ones, so that a missing terminator shows
    have hterm : liveLines .clear (chainEntries fs d 4096 clus) ≠ [] ∨ staging 0 = 0 := by
      by_contra hnot
      rw [not_or, not_not] at hnot
      have hlen := not_terminated hclus h2 hw' hmax staging hnot.1 hnot.2
      exact absurd (h fun _ => 1).terminated (by omega)
    refine ⟨hterm, (exists_isPrefix_iff hseen).mp ?_⟩
    -- and one of zeros for the lines
    have htext := (h fun _ => 0).text
    rwa [bufferString_outBuffer hclus h2 hw' hmax staging _ hterm] at htext
  · rintro ⟨hterm, hlines⟩ outBuffer
    have hstring := bufferString_outBuffer hclus h2 hw' hmax staging outBuffer hterm
    obtain ⟨st, t, hrun, hshows, htext, hroom⟩ :=
      fat32FormatDirListing_spec hclus h2 hw' hmax staging outBuffer
    refine ⟨by rw [hrun], ?_, ?_, ?_⟩
    · rw [hrun]
      exact hshows.inside
    · rw [hstring, ← htext]
      have hle := hroom.trans (min_le_left maxLen fat32MaxIoChunk)
      omega
    · rw [hstring]
      exact (exists_isPrefix_iff hseen).mpr hlines

/-! ## A directory with one entry -/

/-- The root directory is cluster 2, its only entry is `e`. -/
def rootDisk (e : Entry) : Disk where
  sectors := fun s =>
    if s = 33 then Block.zero.setEntry 0 e else tableSector (fun _ => fat32Eoc) 0
  log := []

/-- The file `A`, and what is left of its entry when it is deleted. -/
def listedA : Entry := shortEntry (formatFat32Name (ascii "A")) 0x20 0 0

def deletedA : Entry := listedA.setByte 0 deleted

theorem walk_rootDisk (e : Entry) : Walk (fatNext (ramFs 512 1 32 1 1 2) (rootDisk e)) 2 [2] := by
  have hget : fatGetEntry (ramFs 512 1 32 1 1 2) (rootDisk e) 2 = fat32Eoc := by
    have hentry := u32_tableSector (fun _ => fat32Eoc) 0 (show 2 < 128 by decide)
    have hrun : fatGetEntry (ramFs 512 1 32 1 1 2) (rootDisk e) 2 =
        (tableSector (fun _ => fat32Eoc) 0).u32 (4 * 2) % 2 ^ 28 := rfl
    rw [hrun, hentry]
    rfl
  refine .last ?_
  rw [fatNext, hget]
  rfl

theorem chainEntries_rootDisk (e : Entry) :
    chainEntries (ramFs 512 1 32 1 1 2) (rootDisk e) 4096 2 =
      sectorEntries (Block.zero.setEntry 0 e) :=
  chainEntries_eq (fun _ => rfl) le_rfl (walk_rootDisk e) (by decide)

/-- The listing of the file, in a static buffer that is still blank. -/
theorem listsDirectory_listedA : ListsDirectory 300
    (liveLines .clear (dirEntries (ramFs 512 1 32 1 1 2) (rootDisk listedA) [2]))
    (Staged.fat32FormatDirListing (ramFs 512 1 32 1 1 2) (rootDisk listedA) 0 300 (fun _ => 0)
      fun _ => 1) := by
  have hread : ∀ s b, (ramFs 512 1 32 1 1 2).readBlocks (rootDisk listedA) s = some b →
      b = (rootDisk listedA).sectors s := fun s b h => (Option.some.inj h).symm
  have hclus : (if 0 < 2 then (ramFs 512 1 32 1 1 2).rootCluster else 0) = 2 := rfl
  refine (listsDirectory_iff hread hclus le_rfl (walk_rootDisk listedA) le_rfl fun _ => 0).mpr
    ⟨.inr rfl, .inl ?_⟩ _
  rw [chainEntries_eq (fun _ => rfl) le_rfl (walk_rootDisk listedA) (by decide)]

/-- What the listing of the root directory leaves in the static buffer. -/
def stagingAfter (e : Entry) : ℕ → UInt8 :=
  (Staged.fat32FormatDirListing (ramFs 512 1 32 1 1 2) (rootDisk e) 0 300 (fun _ => 0)
    fun _ => 0).staging

/-- `ls`, `rm A`, `ls`: the second listing has no line, and hands out the blank that the first one
has left, without a terminator. -/
theorem not_listsDirectory_stale : ¬ ListsDirectory 300
    (liveLines .clear (dirEntries (ramFs 512 1 32 1 1 2) (rootDisk deletedA) [2]))
    (Staged.fat32FormatDirListing (ramFs 512 1 32 1 1 2) (rootDisk deletedA) 0 300
      (stagingAfter listedA) fun _ => 1) := by
  intro h
  have hclus : (if 0 < 2 then (ramFs 512 1 32 1 1 2).rootCluster else 0) = 2 := rfl
  have hline : liveLines .clear (chainEntries (ramFs 512 1 32 1 1 2) (rootDisk listedA) 4096 2) ≠ [] := by
    rw [chainEntries_rootDisk]
    decide
  have hnone :
      liveLines .clear (chainEntries (ramFs 512 1 32 1 1 2) (rootDisk deletedA) 4096 2) = [] := by
    rw [chainEntries_rootDisk]
    decide
  have hstale : stagingAfter listedA 0 = blank :=
    staging_of_line hclus le_rfl (walk_rootDisk listedA) le_rfl _ _ hline
  have hlen := not_terminated hclus le_rfl (walk_rootDisk deletedA) (le_refl 300) (stagingAfter listedA)
    hnone (by rw [hstale]; decide)
  exact absurd h.terminated (by rw [hlen]; decide)

end PsychWard.Fat32
