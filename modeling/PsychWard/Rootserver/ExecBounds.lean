import PsychWard.Rootserver.LibElf
import PsychWard.Rootserver.LoadElf
import PsychWard.Rootserver.LoadSegments

/-!
# Running a file of any size and content

`SYS_EXEC` reads a file into the staging buffer, has the ELF library check it and loads its
segments. The program headers are read by the accessors, as in `spawn_process`, and every read of
the image is logged. The loop itself is that of `LoadSegments` (`val_spawnHeaders`).

Neither the loader looks at the size of its buffer nor the loop at the size of the image:
`execInBounds_iff` says for which files both stay inside all the same.
-/

namespace PsychWard.Rootserver

open Traced
open Blk

/-! ## The loop over the program headers -/

/-- `copy_start` and `copy_end`. -/
def Segment.copyStart (h : Segment) (page : ℕ) : ℕ := if h.vaddr < page then page else h.vaddr

def Segment.copyEnd (h : Segment) (page : ℕ) : ℕ :=
  if (page + 4096) % 2 ^ 64 < (h.vaddr + h.filesz) % 2 ^ 64 then (page + 4096) % 2 ^ 64
  else (h.vaddr + h.filesz) % 2 ^ 64

/-- What `memcpy` reads of the image to fill a page. -/
def Segment.copyReads (h : Segment) (page : ℕ) : List ImageRead :=
  if h.copyStart page < h.copyEnd page then
    [⟨(h.offset + (h.copyStart page - h.vaddr)) % 2 ^ 64, h.copyEnd page - h.copyStart page⟩]
  else []

/-- `loadPage` with its reads: a page is filled once it has a frame. -/
def loadPageReads (h : Segment) (st : Loading) (page : ℕ) : ImageM (Option Loading) := fun image =>
  (loadPage image h st page,
    if (loadPage image h st page).isSome then h.copyReads page else [])

/-- The loop over the pages of a segment. -/
def loadPagesReads (h : Segment) : List ℕ → Loading → ImageM (Option Loading)
  | [], st => pure (some st)
  | page :: pages, st => andThen (loadPageReads h st page) fun st => loadPagesReads h pages st

/-- `PT_LOAD`. -/
def ptLoad : ℕ := 1

/-- The loop over the program headers with the given indices. -/
def spawnHeaders (elf : ElfT) : List ℕ → Loading → ImageM (Option Loading)
  | [], st => pure (some st)
  | i :: is, st => do
    let type ← elfGetProgramHeaderType elf i
    if type = ptLoad then
      let vaddr ← elfGetProgramHeaderVaddr elf i
      let filesz ← elfGetProgramHeaderFileSize elf i
      let memsz ← elfGetProgramHeaderMemorySize elf i
      let offset ← elfGetProgramHeaderOffset elf i
      let h : Segment := ⟨⟨true, vaddr, memsz⟩, offset, filesz⟩
      andThen (loadPagesReads h h.pages st) fun st => spawnHeaders elf is st
    else spawnHeaders elf is st

/-- What `spawn_process` reads of its image: it is checked once more, and loaded. `st` is what the
loop over the segments starts from. -/
def spawnImage (elfSize : ℕ) (st : Loading) : ImageM (Option Loading) :=
  andThen (elfNewFile elfSize) fun elf => do
    let _ ← elfGetEntryPoint elf
    let num ← elfGetNumProgramHeaders elf
    spawnHeaders elf (List.range num) st

/-- `SYS_EXEC` once the file is in the staging buffer: `none` where no process starts. -/
def execImage (elfSize : ℕ) (st : Loading) : ImageM (Option Loading) :=
  if elfSize = 0 then pure none
  else andThen (elfNewFile elfSize) fun _ => spawnImage elfSize st

/-- `SYS_EXEC` of a file writes only into the staging buffer and reads only the image. The buffer
holds what earlier images and the memory behind it have left there. -/
structure ExecInBounds {K : Type} (sel4 : SeL4 K) (filename : CString) (r : Root K)
    (buffer : Memory) (st : Loading) : Prop where
  loader : (loadElfFromDisk sel4 filename).run r ≠ .error .outOfBounds
  image : ∀ data t, (loadElfFromDisk sel4 filename).run r = .ok (some data, t) →
    WithinOn (ImageRead.Inside data.length) (execImage data.length st)
      (buffer.put 0 (data.map UInt8.ofNat))

/-! ## The program headers of an image -/

/-- Program header `i` as the loop sees it. -/
def ElfT.segment (elf : ElfT) (image : Memory) (i : ℕ) : Segment where
  isLoad := decide ((elfGetProgramHeaderType elf i).val image = ptLoad)
  vaddr := (elfGetProgramHeaderVaddr elf i).val image
  memsz := (elfGetProgramHeaderMemorySize elf i).val image
  offset := (elfGetProgramHeaderOffset elf i).val image
  filesz := (elfGetProgramHeaderFileSize elf i).val image

/-- The program headers. -/
def ElfT.segments (elf : ElfT) (image : Memory) : List Segment :=
  (List.range ((elfGetNumProgramHeaders elf).val image)).map (elf.segment image)

/-- The number of bytes a segment takes from the image when its first `n` pages have a frame. A
segment whose file part ends behind the last address takes none. -/
def Segment.taken (h : Segment) (n : ℕ) : ℕ :=
  if h.vaddr + h.filesz < 2 ^ 64 then min h.filesz (4096 * n - h.vaddr % 4096) else 0

/-- A segment takes its bytes from an image of `size` bytes, if it takes any. -/
def Segment.FitsIn (h : Segment) (size n : ℕ) : Prop :=
  h.taken n = 0 ∨ h.offset + h.taken n ≤ size

/-- The segments take their bytes from the image as long as the frames last. -/
def FitIn (size : ℕ) : ℕ → List Segment → Prop
  | _, [] => True
  | room, h :: hs =>
    h.FitsIn size (min room h.pages.length) ∧ FitIn size (room - h.pages.length) hs

instance (h : Segment) (size n : ℕ) : Decidable (h.FitsIn size n) :=
  inferInstanceAs (Decidable (_ ∨ _))

instance decidableFitIn (size : ℕ) : ∀ room hs, Decidable (FitIn size room hs)
  | _, [] => .isTrue trivial
  | room, h :: hs =>
    have := decidableFitIn size (room - h.pages.length) hs
    inferInstanceAs (Decidable (_ ∧ _))

/-! ## The pages of a segment -/

variable {size n : ℕ} {image : Memory} {h : Segment} {st : Loading} {elf : ElfT}

theorem val_loadPagesReads (pages : List ℕ) :
    (loadPagesReads h pages st).val image = pages.foldlM (loadPage image h) st := by
  induction pages generalizing st with
  | nil => rfl
  | cons page pages ih =>
    rw [loadPagesReads, val_andThen, List.foldlM_cons]
    exact Option.bind_congr fun st' _ => ih

/-- The loop fills pages as long as there are frames. -/
theorem withinOn_loadPagesReads (hst : st.Sound) (pages : List ℕ) :
    WithinOn (ImageRead.Inside size) (loadPagesReads h pages st) image ↔
      ∀ page ∈ pages.take st.room, ∀ e ∈ h.copyReads page, e.Inside size := by
  induction pages generalizing st with
  | nil => simp [loadPagesReads, withinOn_pure]
  | cons page pages ih =>
    rw [loadPagesReads, withinOn_andThen]
    rcases Nat.eq_zero_or_pos st.room with h0 | h0
    · have hnone : loadPageReads h st page image = (none, []) := by
        rw [loadPageReads, Loading.loadPage_of_full h0]
        rfl
      simp [WithinOn, log, val, hnone, h0]
    · obtain ⟨st', hload, hst', hroom, -⟩ := Loading.loadPage_of_room image h page hst h0
      have hsome : loadPageReads h st page image = (some st', h.copyReads page) := by
        rw [loadPageReads, hload]
        rfl
      have hrest : (∀ a, (loadPageReads h st page).val image = some a →
          WithinOn (ImageRead.Inside size) (loadPagesReads h pages a) image) ↔
            ∀ p ∈ pages.take (st.room - 1), ∀ e ∈ h.copyReads p, e.Inside size := by
        rw [← hroom, ← ih hst']
        simp [val, hsome]
      rw [hrest, show st.room = st.room - 1 + 1 by omega, List.take_succ_cons, List.forall_mem_cons]
      simp [WithinOn, log, hsome]

/-- The fields of a program header have at most 64 bits. -/
structure Segment.Fields (h : Segment) : Prop where
  vaddr : h.vaddr < 2 ^ 64
  offset : h.offset < 2 ^ 64
  filesz : h.filesz < 2 ^ 64

/-- The bytes up to `d` and those from there to `d'` lie in the image if all of them do. -/
theorem taken_step {o f d d' : ℕ} (ho : o < 2 ^ 64) (hsize : size < 2 ^ 63) (hd : d < d') :
    (min f d = 0 ∨ o + min f d ≤ size) ∧
      (d < min d' f → (o + d) % 2 ^ 64 + (min d' f - d) ≤ size) ↔
    (min f d' = 0 ∨ o + min f d' ≤ size) := by
  rcases Nat.lt_or_ge d f with hlt | hge
  · have hmin : d < min d' f := Nat.lt_min.mpr ⟨hd, hlt⟩
    rw [Nat.min_eq_right hlt.le, Nat.min_comm f d']
    generalize min d' f = m at hmin ⊢
    constructor
    · rintro ⟨h0 | hle, hcopy⟩
      · subst h0
        have hcopy' := hcopy hmin
        rw [Nat.add_zero, Nat.mod_eq_of_lt ho] at hcopy'
        exact .inr (by omega)
      · have hcopy' := hcopy hmin
        rw [Nat.mod_eq_of_lt (by omega)] at hcopy'
        exact .inr (by omega)
    · rintro (h0 | hle)
      · omega
      · refine ⟨.inr (by omega), fun _ => ?_⟩
        rw [Nat.mod_eq_of_lt (by omega)]
        omega
  · rw [Nat.min_eq_left hge, Nat.min_eq_left (hge.trans hd.le)]
    refine and_iff_left fun h => absurd (Nat.lt_min.mp h).2 (Nat.not_lt.mpr hge)

/-- One more page takes the next bytes. -/
theorem Segment.fitsIn_succ (hf : h.Fields) (hsize : size < 2 ^ 63) (hn : n < h.pages.length) :
    h.FitsIn size n ∧ (∀ e ∈ h.copyReads (h.vaddr / 4096 * 4096 + 4096 * n), e.Inside size) ↔
      h.FitsIn size (n + 1) := by
  obtain ⟨hv, ho, hfs⟩ := hf
  -- a page of a segment ends below the last address
  have hpage : h.vaddr / 4096 * 4096 + 4096 * n + 4096 < 2 ^ 64 := by
    rw [ProgramHeader.pages, List.length_map, List.length_range] at hn
    omega
  have hd : 4096 * n - h.vaddr % 4096 < 4096 * (n + 1) - h.vaddr % 4096 := by omega
  have hfirst : max (h.vaddr / 4096 * 4096 + 4096 * n) h.vaddr =
      h.vaddr + (4096 * n - h.vaddr % 4096) := by omega
  have hlast : h.vaddr / 4096 * 4096 + 4096 * n + 4096 =
      h.vaddr + (4096 * (n + 1) - h.vaddr % 4096) := by omega
  obtain ⟨page, hp⟩ : ∃ page, page = h.vaddr / 4096 * 4096 + 4096 * n := ⟨_, rfl⟩
  rw [← hp] at hpage hfirst hlast ⊢
  have hstart : h.copyStart page = h.vaddr + (4096 * n - h.vaddr % 4096) := by
    rw [Segment.copyStart, ← hfirst]
    split <;> omega
  have hreads : (∀ e ∈ h.copyReads page, e.Inside size) ↔
      (h.copyStart page < h.copyEnd page →
        (h.offset + (h.copyStart page - h.vaddr)) % 2 ^ 64 + (h.copyEnd page - h.copyStart page) ≤
          size) := by
    rw [Segment.copyReads]
    by_cases hcopy : h.copyStart page < h.copyEnd page
    · simp [hcopy, ImageRead.Inside]
    · simp [hcopy]
  rw [hreads, hstart, Segment.FitsIn, Segment.FitsIn, Segment.taken, Segment.taken]
  generalize 4096 * n - h.vaddr % 4096 = d at hd hfirst
  generalize 4096 * (n + 1) - h.vaddr % 4096 = d' at hd hlast
  by_cases hend : h.vaddr + h.filesz < 2 ^ 64
  · have hcopyEnd : h.copyEnd page = h.vaddr + min d' h.filesz := by
      rw [Segment.copyEnd, Nat.mod_eq_of_lt hpage, Nat.mod_eq_of_lt hend, hlast]
      split <;> omega
    rw [if_pos hend, if_pos hend, hcopyEnd, Nat.add_lt_add_iff_left, Nat.add_sub_cancel_left,
      Nat.add_sub_add_left]
    exact taken_step ho hsize hd
  · -- the end of the file part has wrapped around and lies in front of it
    have hback : (h.vaddr + h.filesz) % 2 ^ 64 < h.vaddr := by
      rw [Nat.mod_eq_sub_mod (by omega), Nat.mod_eq_of_lt (by omega)]
      omega
    have hcopyEnd : h.copyEnd page < h.vaddr := by
      rw [Segment.copyEnd]
      split <;> omega
    refine iff_of_true ⟨.inl (if_neg hend), fun hcopy => ?_⟩ (.inl (if_neg hend))
    omega

/-- The first pages of a segment are filled from the image. -/
theorem Segment.copyReads_inside_iff (hf : h.Fields) (hsize : size < 2 ^ 63)
    (hn : n ≤ h.pages.length) :
    (∀ page ∈ h.pages.take n, ∀ e ∈ h.copyReads page, e.Inside size) ↔ h.FitsIn size n := by
  have htake : h.pages.take n =
      (List.range n).map fun i => h.vaddr / 4096 * 4096 + 4096 * i := by
    rw [ProgramHeader.pages, List.length_map, List.length_range] at hn
    rw [ProgramHeader.pages, ← List.map_take, List.take_range, Nat.min_eq_left hn]
  rw [htake, List.forall_mem_map]
  clear htake
  induction n with
  | zero => simp [Segment.FitsIn, Segment.taken]
  | succ n ih =>
    rw [List.range_succ, List.forall_mem_append, List.forall_mem_singleton,
      ← Segment.fitsIn_succ hf hsize hn]
    exact and_congr_left' (ih (Nat.le_of_succ_le hn))

/-! ## The whole image -/

theorem ElfT.segment_fields (elf : ElfT) (image : Memory) (i : ℕ) :
    (elf.segment image i).Fields :=
  ⟨val_programHeaderField_lt, val_programHeaderField_lt, val_programHeaderField_lt⟩

/-- Without frames nothing is taken. -/
theorem fitIn_zero (hs : List Segment) : FitIn size 0 hs := by
  induction hs with
  | nil => trivial
  | cons h hs ih =>
    refine ⟨.inl ?_, by rwa [Nat.zero_sub]⟩
    rw [Segment.taken, Nat.zero_min]
    split <;> simp

/-- A `PT_LOAD` header, by its fields. -/
theorem ElfT.segment_of_ptLoad {i : ℕ}
    (hpt : (elfGetProgramHeaderType elf i).val image = ptLoad) : elf.segment image i =
      ⟨⟨true, (elfGetProgramHeaderVaddr elf i).val image,
        (elfGetProgramHeaderMemorySize elf i).val image⟩,
        (elfGetProgramHeaderOffset elf i).val image,
        (elfGetProgramHeaderFileSize elf i).val image⟩ := by
  rw [ElfT.segment, decide_eq_true hpt]

theorem filter_segments_cons (i : ℕ) (is : List ℕ) :
    ((i :: is).map (elf.segment image)).filter (·.isLoad) =
      if (elfGetProgramHeaderType elf i).val image = ptLoad then
        elf.segment image i :: (is.map (elf.segment image)).filter (·.isLoad)
      else (is.map (elf.segment image)).filter (·.isLoad) := by
  rw [List.map_cons, List.filter_cons]
  have hload : (elf.segment image i).isLoad = true ↔
      (elfGetProgramHeaderType elf i).val image = ptLoad := decide_eq_true_iff
  by_cases hpt : (elfGetProgramHeaderType elf i).val image = ptLoad
  · rw [if_pos hpt, if_pos (hload.mpr hpt)]
  · rw [if_neg hpt, if_neg fun h => hpt (hload.mp h)]

/-- The loop over the program headers is that of `LoadSegments`. -/
theorem val_spawnHeaders (is : List ℕ) : (spawnHeaders elf is st).val image =
    loadSegments image (is.map (elf.segment image)) st := by
  induction is generalizing st with
  | nil => rfl
  | cons i is ih =>
    rw [loadSegments, filter_segments_cons, spawnHeaders, val_bind, val_ite]
    by_cases hpt : (elfGetProgramHeaderType elf i).val image = ptLoad
    · rw [if_pos hpt, if_pos hpt, List.foldlM_cons, ElfT.segment_of_ptLoad hpt]
      rw [val_bind, val_bind, val_bind, val_bind, val_andThen, val_loadPagesReads]
      exact Option.bind_congr fun st' _ => ih
    · rw [if_neg hpt, if_neg hpt, ih, loadSegments]

/-- The loop over the program headers of an accepted image. -/
theorem withinOn_spawnHeaders (hc : elf.Checked size image) (hsize : size < 2 ^ 63)
    (hst : st.Sound) (is : List ℕ) (his : ∀ i ∈ is, i < (elfGetNumProgramHeaders elf).val image) :
    WithinOn (ImageRead.Inside size) (spawnHeaders elf is st) image ↔
      FitIn size st.room ((is.map (elf.segment image)).filter (·.isLoad)) := by
  induction is generalizing st with
  | nil => exact iff_of_true (withinOn_pure _) trivial
  | cons i is ih =>
    obtain ⟨hi, his⟩ := List.forall_mem_cons.mp his
    obtain ⟨htype, hoffset, hvaddr, hfilesz, hmemsz⟩ := elf.elfClass.programFields_le
    have hread : ∀ {k l}, k + l ≤ elf.layout.phdrSize →
        WithinOn (ImageRead.Inside size) (programHeaderField elf k l i) image := fun h =>
      withinOn_programHeaderField hc hi h
    have htype' : WithinOn (ImageRead.Inside size) (elfGetProgramHeaderType elf i) image :=
      hread (by omega)
    rw [filter_segments_cons, spawnHeaders, withinOn_bind, and_iff_right htype', withinOn_ite]
    by_cases hpt : (elfGetProgramHeaderType elf i).val image = ptLoad
    · have hv : WithinOn (ImageRead.Inside size) (elfGetProgramHeaderVaddr elf i) image :=
        hread hvaddr
      have hf : WithinOn (ImageRead.Inside size) (elfGetProgramHeaderFileSize elf i) image :=
        hread hfilesz
      have hm : WithinOn (ImageRead.Inside size) (elfGetProgramHeaderMemorySize elf i) image :=
        hread hmemsz
      have ho : WithinOn (ImageRead.Inside size) (elfGetProgramHeaderOffset elf i) image :=
        hread hoffset
      rw [if_pos hpt, FitIn, and_iff_left fun h => absurd hpt h, withinOn_bind, and_iff_right hv,
        withinOn_bind, and_iff_right hf, withinOn_bind, and_iff_right hm, withinOn_bind,
        and_iff_right ho, ← ElfT.segment_of_ptLoad hpt]
      simp only [forall_prop_of_true hpt, withinOn_andThen]
      rw [withinOn_loadPagesReads hst, List.take_eq_take_min, val_loadPagesReads,
        Segment.copyReads_inside_iff (elf.segment_fields image i) hsize (Nat.min_le_right _ _)]
      refine and_congr_right' ?_
      -- the next headers have the frames that are left, or the loop has stopped
      rcases Loading.loadPages image (elf.segment image i) hst (elf.segment image i).pages with
        ⟨st', hrun, -, hst', hroom, -⟩ | ⟨hrun, hlt⟩
      · rw [hrun, ← hroom, ← ih hst' his]
        simp
      · rw [hrun, Nat.sub_eq_zero_of_le hlt.le]
        exact iff_of_true (fun a h => by cases h) (fitIn_zero _)
    · rw [if_neg hpt, and_iff_right fun h => absurd h hpt, ← ih hst his]
      exact ⟨fun h => h hpt, fun h _ => h⟩

/-- What `SYS_EXEC` reads of an image lies in the image exactly if the segments do. -/
theorem withinOn_execImage (hsize : size < 2 ^ 63) (hst : st.Sound) :
    WithinOn (ImageRead.Inside size) (execImage size st) image ↔
      ∀ elf, (elfNewFile size).val image = some elf →
        FitIn size st.room ((elf.segments image).filter (·.isLoad)) := by
  rw [execImage, withinOn_ite]
  by_cases h0 : size = 0
  · refine iff_of_true ⟨fun _ => withinOn_pure _, fun h => absurd h0 h⟩ fun elf helf => ?_
    have hheader := (checked_of_elfNewFile helf).header
    have hpos : 4 ≤ elf.layout.ehdrSize := elf.elfClass.fields_le.1
    omega
  · rw [and_iff_right fun h => absurd h h0, forall_prop_of_true h0, withinOn_andThen,
      and_iff_right withinOn_elfNewFile]
    refine forall_congr' fun elf => forall_congr' fun helf => ?_
    have hc := checked_of_elfNewFile helf
    rw [spawnImage, withinOn_andThen, and_iff_right withinOn_elfNewFile, helf]
    simp only [Option.some.injEq, forall_eq']
    have hentry : WithinOn (ImageRead.Inside size) (elfGetEntryPoint elf) image :=
      withinOn_headerField hc.header
    have hnum : WithinOn (ImageRead.Inside size) (elfGetNumProgramHeaders elf) image :=
      withinOn_headerField hc.header
    rw [withinOn_bind, and_iff_right hentry, withinOn_bind, and_iff_right hnum,
      withinOn_spawnHeaders hc hsize hst _ fun i hi => List.mem_range.mp hi, ElfT.segments]

section Exec

variable {s : BlkState} (g : Fat32.Geometry s.fs) {filename : Fat32.CString} {data : List UInt8}
  (sel4 : SeL4 (BlkState × Memory)) (dma : ℕ → List UInt8)

include g

/-- A file that fits is loaded whole, so the image is the file. -/
theorem execInBounds_of_le (h : FileAt s.fs s.disk filename data)
    (hsize : data.length ≤ stagingSize) (r : Root (BlkState × Memory)) (hr : r.kernel.1 = s)
    (buffer : Memory) :
    ExecInBounds (withBlk sel4 dma) (filename.map UInt8.toNat) r buffer st ↔
      WithinOn (ImageRead.Inside data.length) (execImage data.length st) (buffer.put 0 data) := by
  obtain ⟨shm', hrun⟩ := loadLoop_from g sel4 dma h hsize (stagingSize + 1) 0 (Nat.zero_le _)
    (by omega) r hr
  have hdata : (data.map UInt8.toNat).map UInt8.ofNat = data := by
    rw [List.map_map]
    exact (List.map_congr_left fun b _ => UInt8.ofNat_toNat).trans (List.map_id _)
  rw [← loadElfFromDisk_of_fileAt _ h] at hrun
  constructor
  · intro hb
    have hreads := hb.image _ _ hrun
    rwa [List.length_map, hdata] at hreads
  · intro hreads
    refine ⟨by rw [hrun]; nofun, fun data' t hrun' => ?_⟩
    cases hrun.symm.trans hrun'
    rwa [List.length_map, hdata]

/-- A longer file is written behind the buffer. -/
theorem not_execInBounds_of_lt (h : FileAt s.fs s.disk filename data)
    (hsize : stagingSize < data.length) (r : Root (BlkState × Memory)) (hr : r.kernel.1 = s)
    (buffer : Memory) :
    ¬ ExecInBounds (withBlk sel4 dma) (filename.map UInt8.toNat) r buffer st := by
  have hrun := loadLoop_overrun g sel4 dma h hsize (stagingSize + 1) 0 (Nat.zero_le _) (by omega)
    r hr
  rw [← loadElfFromDisk_of_fileAt _ h] at hrun
  exact fun hb => hb.loader hrun

/-- `SYS_EXEC` stays in the staging buffer and in the image exactly if the file has at most 1 MiB
and, where the ELF library accepts it, the segments take their bytes from the file. -/
theorem execInBounds_iff (h : FileAt s.fs s.disk filename data) (r : Root (BlkState × Memory))
    (hr : r.kernel.1 = s) (buffer : Memory) (hst : st.Sound) :
    ExecInBounds (withBlk sel4 dma) (filename.map UInt8.toNat) r buffer st ↔
      data.length ≤ stagingSize ∧
        ∀ elf, (elfNewFile data.length).val (buffer.put 0 data) = some elf →
          FitIn data.length st.room ((elf.segments (buffer.put 0 data)).filter (·.isLoad)) := by
  rcases Nat.lt_or_ge stagingSize data.length with hlong | hsize
  · exact iff_of_false (not_execInBounds_of_lt g sel4 dma h hlong r hr buffer) fun h' =>
      absurd h'.1 (Nat.not_le.mpr hlong)
  · rw [execInBounds_of_le g sel4 dma h hsize r hr buffer, and_iff_right hsize]
    exact withinOn_execImage (by rw [stagingSize] at hsize; omega) hst

end Exec

/-! ## A small image -/

/-- A 64-bit number in memory. -/
def number64 (n : ℕ) : List UInt8 := (List.range 8).map fun i => UInt8.ofNat (n / 2 ^ (8 * i))

/-- A 64-bit image of 184 bytes: the header, one `PT_LOAD` header for a byte at `0x400000`, taken
from `offset`, and one empty section header. -/
def byteImage (offset : ℕ) : List UInt8 :=
  [0x7F, 0x45, 0x4C, 0x46, 2, 1, 1, 0, 0, 0, 0, 0, 0, 0, 0, 0, 2, 0, 183, 0, 1, 0, 0, 0] ++
  number64 0x400000 ++ number64 64 ++ number64 120 ++
  [0, 0, 0, 0, 64, 0, 56, 0, 1, 0, 64, 0, 1, 0, 0, 0] ++
  [1, 0, 0, 0, 5, 0, 0, 0] ++ number64 offset ++ number64 0x400000 ++ number64 0x400000 ++
  number64 1 ++ number64 1 ++ number64 4096 ++ List.replicate 64 0

/-- A volume with the file `F`, which has the given contents in cluster 3. -/
def imageDisk (image : List UInt8) : Fat32.Disk where
  sectors s :=
    if s = 3 then Fat32.Block.ofList image
    else (Fat32.fileDisk (Fat32.shortEntry (Fat32.formatFat32Name [70]) 0x20 3 image.length)
      [2, 3]).sectors s
  log := []

/-- The file with the image that takes its last byte, and the one that takes a byte behind the
staging buffer. -/
theorem fileAt_byteImage {offset : ℕ} (h : offset = 183 ∨ offset = stagingSize) :
    FileAt Fat32.tinyFs (imageDisk (byteImage offset)) [70] (byteImage offset) := by
  have hok : (Fat32.volume Fat32.tinyFs (imageDisk (byteImage offset))).ChainOk [3] := by
    rcases h with rfl | rfl <;> decide +kernel
  refine ⟨by decide, by decide, 2, [70], ⟨2, 0, 3, (byteImage offset).length⟩, ?_, ?_, rfl,
    fun _ => ⟨[3], Fat32.Volume.chain_of_chainOk hok, ?_, ?_⟩⟩
  · rcases h with rfl | rfl <;> decide +kernel
  · rcases h with rfl | rfl <;> decide +kernel
  · rcases h with rfl | rfl <;> decide +kernel
  · rcases h with rfl | rfl <;> decide +kernel

/-- The image that takes its last byte. -/
theorem execInBounds_lastByte :
    ExecInBounds (withBlk obliging fun _ => []) ([70].map UInt8.toNat)
      (blank (⟨Fat32.tinyFs, imageDisk (byteImage 183)⟩, fun _ => 0) ⟨0, 0, []⟩) (fun _ => 0)
      spawned := by
  have hfile : FileAt Fat32.tinyFs (imageDisk (byteImage 183)) [70] (byteImage 183) :=
    fileAt_byteImage (.inl rfl)
  have hsound : spawned.Sound := ⟨by decide, by decide⟩
  have hiff := execInBounds_iff (s := ⟨Fat32.tinyFs, imageDisk (byteImage 183)⟩)
    Fat32.tinyFs_geometry obliging (fun _ => []) hfile
    (blank (⟨Fat32.tinyFs, imageDisk (byteImage 183)⟩, fun _ => 0) ⟨0, 0, []⟩) rfl (fun _ => 0)
    hsound
  refine hiff.mpr ⟨by decide +kernel, fun elf helf => ?_⟩
  have heval : (elfNewFile (byteImage 183).length).val (Memory.put (fun _ => 0) 0 (byteImage 183)) =
      some ⟨184, .elf64⟩ := by decide +kernel
  obtain rfl := Option.some.inj (heval.symm.trans helf)
  decide +kernel

/-- An image that the library accepts takes a byte behind the staging buffer. -/
theorem not_execInBounds : ¬ ∀ (s : BlkState) (filename : Fat32.CString) (data : List UInt8)
    (sel4 : SeL4 (BlkState × Memory)) (dma : ℕ → List UInt8) (r : Root (BlkState × Memory))
    (buffer : Memory) (st : Loading), Fat32.Geometry s.fs → FileAt s.fs s.disk filename data →
      r.kernel.1 = s → st.Sound →
        ExecInBounds (withBlk sel4 dma) (filename.map UInt8.toNat) r buffer st := by
  intro h
  have hfile : FileAt Fat32.tinyFs (imageDisk (byteImage stagingSize)) [70]
      (byteImage stagingSize) := fileAt_byteImage (.inr rfl)
  have hbounds := h ⟨Fat32.tinyFs, imageDisk (byteImage stagingSize)⟩ [70] _ obliging (fun _ => [])
    (blank (⟨Fat32.tinyFs, imageDisk (byteImage stagingSize)⟩, fun _ => 0) ⟨0, 0, []⟩) (fun _ => 0)
    spawned Fat32.tinyFs_geometry hfile rfl ⟨by decide, by decide⟩
  rw [execInBounds_of_le Fat32.tinyFs_geometry obliging (fun _ => []) hfile (by decide +kernel)
    _ rfl] at hbounds
  have hread := hbounds ⟨stagingSize, 1⟩ (by decide +kernel)
  exact absurd hread (by decide +kernel)

end PsychWard.Rootserver
