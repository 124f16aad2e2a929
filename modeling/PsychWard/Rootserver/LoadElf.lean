import PsychWard.Blk.Server
import PsychWard.Fat32.Overwrite
import PsychWard.Rootserver.Dispatch

/-!
# Reading a program from the disk

`load_elf_from_disk` asks the block driver for a file page by page. The window carries the file's
name to the driver and the page back, so the name is written again for every request. Here the
driver's own request loop answers the calls of the rootserver.
-/

namespace PsychWard.Rootserver

open Fat32 (Fat32Instance Disk Geometry resolveTarget lookup volume sectorsFrom readChainData
  fat32ReadFile cString)
open Blk

/-- `strncpy(shm, filename, 63); shm[63] = '\0';` -/
def putFilename (shm : Memory) (filename : Fat32.CString) : Memory :=
  (shm.put 0 (filename.take 63 ++ List.replicate (63 - filename.length) 0)).put 63 [0]

/-- A call with `SYS_READ_FILE`, from the name in the window to the answer. -/
def callReadFile (dma : ℕ → List UInt8) (k : BlkState × Memory) (filename : CString) (offset : ℕ) :
    Option (ReadAnswer × (BlkState × Memory)) :=
  match serve k.1 ⟨119, offset⟩ (dma offset) (putFilename k.2 (filename.map UInt8.ofNat)) with
  | (reply, s, shm) =>
    some (⟨reply.getD 0 0, reply.getD 1 0, fun i => (shm i).toNat⟩, (s, shm))

/-- A system whose read requests go to the block driver. -/
def withBlk (sel4 : SeL4 (BlkState × Memory)) (dma : ℕ → List UInt8) : SeL4 (BlkState × Memory) :=
  { sel4 with callBlk := callReadFile dma }

/-- The file at a path that fits the window has the contents `data`. -/
structure FileAt (fs : Fat32Instance) (d : Disk) (path : Fat32.CString) (data : List UInt8) :
    Prop where
  length_le : path.length ≤ 63
  nul : 0 ∉ path
  found : ∃ p name f, resolveTarget fs d path = some (p, name) ∧ lookup fs d p name = some f ∧
    f.size = data.length ∧ (data ≠ [] → ∃ l, (volume fs d).forest.Chain f.clus l ∧
      f.size ≤ 512 * (l.length * fs.sectorsPerCluster) ∧
      data = ((volume fs d).content (sectorsFrom fs.sectorsPerCluster l 0)).take f.size)

theorem cString_append_zeros {l : Fat32.CString} (h : 0 ∉ l) (n : ℕ) :
    cString (l ++ List.replicate n 0) = l := by
  have hpos : ∀ a ∈ l, decide (a ≠ 0) = true := fun a ha =>
    decide_eq_true fun h' : a = 0 => h (h' ▸ ha)
  rw [cString, List.takeWhile_append_of_pos hpos]
  cases n <;> simp [List.replicate_succ]

/-- The driver finds the name it was given. -/
theorem memStr_putFilename {filename : Fat32.CString} (hlen : filename.length ≤ 63)
    (h0 : 0 ∉ filename) (shm : Memory) : memStr (putFilename shm filename) 0 64 = filename := by
  have htotal : (filename.take 63 ++ List.replicate (63 - filename.length) (0 : UInt8)).length = 63 := by
    rw [List.length_append, List.length_replicate, List.length_take]
    omega
  have hbytes : (putFilename shm filename).bytes 0 63 =
      filename ++ List.replicate (63 - filename.length) 0 := by
    rw [putFilename, Memory.bytes_put_of_le (by omega), Memory.bytes_put htotal.ge,
      List.take_of_length_le htotal.le, List.take_of_length_le hlen]
  rw [memStr, hbytes, cString_append_zeros h0]

/-- The name has room in the window, and the loop starts at the first byte. -/
theorem loadElfFromDisk_of_fileAt {K : Type} (sel4 : SeL4 K) {fs : Fat32Instance} {d : Disk}
    {filename : Fat32.CString} {data : List UInt8} (h : FileAt fs d filename data) :
    loadElfFromDisk sel4 (filename.map UInt8.toNat) =
      loadLoop sel4 (filename.map UInt8.toNat) (stagingSize + 1)
        ((data.take 0).map UInt8.toNat) := by
  rw [loadElfFromDisk, List.take_of_length_le (by rw [List.length_map]; exact h.length_le)]
  rfl

section Run

variable {s : BlkState} (g : Geometry s.fs) {filename : Fat32.CString} {data : List UInt8}

include g

/-- A request yields the next page of the file, or nothing at its end. -/
theorem fat32ReadFile_fileAt (h : FileAt s.fs s.disk filename data) {o : ℕ} :
    fat32ReadFile s.fs s.disk filename o = some ((data.drop o).take 4096) := by
  obtain ⟨p, name, f, hres, hlook, hsize, hdata⟩ := h.found
  rw [lookup] at hlook
  rw [fat32ReadFile, hres]
  simp only [hlook]
  by_cases ho : f.size ≤ o
  · rw [if_pos ho, List.drop_eq_nil_of_le (by omega)]
    rfl
  · have hne : data ≠ [] := fun hnil => ho (by rw [hsize, hnil]; exact Nat.zero_le _)
    obtain ⟨l, hchain, -, hcontent⟩ := hdata hne
    have hcopied : readChainData s.fs s.disk f.clus o (min (f.size - o) 4096) =
        (data.drop o).take 4096 := by
      rw [g.readChainData_spec hchain, hcontent, List.drop_take, List.take_take,
        Fat32.fat32MaxIoChunk, Nat.min_assoc, Nat.min_self, Nat.min_comm]
    have hpos : (data.drop o).take 4096 ≠ [] := by
      rw [← List.length_pos_iff, List.length_take, List.length_drop]
      omega
    rw [if_neg ho, hcopied, if_neg hpos]

/-- The answer to a request: the next page, with the driver as it was. -/
theorem callReadFile_fileAt (h : FileAt s.fs s.disk filename data) (dma : ℕ → List UInt8)
    (shm : Memory) {o : ℕ} (ho : o < 2 ^ 32) : ∃ (window : ℕ → ℕ) (shm' : Memory),
      callReadFile dma (s, shm) (filename.map UInt8.toNat) o =
        some (⟨0, ((data.drop o).take 4096).length, window⟩, (s, shm')) ∧
      (List.range ((data.drop o).take 4096).length).map window =
        ((data.drop o).take 4096).map UInt8.toNat := by
  have hname : (filename.map UInt8.toNat).map UInt8.ofNat = filename := by
    rw [List.map_map]
    exact (List.map_congr_left fun b _ => UInt8.ofNat_toNat).trans (List.map_id _)
  have hread := fat32ReadFile_fileAt g h (o := o)
  rw [← memStr_putFilename h.length_le h.nul shm] at hread
  set page := (data.drop o).take 4096 with hpage
  have hserve : serve s ⟨119, o⟩ (dma o) (putFilename shm filename) =
      ([0, (page.length : ℤ)], s, ((putFilename shm filename).put 0 (dma o)).put 0 page) := by
    simp only [serve, Nat.mod_eq_of_lt ho, hread]
    rfl
  refine ⟨_, _, by simp only [callReadFile, hname, hserve]; rfl, ?_⟩
  -- the window holds the page from its first byte on
  have hbytes := Memory.bytes_put (m := (putFilename shm filename).put 0 (dma o)) (i := 0)
    (l := page) (le_refl page.length)
  rw [List.take_length, Memory.bytes] at hbytes
  simp only [Nat.zero_add] at hbytes
  rw [← congrArg (List.map UInt8.toNat) hbytes, List.map_map]
  rfl

variable (sel4 : SeL4 (BlkState × Memory)) (dma : ℕ → List UInt8)

/-- One turn of the loop from a position in the file. -/
theorem loadLoop_succ (h : FileAt s.fs s.disk filename data) (fuel : ℕ) {o : ℕ}
    (ho : o ≤ data.length) (ho' : o < 2 ^ 32) (r : Root (BlkState × Memory)) (hr : r.kernel.1 = s) :
    ∃ shm', (loadLoop (withBlk sel4 dma) (filename.map UInt8.toNat) (fuel + 1)
      ((data.take o).map UInt8.toNat)).run r =
        if o = data.length then .ok (some (data.map UInt8.toNat), { r with kernel := (s, shm') })
        else if stagingSize < o + min 4096 (data.length - o) then .error .outOfBounds
        else (loadLoop (withBlk sel4 dma) (filename.map UInt8.toNat) fuel
          ((data.take (o + min 4096 (data.length - o))).map UInt8.toNat)).run
            { r with kernel := (s, shm') } := by
  obtain ⟨⟨s', shm⟩, alloc, pcbs, pipes, ready, wait, sleeper, elfTemp, ipcTemp, cloneTemp⟩ := r
  obtain rfl : s' = s := hr
  have hlen : ((data.take o).map UInt8.toNat).length = o := by
    rw [List.length_map, List.length_take, Nat.min_eq_left ho]
  obtain ⟨window, shm', hcall, hwindow⟩ := callReadFile_fileAt g h dma shm ho'
  have hpage : ((data.drop o).take 4096).length = min 4096 (data.length - o) := by
    rw [List.length_take, List.length_drop]
  refine ⟨shm', ?_⟩
  rw [loadLoop, Program.run_bind, run_readRequest, hlen]
  simp only [withBlk, hcall]
  rcases Nat.eq_or_lt_of_le ho with rfl | hlt
  · rw [if_neg (by simp), if_pos (by rw [hpage]; simp), if_pos rfl, List.take_length]
    rfl
  · rw [if_neg (by simp), if_neg (by rw [hpage]; omega), if_neg hlt.ne, Int.toNat_natCast, hwindow,
      hpage]
    by_cases hfull : stagingSize < o + min 4096 (data.length - o)
    · rw [if_pos (.inr hfull), if_pos hfull]
      rfl
    · rw [if_neg (by omega), if_neg hfull, ← List.map_append]
      -- the bytes loaded so far and the page behind them
      have hjoin : data.take o ++ (data.drop o).take 4096 =
          data.take (o + min 4096 (data.length - o)) := by
        rw [List.take_add, List.append_cancel_left_eq, List.take_eq_take_iff, List.length_drop]
        omega
      rw [hjoin]

/-- From any position in the file the loop goes on to its end. -/
theorem loadLoop_from (h : FileAt s.fs s.disk filename data) (hsize : data.length ≤ stagingSize)
    (fuel o : ℕ) (ho : o ≤ data.length) (hfuel : data.length - o < fuel)
    (r : Root (BlkState × Memory)) (hr : r.kernel.1 = s) :
    ∃ shm', (loadLoop (withBlk sel4 dma) (filename.map UInt8.toNat) fuel
      ((data.take o).map UInt8.toNat)).run r =
        .ok (some (data.map UInt8.toNat), { r with kernel := (s, shm') }) := by
  induction fuel generalizing o r with
  | zero => omega
  | succ fuel ih =>
    obtain ⟨shm', hrun⟩ := loadLoop_succ g sel4 dma h fuel ho
      (by rw [stagingSize] at hsize; omega) r hr
    rcases Nat.eq_or_lt_of_le ho with heq | hlt
    · exact ⟨shm', by rw [hrun, if_pos heq]⟩
    · rw [hrun, if_neg hlt.ne, if_neg (by omega)]
      exact ih _ (by omega) (by omega) _ rfl

/-- A longer file fills the buffer and does not stop there. -/
theorem loadLoop_overrun (h : FileAt s.fs s.disk filename data) (hsize : stagingSize < data.length)
    (fuel o : ℕ) (ho : o ≤ stagingSize) (hfuel : stagingSize - o < fuel)
    (r : Root (BlkState × Memory)) (hr : r.kernel.1 = s) :
    (loadLoop (withBlk sel4 dma) (filename.map UInt8.toNat) fuel
      ((data.take o).map UInt8.toNat)).run r = .error .outOfBounds := by
  induction fuel generalizing o r with
  | zero => omega
  | succ fuel ih =>
    obtain ⟨shm', hrun⟩ := loadLoop_succ g sel4 dma h fuel (ho.trans hsize.le)
      (by rw [stagingSize] at ho; omega) r hr
    rw [hrun, if_neg (by omega)]
    by_cases hfull : stagingSize < o + min 4096 (data.length - o)
    · rw [if_pos hfull]
    · rw [if_neg hfull]
      exact ih _ (by omega) (by omega) _ rfl

/-- A file of at most 1 MiB is read to its end, byte for byte. -/
theorem loadElfFromDisk_eq (h : FileAt s.fs s.disk filename data) (hsize : data.length ≤ stagingSize)
    (r : Root (BlkState × Memory)) (hr : r.kernel.1 = s) :
    ∃ shm', (loadElfFromDisk (withBlk sel4 dma) (filename.map UInt8.toNat)).run r =
      .ok (some (data.map UInt8.toNat), { r with kernel := (s, shm') }) := by
  rw [loadElfFromDisk_of_fileAt _ h]
  exact loadLoop_from g sel4 dma h hsize _ 0 (Nat.zero_le _) (by omega) r hr

end Run

/-- A kernel that grants every request. -/
def obliging : SeL4 (BlkState × Memory) where
  invoke k _ := (.noError, k)
  callBlk _ _ _ := none
  pageAddress _ _ := 0
  rtc _ := 0

/-- A volume with the file `F` of 4100 bytes in the clusters 3 to 11; its bytes count up in every
sector. -/
def pagesDisk : Disk where
  sectors s :=
    if s = 1 then
      (List.range' 3 8).foldl (fun b c => b.putU32 (4 * c) (c + 1)) (Fat32.tableOf [2, 11])
    else if s = 2 then
      Fat32.Block.zero.setEntry 0 (Fat32.shortEntry (Fat32.formatFat32Name [70]) 0x20 3 4100)
    else fun i => UInt8.ofNat (s + i)
  log := []

/-- What the file holds. -/
def pages : List UInt8 :=
  ((volume Fat32.tinyFs pagesDisk).content (sectorsFrom 1 (List.range' 3 9) 0)).take 4100

theorem length_pages : pages.length = 4100 := by
  rw [pages, List.length_take, Fat32.Volume.length_content]
  decide

theorem fileAt_pages : FileAt Fat32.tinyFs pagesDisk [70] pages := by
  have hchain : (volume Fat32.tinyFs pagesDisk).forest.Chain 3 (List.range' 3 9) :=
    Fat32.Volume.chain_of_chainOk
      (show (volume Fat32.tinyFs pagesDisk).ChainOk (List.range' 3 9) by decide +kernel)
  refine ⟨by decide, by decide, 2, [70], ⟨2, 0, 3, 4100⟩, by decide +kernel, by decide +kernel,
    length_pages.symm, fun _ => ⟨_, hchain, by decide, rfl⟩⟩

/-- The file is read in two requests. -/
theorem loadElfFromDisk_pagesDisk : pages.length = 4100 ∧
    ∃ shm', (loadElfFromDisk (withBlk obliging fun _ => []) ([70].map UInt8.toNat)).run
      (blank (⟨Fat32.tinyFs, pagesDisk⟩, fun _ => 0) ⟨0, 0, []⟩) =
      .ok (some (pages.map UInt8.toNat), { blank
        ((⟨Fat32.tinyFs, pagesDisk⟩, fun _ => 0) : BlkState × Memory) ⟨0, 0, []⟩ with
        kernel := (⟨Fat32.tinyFs, pagesDisk⟩, shm') }) :=
  ⟨length_pages, loadElfFromDisk_eq (s := ⟨Fat32.tinyFs, pagesDisk⟩) Fat32.tinyFs_geometry obliging
    (fun _ => []) fileAt_pages (by rw [length_pages]; decide) _ rfl⟩

end PsychWard.Rootserver
