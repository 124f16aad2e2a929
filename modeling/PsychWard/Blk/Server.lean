import PsychWard.Common.Memory
import PsychWard.Fat32.Listing

/-!
# The block driver's requests

The request loop of `blk_driver.cpp`. Its clients put a path into the window of shared memory, call
the driver with a command, and find text or file data in the window when the call returns. The
driver's sector transfers use the first 512 bytes of the same window: what the transfers of a request
leave there is the parameter `dma`.
-/

namespace PsychWard.Blk

open Fat32

/-- `my_strlcpy(dest, m + i, cap)`: the string at offset `i`, at most `cap - 1` bytes of it. -/
def memStr (m : Memory) (i cap : ℕ) : CString := cString (m.bytes i (cap - 1))

/-- What the driver keeps between requests: the mounted instance and the disk behind it. -/
structure BlkState where
  fs : Fat32Instance
  disk : Disk

/-- The message registers of a reply. -/
abbrev Reply := List ℤ

/-- `0` or `-1` -/
def statusReply (ok : Bool) : Reply := [if ok then 0 else -1]

/-- The directory that `SYS_LS` lists, or the text it answers instead. -/
def lsTarget (fs : Fat32Instance) (d : Disk) (path : CString) : CString ⊕ ℕ :=
  let r := fat32ResolveParent fs d path
  let dirCluster :=
    if path = [] then
      if fs.currentDirCluster = 0 then fs.rootCluster else fs.currentDirCluster
    else if r.2 = [] then r.1
    else fat32FindInDir fs d r.1 r.2
  if path ≠ [] ∧ r.1 = notFound then .inl (ascii "ls: path not found\n")
  else if dirCluster = notFound then .inl (ascii "ls: directory not found\n")
  else .inr (orRoot fs dirCluster)

/-- A request: the command in `MR0` and its argument in `MR1`. -/
structure Request where
  cmd : ℕ
  arg : ℕ

/-- One round of the loop of `main`: the reply, the driver and the window after it. -/
def serve (s : BlkState) (r : Request) (dma : List UInt8) (shm : Memory) :
    Reply × BlkState × Memory :=
  let path := memStr shm 0 64
  let after := shm.put 0 dma
  if r.cmd = 110 then -- SYS_LS
    match lsTarget s.fs s.disk path with
    | .inl text => ([0], s, after.put 0 (text ++ [0]))
    | .inr dirCluster =>
      match fat32FormatDirListing s.fs s.disk dirCluster (0x1000 - 8) with
      | none => ([0], s, (shm.put 0 [0]).put 0 dma)
      | some text => ([0], s, after.put 0 (text ++ [0]))
  else if r.cmd = 119 then -- SYS_READ_FILE
    match fat32ReadFile s.fs s.disk path (r.arg % 2 ^ 32) with
    | none => ([-1, 0], s, after)
    | some copied => ([0, copied.length], s, after.put 0 copied)
  else if r.cmd = 112 then -- SYS_TOUCH
    let res := fat32CreateFile s.fs s.disk path
    (statusReply res.1, { s with disk := res.2 }, after)
  else if r.cmd = 113 then -- SYS_WRITE_FILE
    let len := min (r.arg % 2 ^ 32) 4096
    let text := shm.bytes 128 len
    let res := fat32WriteFile s.fs s.disk path text
    (statusReply res.1, { s with disk := res.2 },
      ((shm.put 0x2000 (List.replicate 4096 0)).put 0x2000 text).put 0 dma)
  else if r.cmd = 114 then -- SYS_READ_TEXT_FILE
    match fat32ReadTextFile s.fs s.disk path with
    | none => ([-1], s, after)
    | some copied => ([0], s, after.put 0 (copied ++ [0]))
  else if r.cmd = 120 then -- SYS_RM
    let res := fat32DeleteFile s.fs s.disk path
    (statusReply res.1, { s with disk := res.2 }, after)
  else if r.cmd = 116 then -- SYS_RENAME
    let res := fat32RenameFile s.fs s.disk (memStr shm 0 32) (memStr shm 128 32)
    (statusReply res.1, { s with disk := res.2 }, after)
  else if r.cmd = 117 then -- SYS_MKDIR
    let res := fat32Mkdir s.fs s.disk path
    (statusReply res.1, { s with disk := res.2 }, after)
  else if r.cmd = 118 then -- SYS_CD
    let res := fat32Cd s.fs s.disk path
    (statusReply res.1, { s with fs := res.2 }, after)
  else ([], s, shm)

end PsychWard.Blk
