import PsychWard.Rootserver.State

/-!
# Loading and starting a process

`load_elf_from_disk`, `map_frame_robust`, `spawn_process` and `generic_recover_process` of
`main.cpp`. `spawn_process` is cut into its stages: the CNode with the capabilities of the process,
the address space, the segments of the image, the pages of a driver's device, and the thread.

The contents of the pages that are filled through the temporary windows are left out.
-/

namespace PsychWard.Rootserver

open Program (onlyIf)

variable {K : Type} (sel4 : SeL4 K) (boot : Boot)

/-! ## Reading an image -/

/-- The size of `elf_staging_buffer`. -/
def stagingSize : ℕ := 1024 * 1024

/-- `seL4_Call(blk_ep)` with `SYS_READ_FILE`. -/
def readRequest (filename : CString) (offset : ℕ) : RootM K ReadAnswer := fun r =>
  match sel4.callBlk r.kernel filename offset with
  | none => .error .blocked
  | some (a, k) => .ok (a, { r with kernel := k })

theorem run_readRequest (filename : CString) (offset : ℕ) (r : Root K) :
    (readRequest sel4 filename offset).run r =
      match sel4.callBlk r.kernel filename offset with
      | none => .error .blocked
      | some (a, k) => .ok (a, { r with kernel := k }) := rfl

/-- The loop of `load_elf_from_disk`. Every turn that goes on adds a byte, so the fuel is enough. -/
def loadLoop (filename : CString) : ℕ → List ℕ → RootM K (Option (List ℕ))
  | 0, _ => throw .outOfBounds
  | fuel + 1, loaded => do
    let a ← readRequest sel4 filename loaded.length
    if a.status ≠ 0 then pure none
    else if a.bytesRead = 0 then pure (some loaded)
    else if a.bytesRead < 0 ∨ stagingSize < loaded.length + a.bytesRead.toNat then
      throw .outOfBounds
    else loadLoop filename fuel (loaded ++ (List.range a.bytesRead.toNat).map a.window)

/-- `load_elf_from_disk`: the bytes of the file, or `none` for the result -1. -/
def loadElfFromDisk (filename : CString) : RootM K (Option (List ℕ)) :=
  loadLoop sel4 (filename.take 63) (stagingSize + 1) []

/-! ## Mapping -/

/-- Allocate a page table object of one level and map it where the level is missing. -/
def addTable (pid : ℕ) (type : ObjectType) (map : ℕ → Invocation) : RootM K PUnit := do
  let table ← allocAndTrackCap pid
  let err ← sys sel4 (.untypedRetype type 0 table)
  onlyIf (err = .noError) do
    let _ ← sys sel4 (map table)

/-- The second half of `map_frame_robust`: build the tables on the way to `vaddr` and map again. -/
def mapWithTables (pid frame vspace vaddr : ℕ) : RootM K SeL4Error := do
  addTable sel4 pid .pageUpperDirectory (.pageUpperDirectoryMap · vspace vaddr)
  addTable sel4 pid .pageDirectory (.pageDirectoryMap · vspace vaddr)
  addTable sel4 pid .pageTable (.pageTableMap · vspace vaddr)
  sys sel4 (.pageMap frame vspace vaddr)

/-- `map_frame_robust`. -/
def mapFrameRobust (pid frame vspace vaddr : ℕ) : RootM K Bool := do
  let err ← sys sel4 (.pageMap frame vspace vaddr)
  if err = .failedLookup then
    let err ← mapWithTables sel4 pid frame vspace vaddr
    pure (err = .noError)
  else pure (err = .noError)

/-! ## Starting a process -/

/-- What `spawn_process` is told about the role of a process. A capability of value 0 is absent. -/
structure Role where
  isDriver : ℤ
  consoleEp : ℕ
  timerEp : ℕ
  blkEp : ℕ
  irqNtfn : ℕ := 0
  irqHandler : ℕ := 0
  hwFrame : ℕ := 0
  netCmdRecvEp : ℕ := 0
  netCmdSendEp : ℕ := 0

/-- Give a process a capability of the rootserver in a slot of its CNode, if there is one: a copy,
or one with the PID of the process as its badge. -/
def giveCap (cnode slot cap : ℕ) (badge : Option ℕ) : RootM K PUnit := do
  if cap = 0 then pure ⟨⟩
  else match badge with
    | none =>
      let err ← sys sel4 (.cnodeCopy (childSlot cnode slot) (boot.rootSlot cap))
      checkErr err
    | some badge =>
      let err ← sys sel4 (.cnodeMint (childSlot cnode slot) (boot.rootSlot cap) badge)
      checkErr err

/-- The capabilities of the rootserver that a process starts with. -/
def giveCaps (pid childCNode badgedEp : ℕ) (role : Role) : RootM K PUnit := do
  giveCap sel4 boot childCNode 10 badgedEp none
  giveCap sel4 boot childCNode 1 role.consoleEp (if role.isDriver = 1 then none else some pid)
  giveCap sel4 boot childCNode 2 role.timerEp (if role.isDriver = 2 then none else some pid)
  giveCap sel4 boot childCNode 7 role.blkEp (if role.isDriver = 3 then none else some pid)
  giveCap sel4 boot childCNode 3 role.netCmdSendEp (some pid)
  giveCap sel4 boot childCNode 4 role.irqHandler none
  giveCap sel4 boot childCNode 5 role.netCmdRecvEp none

/-- The fields of its block that a process gets with its CNode. -/
def Pcb.withRole (childCNode badgedEp : ℕ) (role : Role) (pcb : Pcb) : Pcb :=
  { pcb with
    cspace := childCNode
    badgedEp := badgedEp
    isDriver := role.isDriver
    irqNtfn := role.irqNtfn
    irqHandler := role.irqHandler
    hwFrame := role.hwFrame
    netCmdRecvEp := role.netCmdRecvEp
    netCmdSendEp := role.netCmdSendEp }

/-- The CNode of a process and the capabilities in it. -/
def spawnCSpace (pid : ℕ) (role : Role) : RootM K PUnit := do
  let childCNode ← allocAndTrackCap pid
  let _ ← sys sel4 (.untypedRetype .capTable 8 childCNode)
  let badgedEp ← allocAndTrackCap pid
  let _ ← sys sel4 (.cnodeMint (boot.rootSlot badgedEp) (boot.rootSlot boot.ep) pid)
  giveCaps sel4 boot pid childCNode badgedEp role
  setPcb pid (Pcb.withRole childCNode badgedEp role)

/-- The top-level page directory of a process and its first tables. -/
def spawnVSpace (pid : ℕ) : RootM K ℕ := do
  let childVspace ← allocAndTrackCap pid
  let childPud ← allocAndTrackCap pid
  let childPd ← allocAndTrackCap pid
  let childPt ← allocAndTrackCap pid
  let childPt2 ← allocAndTrackCap pid
  let _ ← sys sel4 (.untypedRetype .pageGlobalDirectory 0 childVspace)
  let _ ← sys sel4 (.untypedRetype .pageUpperDirectory 0 childPud)
  let _ ← sys sel4 (.untypedRetype .pageDirectory 0 childPd)
  let _ ← sys sel4 (.untypedRetype .pageTable 0 childPt)
  let _ ← sys sel4 (.untypedRetype .pageTable 0 childPt2)
  let _ ← sys sel4 (.asidPoolAssign childVspace)
  let _ ← sys sel4 (.pageUpperDirectoryMap childPud childVspace 0x400000)
  let _ ← sys sel4 (.pageDirectoryMap childPd childVspace 0x400000)
  let _ ← sys sel4 (.pageTableMap childPt childVspace 0x400000)
  let _ ← sys sel4 (.pageTableMap childPt2 childVspace 0x600000)
  setPcb pid fun pcb => { pcb with vmapBumpPointer := 0x60000000 }
  pure childVspace

/-- The pages `[vaddr & ~0xFFF, (vaddr + memsz + 0xFFF) & ~0xFFF)` of a segment, in 64-bit
arithmetic. -/
def ProgramHeader.pages (h : ProgramHeader) : List ℕ :=
  let pageStart := h.vaddr / 4096 * 4096
  let pageEnd := (h.vaddr + h.memsz + 0xFFF) % 2 ^ 64 / 4096 * 4096
  (List.range ((pageEnd - pageStart) / 4096)).map fun i => pageStart + 4096 * i

/-- Map one page of a segment. -/
def spawnPage (pid childVspace tempVaddr page : ℕ) : RootM K PUnit := do
  let frame ← allocAndTrackCap pid
  let _ ← sys sel4 (.untypedRetype .smallPage 0 frame)
  let _ ← sys sel4 (.pageMap frame boot.rootVspace tempVaddr)
  let _ ← sys sel4 (.pageCleanData frame)
  let _ ← sys sel4 (.pageUnmap frame)
  let _ ← sys sel4 (.pageMap frame childVspace page)

/-- The next address of a window that wraps around at its end. -/
def nextWindow (vaddr step base size : ℕ) : ℕ :=
  if base + size ≤ vaddr + step then base else vaddr + step

/-- The segments of the image, page by page. -/
def spawnSegments (pid childVspace : ℕ) (elf : Elf) : RootM K PUnit := do
  let r ← get
  modify fun r =>
    { r with elfTempVaddr := nextWindow r.elfTempVaddr 0x10000 0x200100000 0x100000 }
  forM (elf.headers.filter (·.isLoad)) fun h =>
    forM h.pages fun page => spawnPage sel4 boot pid childVspace r.elfTempVaddr page

/-- The page tables and the device pages of a driver. -/
def spawnDevice (pid childVspace vaddr : ℕ) (role : Role) : RootM K PUnit := do
  let drvPud ← allocAndTrackCap pid
  let drvPd ← allocAndTrackCap pid
  let drvPt ← allocAndTrackCap pid
  let err ← sys sel4 (.untypedRetype .pageUpperDirectory 0 drvPud)
  checkErr err
  let err ← sys sel4 (.untypedRetype .pageDirectory 0 drvPd)
  checkErr err
  let err ← sys sel4 (.untypedRetype .pageTable 0 drvPt)
  checkErr err
  let _ ← sys sel4 (.pageUpperDirectoryMap drvPud childVspace vaddr)
  let _ ← sys sel4 (.pageDirectoryMap drvPd childVspace vaddr)
  let _ ← sys sel4 (.pageTableMap drvPt childVspace vaddr)
  forM (List.range (if role.isDriver = 3 ∨ role.isDriver = 4 then 4 else 1)) fun i => do
    let frameChild ← allocAndTrackCap pid
    let err ← sys sel4 (.cnodeCopy (boot.rootSlot frameChild) (boot.rootSlot (role.hwFrame + i)))
    checkErr err
    let err ← sys sel4 (.pageMap frameChild childVspace (vaddr + i * 4096))
    checkErr err

/-- The stack, the IPC buffer and the thread of a process, which then starts to run. -/
def spawnThread (pid childVspace devVaddr : ℕ) (role : Role) (entry : ℕ) : RootM K PUnit := do
  let stackFrame ← allocAndTrackCap pid
  let ipcFrame ← allocAndTrackCap pid
  let _ ← sys sel4 (.untypedRetype .smallPage 0 stackFrame)
  let _ ← sys sel4 (.untypedRetype .smallPage 0 ipcFrame)
  let r ← get
  modify fun r => { r with ipcTempVaddr := nextWindow r.ipcTempVaddr 0x1000 0x200800000 0x100000 }
  let err ← sys sel4 (.pageMap ipcFrame boot.rootVspace r.ipcTempVaddr)
  checkErr err
  onlyIf (0 < role.isDriver ∧ role.isDriver ≤ 4) do
    spawnDevice sel4 boot pid childVspace devVaddr role
  let _ ← sys sel4 (.pageCleanData ipcFrame)
  let err ← sys sel4 (.pageUnmap ipcFrame)
  checkErr err
  let err ← sys sel4 (.pageMap stackFrame childVspace 0x500000)
  checkErr err
  let err ← sys sel4 (.pageMap ipcFrame childVspace 0x501000)
  checkErr err
  let tcb ← allocAndTrackCap pid
  setPcb pid fun pcb => { pcb with tcb := tcb, vspace := childVspace }
  let _ ← sys sel4 (.untypedRetype .tcb 0 tcb)
  let r ← get
  let _ ← sys sel4 (.tcbConfigure tcb 10 (r.pcbs pid).cspace childVspace (0x501000 + 2048) ipcFrame)
  let _ ← sys sel4 (.tcbWriteRegisters tcb
    { pc := entry, sp := 0x500000 + 4096, x0 := (r.pcbs pid).badgedEp, x1 := 0x501000,
      x2 := boot.medEp, tpidr := 0x501000 + 3072 })
  let _ ← sys sel4 (.tcbSetTLSBase tcb (0x501000 + 3072))
  let _ ← sys sel4 (.tcbSetPriority tcb 254)
  onlyIf (role.isDriver = 1 ∨ role.isDriver = 2) do
    let err ← sys sel4 (.tcbBindNotification tcb role.irqNtfn)
    checkErr err
  let _ ← sys sel4 (.tcbResume tcb)

/-- The block of a process that has just been given its PID. -/
def Pcb.fresh (name : CString) : Pcb := { name := name.take 31, active := true }

/-- Everything `spawn_process` does for a process once it has a PID and a block of its own. -/
def spawnBody (pid : ℕ) (image : List ℕ) (role : Role) : RootM K PUnit := do
  spawnCSpace sel4 boot pid role
  let childVspace ← spawnVSpace sel4 pid
  spawnSegments sel4 boot pid childVspace (boot.elf image)
  spawnThread sel4 boot pid childVspace (boot.hwVaddr role.isDriver) role (boot.elf image).entry

/-- `spawn_process`: the PID of the new process, or -1. -/
def spawnProcess (name : CString) (elfData : Option (List ℕ)) (role : Role) : RootM K ℤ := do
  match elfData.orElse fun _ => boot.cpioGetFile name with
  | none => pure (-1)
  | some image =>
    let r ← get
    match r.freePid with
    | none => pure (-1)
    | some pid =>
      setPcb pid fun _ => Pcb.fresh name
      spawnBody sel4 boot pid image role
      pure pid

/-! ## Recovery -/

/-- Wake a process that waits for `pid`, without returning the slot of its reply capability. -/
def wakeAndDrop (pid i : ℕ) : RootM K PUnit := do
  let r ← get
  onlyIf ((r.pcbs i).active ∧ (r.pcbs i).waitingFor = pid) do
    setPcb i fun pcb => { pcb with waitingFor := 0 }
    answer sel4 boot (r.pcbs i).replyCap [0]
    setPcb i fun pcb => { pcb with replyCap := 0 }

/-- Revoke and delete a capability and return its slot. -/
def releaseCap (cap : ℕ) : RootM K PUnit := do
  let _ ← sys sel4 (.cnodeRevoke (boot.rootSlot cap))
  let _ ← sys sel4 (.cnodeDelete (boot.rootSlot cap))
  freeSlot cap

/-- Delete a copied capability, unless it is 0, and return its slot. -/
def dropCopy (cap : ℕ) : RootM K PUnit :=
  onlyIf (cap ≠ 0) do
    let _ ← sys sel4 (.cnodeDelete (boot.rootSlot cap))
    freeSlot cap

/-- The slots `generic_recover_process` releases: the tracked ones, but not the address space that a
thread shares with its parent. -/
def Pcb.released (pcb : Pcb) : List ℕ :=
  pcb.capTracker.filter fun cap => ¬ (pcb.IsThread ∧ cap = pcb.vspace)

/-- `if (tcb) { suspend; unbind }`. -/
def stopThread (pcb : Pcb) : RootM K PUnit := do
  let _ ← sys sel4 (.tcbSuspend pcb.tcb)
  onlyIf (pcb.irqNtfn ≠ 0) do
    let _ ← sys sel4 (.tcbUnbindNotification pcb.tcb)

/-- The role in which `generic_recover_process` starts a component again. -/
def respawnRole (pcb : Pcb) : Role where
  isDriver := pcb.isDriver
  consoleEp := boot.consoleEp
  timerEp := boot.timerEp
  blkEp := boot.blkEp
  irqNtfn := pcb.irqNtfn
  irqHandler := pcb.irqHandler
  hwFrame := pcb.hwFrame
  netCmdRecvEp := pcb.netCmdRecvEp
  netCmdSendEp := pcb.netCmdSendEp

/-- The part of `generic_recover_process` that takes the failed process apart. -/
def tearDown (pid : ℕ) (old : Pcb) : RootM K PUnit := do
  forM pids (wakeAndDrop sel4 boot pid)
  onlyIf (old.tcb ≠ 0) (stopThread sel4 old)
  forM old.released (releaseCap sel4 boot)
  setPcb pid fun pcb => { pcb with capTracker := [] }
  onlyIf old.hasShm (forM (List.range 4) fun i => dropCopy sel4 boot (old.shmCopies i))

/-- `generic_recover_process`. -/
def genericRecoverProcess (pid : ℤ) : RootM K PUnit := do
  let r ← get
  if pid ≤ 0 ∨ 256 ≤ pid ∨ (r.pcbs pid.toNat).active = false then pure ⟨⟩
  else
    let old := r.pcbs pid.toNat
    tearDown sel4 boot pid.toNat old
    onlyIf old.Critical do
      let _ ← spawnProcess sel4 boot old.name none (respawnRole boot old)
    setPcb pid.toNat fun pcb => { pcb with active := false }

end PsychWard.Rootserver
