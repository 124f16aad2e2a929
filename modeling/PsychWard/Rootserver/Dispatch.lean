import PsychWard.Rootserver.Spawn

/-!
# The event loop

One turn of the loop of `main`: a message arrives on the rootserver's endpoint, the badge tells who
sent it, and the handler of the fault or of the system call runs. The handlers are named after the
cases of the switch.
-/

namespace PsychWard.Rootserver

open Program (onlyIf)

/-- The label of a message: a fault the kernel reports, or anything else, which the code takes for
a system call. -/
inductive Label
  | vmFault | capFault | other
  deriving DecidableEq

/-- What `seL4_Recv` delivers. -/
structure Message where
  badge : ℕ
  label : Label := .other
  length : ℕ := 2
  mr : ℕ → ℕ

/-- `is_pipe_call`. -/
def isPipeCall (badge : ℕ) : Prop := pipeBaseBadge ≤ badge ∧ badge < pipeBaseBadge + maxPipes

instance (badge : ℕ) : Decidable (isPipeCall badge) := inferInstanceAs (Decidable (_ ∧ _))

variable {K : Type} (sel4 : SeL4 K) (boot : Boot)

/-- The `sender_pid` of a badge; `none` when the message is ignored. -/
def Root.senderPid (r : Root K) (badge : ℕ) : Option ℕ :=
  if badge ≠ 0 ∧ ¬ isPipeCall badge then
    if 0 < badge % 2 ^ 16 ∧ badge % 2 ^ 16 < 256 ∧ (r.pcbs (badge % 2 ^ 16)).active then
      some (badge % 2 ^ 16)
    else none
  else some 0

/-! ## Faults -/

/-- The demand pager. -/
def pageFault (sender addr : ℕ) : RootM K PUnit := do
  let frame ← allocAndTrackCap sender
  let err ← sys sel4 (.untypedRetype .smallPage 0 frame)
  checkErr err
  let r ← get
  let err ← sys sel4 (.pageMap frame (r.pcbs sender).vspace (addr / 4096 * 4096))
  checkErr err
  reply sel4 []

/-- A fault that ends the process. -/
def fatalFault (sender : ℕ) : RootM K PUnit :=
  onlyIf (sender ≠ 0) (genericRecoverProcess sel4 boot sender)

/-- The handling of a VM fault. -/
def vmFault (sender : ℕ) (m : Message) : RootM K PUnit :=
  if 0x510000 ≤ m.mr 1 ∧ m.mr 1 < 0x600000 ∧ sender ≠ 0 then pageFault sel4 sender (m.mr 1)
  else if m.mr 1 = 0x12 then throw .endlessLoop
  else fatalFault sel4 boot sender

/-! ## Pipes -/

/-- Send the parked reader of a pipe a value and forget its reply capability. -/
def answerReader (i : ℕ) (value : ℤ) : RootM K PUnit := do
  let r ← get
  answer sel4 boot (r.pipes i).readerReplyCap [value]
  freeSlot (r.pipes i).readerReplyCap
  setPipe i fun p => { p with readerReplyCap := 0 }

/-- The first inactive pipe. -/
def Root.freePipe (r : Root K) : Option ℕ :=
  (List.range maxPipes).find? fun i => !(r.pipes i).active

/-- `case 20`, `SYS_PIPE`. -/
def sysPipe (sender : ℕ) (m : Message) : RootM K PUnit := do
  let r ← get
  match r.freePipe with
  | none => reply sel4 [-1]
  | some i =>
    setPipe i fun p =>
      { p with
        active := true
        buffer := []
        readerReplyCap := 0
        eof := false
        writerPid := sender
        ownerPid := sender }
    let slot := childSlot (r.pcbs sender).cspace (m.mr 1)
    let _ ← sys sel4 (.cnodeDelete slot)
    let err ← sys sel4 (.cnodeMint slot (boot.rootSlot boot.ep) (pipeBaseBadge + i))
    if err = .noError then reply sel4 [m.mr 1]
    else
      setPipe i fun p => { p with active := false }
      reply sel4 [-1]

/-- Store one byte if the buffer has room. -/
def Pipe.put (p : Pipe) (byte : ℕ) : Pipe :=
  if p.buffer.length < pipeSize then { p with buffer := p.buffer ++ [byte] } else p

/-- The bytes of a write: the low byte of the registers after the system call's number. -/
def Message.bytes (m : Message) : List ℕ := (List.range (m.length - 1)).map fun i => m.mr (i + 1) % 256

/-- The hand-off at the end of a write: a parked reader gets the first byte of the buffer. -/
def handOff (i : ℕ) : RootM K PUnit := do
  let r ← get
  match (r.pipes i).buffer with
  | [] => pure ⟨⟩
  | byte :: rest => onlyIf ((r.pipes i).readerReplyCap ≠ 0) do
    setPipe i fun p => { p with buffer := rest }
    answerReader sel4 boot i byte

/-- `case 8`: a write into a pipe; any other write is only acknowledged. -/
def sysPuts (m : Message) : RootM K PUnit := do
  onlyIf (isPipeCall m.badge) do
    let i := m.badge - pipeBaseBadge
    setPipe i fun p => m.bytes.foldl Pipe.put p
    handOff sel4 boot i
  reply sel4 []

/-- A read from a pipe. -/
def readPipe (i : ℕ) : RootM K PUnit := do
  let r ← get
  match (r.pipes i).buffer with
  | byte :: rest =>
    setPipe i fun p => { p with buffer := rest }
    reply sel4 [byte]
  | [] =>
    if (r.pipes i).eof then reply sel4 [0]
    else
      let cap ← allocSlot
      setPipe i fun p => { p with readerReplyCap := cap }
      let _ ← sys sel4 (.cnodeSaveCaller (boot.rootSlot cap))

/-- `case 6`, `SYS_READ`. -/
def sysRead (m : Message) : RootM K PUnit :=
  if isPipeCall m.badge then readPipe sel4 boot (m.badge - pipeBaseBadge) else reply sel4 [0]

/-- Set the end mark of a pipe and answer its parked reader. -/
def closeWriter (i : ℕ) : RootM K PUnit := do
  setPipe i fun p => { p with eof := true }
  let r ← get
  onlyIf ((r.pipes i).readerReplyCap ≠ 0) (answerReader sel4 boot i 0)

/-- `case 24`, `SYS_PIPE_WR_CLOSE`. -/
def sysPipeWrClose (m : Message) : RootM K PUnit := do
  onlyIf (isPipeCall m.badge) (closeWriter sel4 boot (m.badge - pipeBaseBadge))
  reply sel4 []

/-- `case 25`, `SYS_PIPE_CLOSE`. -/
def sysPipeClose (m : Message) : RootM K PUnit := do
  onlyIf (isPipeCall m.badge) do
    let i := m.badge - pipeBaseBadge
    setPipe i fun p => { p with active := false }
    let r ← get
    let owner := (r.pipes i).ownerPid
    onlyIf (0 < owner ∧ owner < 256 ∧ (r.pcbs owner).active) do
      let _ ← sys sel4 (.cnodeDelete (childSlot (r.pcbs owner).cspace pipeFdSlot))
  reply sel4 []

/-- End the output of a process: every active pipe it writes into is at its end. -/
def closePipesOf (pid : ℕ) : RootM K PUnit :=
  forM (List.range maxPipes) fun i => do
    let r ← get
    onlyIf ((r.pipes i).active ∧ (r.pipes i).writerPid = pid) (closeWriter sel4 boot i)

/-! ## Processes and threads -/

/-- `SYS_SLEEP`. -/
def sysSleep : RootM K PUnit := do
  let r ← get
  if r.sleeperWaiting then reply sel4 [-1]
  else
    let err ← sys sel4 (.cnodeSaveCaller (boot.rootSlot boot.sleeperReplySlot))
    if err = .noError then modify fun r => { r with sleeperWaiting := true } else reply sel4 [-1]

/-- `SYS_WAIT`. -/
def sysWait (sender : ℕ) (m : Message) : RootM K PUnit := do
  let r ← get
  let target := toInt32 (m.mr 1)
  if 0 < target ∧ target < 256 ∧ (r.pcbs target.toNat).active then
    setPcb sender fun pcb => { pcb with waitingFor := target }
    let cap ← allocSlot
    let _ ← sys sel4 (.cnodeSaveCaller (boot.rootSlot cap))
    setPcb sender fun pcb => { pcb with replyCap := cap }
  else reply sel4 [0]

/-- The block of a thread that has just been given its PID. -/
def Pcb.freshThread (parent : Pcb) : Pcb :=
  { name := shellThreadName, active := true, vspace := parent.vspace, cspace := parent.cspace }

/-- The thread of `SYS_CLONE` once it has a PID and a block of its own. -/
def cloneBody (sender pid : ℕ) (m : Message) : RootM K PUnit := do
  let tcb ← allocAndTrackCap pid
  let _ ← sys sel4 (.untypedRetype .tcb 0 tcb)
  let badgedEp ← allocAndTrackCap pid
  let _ ← sys sel4 (.cnodeMint (boot.rootSlot badgedEp) (boot.rootSlot boot.ep)
    (sender * 2 ^ 16 + pid))
  let r ← get
  let faultSlot := childSlot (r.pcbs sender).cspace (100 + pid)
  let _ ← sys sel4 (.cnodeDelete faultSlot)
  let _ ← sys sel4 (.cnodeCopy faultSlot (boot.rootSlot badgedEp))
  let ipcFrame ← allocAndTrackCap pid
  let _ ← sys sel4 (.untypedRetype .smallPage 0 ipcFrame)
  let r ← get
  modify fun r => { r with cloneTempVaddr := nextWindow r.cloneTempVaddr 0x1000 0x2001C0000 0x30000 }
  let _ ← sys sel4 (.pageMap ipcFrame boot.rootVspace r.cloneTempVaddr)
  let _ ← sys sel4 (.pageUnmap ipcFrame)
  let ipcVaddr := 0x700000 + pid * 4096
  let err ← sys sel4 (.pageMap ipcFrame (r.pcbs sender).vspace ipcVaddr)
  checkErr err
  let _ ← sys sel4 (.tcbConfigure tcb (100 + pid) (r.pcbs sender).cspace (r.pcbs sender).vspace
    (ipcVaddr + 2048) ipcFrame)
  let _ ← sys sel4 (.tcbSetPriority tcb 254)
  let _ ← sys sel4 (.tcbWriteRegisters tcb
    { pc := m.mr 1, sp := m.mr 9, x0 := m.mr 2, x1 := m.mr 3, x2 := m.mr 4, tpidr := ipcVaddr + 3072 })
  let _ ← sys sel4 (.tcbSetTLSBase tcb (ipcVaddr + 3072))
  setPcb pid fun pcb => { pcb with tcb := tcb, badgedEp := badgedEp, threadIpcFrame := ipcFrame }

/-- `SYS_CLONE`. -/
def sysClone (sender : ℕ) (m : Message) : RootM K PUnit := do
  let r ← get
  match r.freePid with
  | none => reply sel4 [-1]
  | some pid =>
    setPcb pid fun _ => Pcb.freshThread (r.pcbs sender)
    cloneBody sel4 boot sender pid m
    let pipe := toInt32 (m.mr 8)
    onlyIf (0 ≤ pipe ∧ pipe < maxPipes) (setPipe pipe.toNat fun p => { p with writerPid := pid })
    let r ← get
    let _ ← sys sel4 (.tcbResume (r.pcbs pid).tcb)
    reply sel4 [pid]

/-- Wake a process that waits for `pid` and return the slot of its reply capability. -/
def wake (pid i : ℕ) : RootM K PUnit := do
  let r ← get
  onlyIf ((r.pcbs i).active ∧ (r.pcbs i).waitingFor = pid) do
    setPcb i fun pcb => { pcb with waitingFor := 0 }
    answer sel4 boot (r.pcbs i).replyCap [0]
    freeSlot (r.pcbs i).replyCap
    setPcb i fun pcb => { pcb with replyCap := 0 }

/-- The end of a thread: stop it and release everything it was given. -/
def releaseThread (pid : ℕ) (pcb : Pcb) : RootM K PUnit := do
  let _ ← sys sel4 (.tcbSuspend pcb.tcb)
  onlyIf (pcb.threadIpcFrame ≠ 0) do
    let _ ← sys sel4 (.pageUnmap pcb.threadIpcFrame)
  forM pcb.capTracker (releaseCap sel4 boot)
  setPcb pid fun pcb => { pcb with capTracker := [], active := false }

/-- `case 105`, `SYS_THREAD_EXIT`. -/
def sysThreadExit (m : Message) : RootM K PUnit := do
  let thread := m.badge % 2 ^ 16
  let parent := m.badge / 2 ^ 16 % 2 ^ 16
  let r ← get
  onlyIf (0 < thread ∧ thread < 256 ∧ (r.pcbs thread).active) do
    closePipesOf sel4 boot thread
    onlyIf (0 < parent ∧ parent < 256) (wake sel4 boot thread parent)
    let r ← get
    onlyIf (r.pcbs thread).IsThread (releaseThread sel4 boot thread (r.pcbs thread))

/-- Delete the three capabilities of a process that `SYS_KILL` and `SYS_EXIT` delete. -/
def deleteProcess (pid : ℕ) (pcb : Pcb) : RootM K PUnit := do
  setPcb pid fun pcb => { pcb with active := false }
  let _ ← sys sel4 (.cnodeDelete (boot.rootSlot pcb.badgedEp))
  let _ ← sys sel4 (.cnodeDelete (boot.rootSlot pcb.tcb))
  onlyIf (pcb.vspace ≠ boot.rootVspace) do
    let _ ← sys sel4 (.cnodeDelete (boot.rootSlot pcb.vspace))

/-- `SYS_KILL`. -/
def sysKill (m : Message) : RootM K PUnit := do
  let r ← get
  let target := toInt32 (m.mr 1)
  if 0 < target ∧ target < 256 ∧ (r.pcbs target.toNat).active then
    if (r.pcbs target.toNat).Critical then genericRecoverProcess sel4 boot target
    else
      stopThread sel4 (r.pcbs target.toNat)
      deleteProcess sel4 boot target.toNat (r.pcbs target.toNat)
    reply sel4 [0]
  else reply sel4 [-1]

/-- `SYS_EXIT`. -/
def sysExit (sender : ℕ) : RootM K PUnit :=
  onlyIf (0 < sender) do
    closePipesOf sel4 boot sender
    forM pids (wake sel4 boot sender)
    let r ← get
    stopThread sel4 (r.pcbs sender)
    deleteProcess sel4 boot sender (r.pcbs sender)

/-- The bytes of consecutive message registers, in memory order. -/
def Message.regBytes (m : Message) (first count : ℕ) : List ℕ :=
  (List.range (8 * count)).map fun i => m.mr (first + i / 8) / 256 ^ (i % 8) % 256

/-- The name of `SYS_EXEC`: the text in registers 1 to 8 up to the first space. -/
def Message.appName (m : Message) : CString :=
  ((m.regBytes 1 8).take 63).takeWhile fun c => c ≠ 0 ∧ c ≠ 32

/-- `SYS_EXEC`. -/
def sysExec (m : Message) : RootM K PUnit := do
  let loaded ← loadElfFromDisk sel4 m.appName
  match loaded with
  | none => reply sel4 [-1]
  | some [] => reply sel4 [-1]
  | some image =>
    if boot.elfNewFile image then
      let newPid ← spawnProcess sel4 boot m.appName (some image)
        { isDriver := 254, consoleEp := boot.consoleEp, timerEp := boot.timerEp,
          blkEp := boot.blkEp, netCmdSendEp := boot.netCmdSendEp }
      reply sel4 [newPid]
    else reply sel4 [-2]

/-- The name of `SYS_RECOVER`: the text in registers 1 to 4. -/
def Message.driverName (m : Message) : CString := ((m.regBytes 1 4).take 31).takeWhile (· ≠ 0)

/-- `SYS_RECOVER`. -/
def sysRecover (m : Message) : RootM K PUnit := do
  let r ← get
  match pids.find? fun i => (r.pcbs i).active && (r.pcbs i).name = m.driverName with
  | none => reply sel4 [-1]
  | some pid =>
    genericRecoverProcess sel4 boot pid
    reply sel4 [0]

/-! ## Drivers and the shared window -/

/-- `all_drivers_ready`. -/
def Root.allDriversReady (r : Root K) : Bool :=
  r.driverReady 1 && r.driverReady 2 && r.driverReady 3 && r.driverReady 4

/-- `SYS_DRIVER_READY`. -/
def sysDriverReady (sender : ℕ) : RootM K PUnit := do
  let r ← get
  let drv := if 0 < sender then (r.pcbs sender).isDriver else 0
  onlyIf (1 ≤ drv ∧ drv ≤ 4) do
    modify fun r => { r with driverReady := Function.update r.driverReady drv.toNat true }
    let r ← get
    onlyIf (r.allDriversReady ∧ r.driverReadyWaitReply ≠ 0) do
      answer sel4 boot r.driverReadyWaitReply []
      freeSlot r.driverReadyWaitReply
      modify fun r => { r with driverReadyWaitReply := 0 }
  reply sel4 []

/-- `SYS_WAIT_ALL_DRIVERS_READY`. -/
def sysWaitAllDriversReady : RootM K PUnit := do
  let r ← get
  if r.allDriversReady then reply sel4 []
  else
    let cap ← allocSlot
    modify fun r => { r with driverReadyWaitReply := cap }
    let _ ← sys sel4 (.cnodeSaveCaller (boot.rootSlot cap))

/-- Copy one frame of the shared window into a process: a turn of the loop of `SYS_SHM_GET`. -/
def shareFrame (pid vaddr i : ℕ) : RootM K Bool := do
  let frameCopy ← allocSlot
  setPcb pid fun pcb => { pcb with shmCopies := Function.update pcb.shmCopies i frameCopy }
  if frameCopy = 0 then pure false
  else
    let err ← sys sel4 (.cnodeCopy (boot.rootSlot frameCopy) (boot.rootSlot (boot.shmFrames i)))
    if err = .noError then
      let r ← get
      mapFrameRobust sel4 pid frameCopy (r.pcbs pid).vspace (vaddr + i * 0x1000)
    else pure false

/-- The loop of `SYS_SHM_GET`, which stops at the first failure. -/
def shareFrames (pid vaddr : ℕ) : List ℕ → RootM K Bool
  | [] => pure true
  | i :: is => do
    let success ← shareFrame sel4 boot pid vaddr i
    if success then shareFrames pid vaddr is else pure false

/-- `SYS_SHM_GET`. The PID is the whole badge as an `int`. -/
def sysShmGet (m : Message) : RootM K PUnit := do
  let r ← get
  let pid := (toInt32 m.badge).toNat
  if pid = 0 ∨ 256 ≤ pid ∨ (r.pcbs pid).active = false then reply sel4 [0]
  else
    let vaddr := (r.pcbs pid).vmapBumpPointer
    setPcb pid fun pcb => { pcb with vmapBumpPointer := vaddr + 0x4000, hasShm := true }
    let success ← shareFrames sel4 boot pid vaddr [0, 1, 2, 3]
    if success then
      let r ← get
      let _ ← sys sel4 (.pageGetAddress (boot.shmFrames 0))
      reply sel4 [vaddr, sel4.pageAddress r.kernel (boot.shmFrames 0)]
    else
      let r ← get
      forM (List.range 4) fun i => dropCopy sel4 boot ((r.pcbs pid).shmCopies i)
      setPcb pid fun pcb => { pcb with hasShm := false, vmapBumpPointer := vaddr }
      reply sel4 [0]

/-! ## The loop -/

/-- The switch over the system call numbers. Calls that only print or report are answered at
once. -/
def syscall (sender : ℕ) (m : Message) : RootM K PUnit := do
  let r ← get
  match m.mr 0 with
  | 1 => reply sel4 [0]
  | 3 => reply sel4 [sel4.rtc r.kernel * 1000]
  | 4 => sysSleep sel4 boot
  | 5 => reply sel4 [0]
  | 6 => sysRead sel4 boot m
  | 7 => reply sel4 [0]
  | 8 => sysPuts sel4 boot m
  | 20 => sysPipe sel4 boot sender m
  | 24 => sysPipeWrClose sel4 boot m
  | 25 => sysPipeClose sel4 m
  | 99 => reply sel4 [0]
  | 100 => sysExec sel4 boot m
  | 101 => sysClone sel4 boot sender m
  | 102 => sysKill sel4 boot m
  | 103 => sysExit sel4 boot sender
  | 104 => reply sel4 [0]
  | 105 => sysThreadExit sel4 boot m
  | 106 => sysWait sel4 boot sender m
  | 107 => sysShmGet sel4 boot m
  | 108 => reply sel4 [sender]
  | 109 => sysDriverReady sel4 boot sender
  | 110 => sysWaitAllDriversReady sel4 boot
  | 117 => sysRecover sel4 boot m
  | _ => reply sel4 [-1]

/-- One turn of the loop for the message that `seL4_Recv` delivers. -/
def handle (m : Message) : RootM K PUnit := do
  let r ← get
  match r.senderPid m.badge with
  | none => pure ⟨⟩
  | some sender =>
    match m.label with
    | .vmFault => vmFault sel4 boot sender m
    | .capFault => fatalFault sel4 boot sender
    | .other => syscall sel4 boot sender m

/-- The rootserver comes back from a message in the state `r'`. -/
def Step (r : Root K) (m : Message) (r' : Root K) : Prop := (handle sel4 boot m).run r = .ok (⟨⟩, r')

/-- The state after a message, if the rootserver comes back to the loop. -/
def next (r : Root K) (m : Message) : Option (Root K) :=
  match (handle sel4 boot m).run r with
  | .ok (_, r') => some r'
  | .error _ => none

theorem step_of_next {r t : Root K} {m : Message} (h : next sel4 boot r m = some t) :
    Step sel4 boot r m t := by
  rw [next] at h
  cases hrun : (handle sel4 boot m).run r with
  | ok p =>
    rw [hrun] at h
    obtain rfl := Option.some.inj h
    exact hrun
  | error e =>
    rw [hrun] at h
    cases h

theorem step_get {r : Root K} {m : Message} (h : (next sel4 boot r m).isSome) :
    Step sel4 boot r m ((next sel4 boot r m).get h) :=
  step_of_next sel4 boot (Option.some_get h).symm

/-! ## Boot -/

/-- What `main` has for the drivers alone. -/
structure Devices where
  uartNtfn : ℕ
  uartIrqHandler : ℕ
  uartFrame : ℕ
  timerNtfn : ℕ
  timerIrqHandler : ℕ
  rtcFrame : ℕ
  virtioFrame : ℕ
  netCmdRecvEp : ℕ

/-- `"uart_driver"`. -/
def uartDriverName : CString :=
  [117, 97, 114, 116, 95, 100, 114, 105, 118, 101, 114]

/-- `"timer_driver"`. -/
def timerDriverName : CString :=
  [116, 105, 109, 101, 114, 95, 100, 114, 105, 118, 101, 114]

/-- `"blk_driver"`. -/
def blkDriverName : CString := [98, 108, 107, 95, 100, 114, 105, 118, 101, 114]

/-- `"net_driver"`. -/
def netDriverName : CString := [110, 101, 116, 95, 100, 114, 105, 118, 101, 114]

/-- The processes `main` starts before it serves requests, in order. -/
def bootProcesses (dev : Devices) : List (CString × Role) :=
  [(uartDriverName,
      { isDriver := 1, consoleEp := boot.consoleEp, timerEp := boot.timerEp, blkEp := 0,
        irqNtfn := dev.uartNtfn, irqHandler := dev.uartIrqHandler, hwFrame := dev.uartFrame }),
    (timerDriverName,
      { isDriver := 2, consoleEp := boot.consoleEp, timerEp := boot.timerEp, blkEp := 0,
        irqNtfn := dev.timerNtfn, irqHandler := dev.timerIrqHandler, hwFrame := dev.rtcFrame }),
    (blkDriverName,
      { isDriver := 3, consoleEp := boot.consoleEp, timerEp := boot.timerEp, blkEp := boot.blkEp,
        hwFrame := dev.virtioFrame }),
    (netDriverName,
      { isDriver := 4, consoleEp := boot.consoleEp, timerEp := boot.timerEp, blkEp := 0,
        hwFrame := dev.virtioFrame, netCmdRecvEp := dev.netCmdRecvEp }),
    (shellName,
      { isDriver := 0, consoleEp := boot.consoleEp, timerEp := boot.timerEp, blkEp := boot.blkEp,
        netCmdSendEp := boot.netCmdSendEp })]

/-- Start one of the boot processes; a failure is fatal. -/
def bootProcess (p : CString × Role) : RootM K PUnit := do
  let pid ← spawnProcess sel4 boot p.1 none p.2
  if pid < 0 then throw .endlessLoop else pure ⟨⟩

/-- The global variables before the first process is started. -/
def blank (k : K) (alloc : PsychAllocator) : Root K where
  kernel := k
  alloc := alloc
  pcbs _ := {}
  pipes _ := {}
  driverReady _ := false
  driverReadyWaitReply := 0
  sleeperWaiting := false
  elfTempVaddr := 0x200100000
  ipcTempVaddr := 0x200800000
  cloneTempVaddr := 0x2001C0000

/-- A state in which the rootserver enters its loop: all boot processes have been started. -/
def Booted (dev : Devices) (r : Root K) : Prop :=
  ∃ k alloc, alloc.freeSlots = [] ∧ 0 < alloc.currentSlot ∧
    (forM (bootProcesses boot dev) (bootProcess sel4 boot) : RootM K PUnit).run (blank k alloc) =
      .ok (⟨⟩, r)

/-- The rootserver enters its loop in `r` after a boot with the kernel in the state `k`. -/
def BootedFrom (dev : Devices) (k : K) (r : Root K) : Prop :=
  ∃ alloc, alloc.freeSlots = [] ∧ 0 < alloc.currentSlot ∧
    (forM (bootProcesses boot dev) (bootProcess sel4 boot) : RootM K PUnit).run (blank k alloc) =
      .ok (⟨⟩, r)

/-- The state after boot from given resources, if boot succeeds. -/
def bootFrom (dev : Devices) (k : K) (alloc : PsychAllocator) : Option (Root K) :=
  match (forM (bootProcesses boot dev) (bootProcess sel4 boot) : RootM K PUnit).run
    (blank k alloc) with
  | .ok (_, r) => some r
  | .error _ => none

theorem bootedFrom_get {dev : Devices} {k : K} {alloc : PsychAllocator}
    (h : (bootFrom sel4 boot dev k alloc).isSome) (hfree : alloc.freeSlots = [])
    (hslot : 0 < alloc.currentSlot) :
    BootedFrom sel4 boot dev k ((bootFrom sel4 boot dev k alloc).get h) := by
  refine ⟨alloc, hfree, hslot, ?_⟩
  cases hrun : (forM (bootProcesses boot dev) (bootProcess sel4 boot) : RootM K PUnit).run
      (blank k alloc) with
  | ok p => simp [bootFrom, hrun]
  | error e => simp [bootFrom, hrun] at h

theorem booted_get {dev : Devices} {k : K} {alloc : PsychAllocator}
    (h : (bootFrom sel4 boot dev k alloc).isSome) (hfree : alloc.freeSlots = [])
    (hslot : 0 < alloc.currentSlot) :
    Booted sel4 boot dev ((bootFrom sel4 boot dev k alloc).get h) :=
  ⟨k, bootedFrom_get sel4 boot h hfree hslot⟩

/-! ## A small system

A kernel that grants every request and images without segments, on which the theorems are tried
out. -/

/-- A kernel that grants every request. -/
def granting : SeL4 Unit where
  invoke k _ := (.noError, k)
  callBlk _ _ _ := none
  pageAddress _ _ := 0
  rtc _ := 0

/-- The constants of a small boot. -/
def someBoot : Boot where
  ep := 1
  medEp := 2
  rootCNode := 3
  rootVspace := 4
  shmFrames i := 5 + i
  consoleEp := 9
  timerEp := 10
  blkEp := 11
  netCmdSendEp := 12
  sleeperReplySlot := 13
  hwVaddr _ := 0
  cpioGetFile _ := some []
  elfNewFile _ := true
  elf _ := ⟨0, []⟩

/-- The devices of the small boot. -/
def someDevices : Devices where
  uartNtfn := 14
  uartIrqHandler := 15
  uartFrame := 16
  timerNtfn := 17
  timerIrqHandler := 18
  rtcFrame := 19
  virtioFrame := 20
  netCmdRecvEp := 24

/-- The small system after boot, with slots from 1000 on. -/
def smallRoot : Root Unit :=
  (bootFrom granting someBoot someDevices () ⟨1000, 4000, []⟩).get (by decide +kernel)

theorem booted_smallRoot : Booted granting someBoot someDevices smallRoot :=
  booted_get _ _ _ rfl (by decide)

/-- The same kernel with a block driver that has one file of one byte: its state counts the
requests, and every second answer is the end of the file. -/
def serving : SeL4 ℕ where
  invoke k _ := (.noError, k)
  callBlk k _ _ := some (⟨0, if k % 2 = 0 then 1 else 0, fun _ => 0⟩, k + 1)
  pageAddress _ _ := 0
  rtc _ := 0

/-- The small system with a disk after boot. -/
def smallDisk : Root ℕ :=
  (bootFrom serving someBoot someDevices 0 ⟨1000, 4000, []⟩).get (by decide +kernel)

theorem booted_smallDisk : Booted serving someBoot someDevices smallDisk :=
  booted_get _ _ _ rfl (by decide)

end PsychWard.Rootserver
