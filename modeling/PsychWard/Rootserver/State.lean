import PsychWard.Common.Program
import PsychWard.Common.Word
import PsychWard.Rootserver.Allocator
import PsychWard.Rootserver.Kernel
import Mathlib.Logic.Function.Basic

/-!
# The state of the rootserver

The global variables of `main.cpp`: the process table, the pipes, the readiness of the drivers, the
slot allocator and, as one more component, the state of the kernel around it. Arrays are functions
from their index; every access of the code is inside their bounds.

A handler is a `RootM`, a program over this state. It stops with a `Halt` where the code enters an
endless loop or leaves the C semantics.
-/

namespace PsychWard.Rootserver

/-- A C string: its bytes before the terminating NUL. -/
abbrev CString := List ℕ

/-- `"shell"`. -/
def shellName : CString := [115, 104, 101, 108, 108]

/-- `"shell_thread"`. -/
def shellThreadName : CString := [115, 104, 101, 108, 108, 95, 116, 104, 114, 101, 97, 100]

/-- `MAX_PIPES`. -/
def maxPipes : ℕ := 16

/-- `PIPE_BASE_BADGE`. -/
def pipeBaseBadge : ℕ := 1000

/-- `PIPE_FD_SLOT`. -/
def pipeFdSlot : ℕ := 20

/-- The number of capabilities a `CapTracker` holds. -/
def capTrackerSize : ℕ := 64

/-- The number of bytes in the buffer of a pipe. -/
def pipeSize : ℕ := 4096

/-- `ProcessControlBlock`. -/
structure Pcb where
  name : CString := []
  tcb : ℕ := 0
  vspace : ℕ := 0
  cspace : ℕ := 0
  badgedEp : ℕ := 0
  vmapBumpPointer : ℕ := 0
  active : Bool := false
  waitingFor : ℤ := 0
  replyCap : ℕ := 0
  threadIpcFrame : ℕ := 0
  isDriver : ℤ := 0
  irqNtfn : ℕ := 0
  irqHandler : ℕ := 0
  hwFrame : ℕ := 0
  netCmdRecvEp : ℕ := 0
  netCmdSendEp : ℕ := 0
  capTracker : List ℕ := []
  hasShm : Bool := false
  shmCopies : ℕ → ℕ := fun _ => 0

/-- The block is that of a thread: `strncmp(name, "shell_thread", 12) == 0`. -/
def Pcb.IsThread (p : Pcb) : Prop := p.name.take 12 = shellThreadName

/-- The component is respawned when it fails: a driver, an application or the shell. -/
def Pcb.Critical (p : Pcb) : Prop := 0 < p.isDriver ∨ p.name = shellName

instance (p : Pcb) : Decidable p.IsThread := inferInstanceAs (Decidable (_ = _))

instance (p : Pcb) : Decidable p.Critical := inferInstanceAs (Decidable (_ ∨ _))

/-- `pipe_t`, with the first `count` bytes of its buffer as a list. -/
structure Pipe where
  active : Bool := false
  buffer : List ℕ := []
  readerReplyCap : ℕ := 0
  writerPid : ℕ := 0
  ownerPid : ℕ := 0
  eof : Bool := false
  deriving DecidableEq

/-- The global state of the rootserver and the state `K` of the kernel. -/
structure Root (K : Type) where
  kernel : K
  alloc : PsychAllocator
  pcbs : ℕ → Pcb
  pipes : ℕ → Pipe
  driverReady : ℕ → Bool
  driverReadyWaitReply : ℕ
  sleeperWaiting : Bool
  elfTempVaddr : ℕ
  ipcTempVaddr : ℕ
  cloneTempVaddr : ℕ

/-- A `PT_LOAD` program header, or another one. -/
structure ProgramHeader where
  isLoad : Bool
  vaddr : ℕ
  memsz : ℕ

/-- What the accessors of the ELF library report about an image. -/
structure Elf where
  entry : ℕ
  headers : List ProgramHeader

/-- What `main` has set up before it serves requests: the capabilities it passes on, the archive of
the initial programs and the ELF library. -/
structure Boot where
  ep : ℕ
  medEp : ℕ
  rootCNode : ℕ
  rootVspace : ℕ
  shmFrames : ℕ → ℕ
  consoleEp : ℕ
  timerEp : ℕ
  blkEp : ℕ
  netCmdSendEp : ℕ
  sleeperReplySlot : ℕ
  /-- The address of the device a driver of the given role works with. -/
  hwVaddr : ℤ → ℕ
  /-- `cpio_get_file(_cpio_archive, name)`. -/
  cpioGetFile : CString → Option (List ℕ)
  /-- `elf_newFile(image) == 0`. -/
  elfNewFile : List ℕ → Bool
  elf : List ℕ → Elf

/-- Where a handler does not come back to the loop. -/
inductive Halt
  /-- A `while(1);` of the code. -/
  | endlessLoop
  /-- A `seL4_Call` that is never answered. -/
  | blocked
  /-- A write outside an array. -/
  | outOfBounds
  deriving DecidableEq

/-- A part of the rootserver's program. -/
abbrev RootM (K : Type) := Program (Root K) Halt

/-- The PIDs a loop `for (int i = 1; i < 256; i++)` visits. -/
def pids : List ℕ := List.range' 1 255

theorem mem_pids {p : ℕ} : p ∈ pids ↔ 0 < p ∧ p < 256 := by
  simp only [pids, List.mem_range'_1]
  omega

namespace Root

variable {K : Type}

def setPcb (pid : ℕ) (f : Pcb → Pcb) (r : Root K) : Root K :=
  { r with pcbs := Function.update r.pcbs pid (f (r.pcbs pid)) }

def setPipe (i : ℕ) (f : Pipe → Pipe) (r : Root K) : Root K :=
  { r with pipes := Function.update r.pipes i (f (r.pipes i)) }

/-- The first PID whose block is inactive. -/
def freePid (r : Root K) : Option ℕ := pids.find? fun i => !(r.pcbs i).active

theorem freePid_eq_some {r : Root K} {p : ℕ} (h : r.freePid = some p) :
    (r.pcbs p).active = false ∧ 0 < p ∧ p < 256 := by
  have hp := List.find?_some h
  exact ⟨by simpa using hp, mem_pids.mp (List.mem_of_find?_eq_some h)⟩

@[simp] theorem setPcb_alloc (r : Root K) (p : ℕ) (f : Pcb → Pcb) :
    (r.setPcb p f).alloc = r.alloc := rfl

@[simp] theorem setPcb_kernel (r : Root K) (p : ℕ) (f : Pcb → Pcb) :
    (r.setPcb p f).kernel = r.kernel := rfl

@[simp] theorem setPcb_pipes (r : Root K) (p : ℕ) (f : Pcb → Pcb) :
    (r.setPcb p f).pipes = r.pipes := rfl

@[simp] theorem setPcb_self (r : Root K) (p : ℕ) (f : Pcb → Pcb) :
    (r.setPcb p f).pcbs p = f (r.pcbs p) := Function.update_self ..

theorem setPcb_of_ne (r : Root K) {p q : ℕ} (f : Pcb → Pcb) (h : q ≠ p) :
    (r.setPcb p f).pcbs q = r.pcbs q := Function.update_of_ne h ..

@[simp] theorem setPipe_alloc (r : Root K) (i : ℕ) (f : Pipe → Pipe) :
    (r.setPipe i f).alloc = r.alloc := rfl

@[simp] theorem setPipe_kernel (r : Root K) (i : ℕ) (f : Pipe → Pipe) :
    (r.setPipe i f).kernel = r.kernel := rfl

@[simp] theorem setPipe_pcbs (r : Root K) (i : ℕ) (f : Pipe → Pipe) :
    (r.setPipe i f).pcbs = r.pcbs := rfl

@[simp] theorem setPipe_self (r : Root K) (i : ℕ) (f : Pipe → Pipe) :
    (r.setPipe i f).pipes i = f (r.pipes i) := Function.update_self ..

theorem setPipe_of_ne (r : Root K) {i j : ℕ} (f : Pipe → Pipe) (h : j ≠ i) :
    (r.setPipe i f).pipes j = r.pipes j := Function.update_of_ne h ..

end Root

/-! ## Primitive steps -/

section
variable {K : Type} (sel4 : SeL4 K) (boot : Boot)

/-- Make a kernel call. -/
def sys (i : Invocation) : RootM K SeL4Error := fun r =>
  .ok ((sel4.invoke r.kernel i).1, { r with kernel := (sel4.invoke r.kernel i).2 })

/-- `check_err`: anything but success is an endless loop. -/
def checkErr (err : SeL4Error) : RootM K PUnit :=
  if err = .noError then pure ⟨⟩ else throw .endlessLoop

def allocSlot : RootM K ℕ := fun r => .ok (r.alloc.allocSlot.1, { r with alloc := r.alloc.allocSlot.2 })

def freeSlot (slot : ℕ) : RootM K PUnit := modify fun r => { r with alloc := r.alloc.free slot }

/-- A slot of the rootserver's own CNode. -/
def Boot.rootSlot (boot : Boot) (slot : ℕ) : Place := ⟨boot.rootCNode, slot, 64⟩

/-- A slot of a process's CNode. -/
def childSlot (cspace slot : ℕ) : Place := ⟨cspace, slot, 8⟩

def setPcb (pid : ℕ) (f : Pcb → Pcb) : RootM K PUnit := modify (Root.setPcb pid f)

def setPipe (i : ℕ) (f : Pipe → Pipe) : RootM K PUnit := modify (Root.setPipe i f)

@[simp] theorem run_sys (i : Invocation) (r : Root K) : (sys sel4 i).run r =
    .ok ((sel4.invoke r.kernel i).1, { r with kernel := (sel4.invoke r.kernel i).2 }) := rfl

@[simp] theorem run_allocSlot (r : Root K) :
    allocSlot.run r = .ok (r.alloc.allocSlot.1, { r with alloc := r.alloc.allocSlot.2 }) := rfl

@[simp] theorem run_freeSlot (slot : ℕ) (r : Root K) :
    (freeSlot slot).run r = .ok (⟨⟩, { r with alloc := r.alloc.free slot }) := rfl

@[simp] theorem run_setPcb (pid : ℕ) (f : Pcb → Pcb) (r : Root K) :
    (setPcb pid f).run r = .ok (⟨⟩, r.setPcb pid f) := rfl

@[simp] theorem run_setPipe (i : ℕ) (f : Pipe → Pipe) (r : Root K) :
    (setPipe i f).run r = .ok (⟨⟩, r.setPipe i f) := rfl

theorem ends_setPcb (pid : ℕ) (f : Pcb → Pcb) (r : Root K) :
    Program.Ends (setPcb pid f) r fun _ t => t = r.setPcb pid f := .modify rfl

theorem ends_setPipe (i : ℕ) (f : Pipe → Pipe) (r : Root K) :
    Program.Ends (setPipe i f) r fun _ t => t = r.setPipe i f := .modify rfl

/-- `alloc_and_track_cap`. -/
def allocAndTrackCap (pid : ℕ) : RootM K ℕ := do
  let cap ← allocSlot
  let r ← get
  if cap = 0 ∨ capTrackerSize ≤ (r.pcbs pid).capTracker.length then
    throw .endlessLoop
  else
    setPcb pid fun pcb => { pcb with capTracker := pcb.capTracker ++ [cap] }
    pure cap

/-- Answer the caller of the current request. -/
def reply (mrs : List ℤ) : RootM K PUnit := do
  let _ ← sys sel4 (.reply mrs)

/-- Answer a caller whose reply capability was saved, and delete the capability. -/
def answer (cap : ℕ) (mrs : List ℤ) : RootM K PUnit := do
  let _ ← sys sel4 (.send cap mrs)
  let _ ← sys sel4 (.cnodeDelete (boot.rootSlot cap))

@[simp] theorem run_reply (mrs : List ℤ) (r : Root K) : (reply sel4 mrs).run r =
    .ok (⟨⟩, { r with kernel := (sel4.invoke r.kernel (.reply mrs)).2 }) := rfl

@[simp] theorem run_answer (cap : ℕ) (mrs : List ℤ) (r : Root K) :
    (answer sel4 boot cap mrs).run r = .ok (⟨⟩,
      { r with
        kernel := (sel4.invoke (sel4.invoke r.kernel (.send cap mrs)).2
          (.cnodeDelete (boot.rootSlot cap))).2 }) := rfl

end

end PsychWard.Rootserver
