import Mathlib.Data.Int.Notation
import Mathlib.Data.Nat.Notation

/-!
# The kernel interface

The rootserver acts on the system through seL4 invocations. `Invocation` lists the ones `main.cpp`
makes, with the arguments that depend on the rootserver's state, and `SeL4 K` is any behaviour of
the kernel, of the hardware clock and of the block driver over a state `K` of their own: it answers
each invocation with an error code.

A capability pointer is a natural number. A slot is named by the CNode it is looked up in, an index
and a depth, which is 64 in the root CNode and 8 in the CNode of a process.
-/

namespace PsychWard.Rootserver

/-- The error codes of seL4. -/
inductive SeL4Error
  | noError | invalidArgument | invalidCapability | illegalOperation | rangeError | alignmentError
  | failedLookup | truncatedMessage | deleteFirst | revokeFirst | notEnoughMemory
  deriving DecidableEq

/-- A capability slot as an invocation names it. -/
structure Place where
  cnode : ℕ
  index : ℕ
  depth : ℕ
  deriving DecidableEq

/-- The object types the rootserver retypes untyped memory into. -/
inductive ObjectType
  | tcb | endpoint | capTable | smallPage | pageTable | pageDirectory | pageUpperDirectory
  | pageGlobalDirectory
  deriving DecidableEq

/-- The registers a new thread starts with. -/
structure UserContext where
  pc : ℕ
  sp : ℕ
  x0 : ℕ
  x1 : ℕ
  x2 : ℕ
  tpidr : ℕ
  deriving DecidableEq

/-- The kernel calls of the rootserver. -/
inductive Invocation
  | cnodeMint (dest src : Place) (badge : ℕ)
  | cnodeCopy (dest src : Place)
  | cnodeDelete (slot : Place)
  | cnodeRevoke (slot : Place)
  | cnodeSaveCaller (slot : Place)
  | untypedRetype (type : ObjectType) (sizeBits dest : ℕ)
  | asidPoolAssign (vspace : ℕ)
  | pageUpperDirectoryMap (table vspace vaddr : ℕ)
  | pageDirectoryMap (table vspace vaddr : ℕ)
  | pageTableMap (table vspace vaddr : ℕ)
  | pageMap (frame vspace vaddr : ℕ)
  | pageUnmap (frame : ℕ)
  | pageCleanData (frame : ℕ)
  | pageGetAddress (frame : ℕ)
  | tcbConfigure (tcb faultEp cspace vspace buffer bufferFrame : ℕ)
  | tcbWriteRegisters (tcb : ℕ) (regs : UserContext)
  | tcbSetTLSBase (tcb base : ℕ)
  | tcbSetPriority (tcb priority : ℕ)
  | tcbBindNotification (tcb ntfn : ℕ)
  | tcbUnbindNotification (tcb : ℕ)
  | tcbSuspend (tcb : ℕ)
  | tcbResume (tcb : ℕ)
  | send (cap : ℕ) (mrs : List ℤ)
  | reply (mrs : List ℤ)
  deriving DecidableEq

/-- What the block driver answers to a read request: the first two message registers and the bytes
it leaves in the shared window. -/
structure ReadAnswer where
  status : ℤ
  bytesRead : ℤ
  window : ℕ → ℕ

/-- A behaviour of the system around the rootserver. -/
structure SeL4 (K : Type) where
  /-- The kernel's answer to an invocation. -/
  invoke : K → Invocation → SeL4Error × K
  /-- `seL4_Call(blk_ep)` with a read request for the file at an offset; `none` when the block
  driver never replies. -/
  callBlk : K → List ℕ → ℕ → Option (ReadAnswer × K)
  /-- The physical address `seL4_ARM_Page_GetAddress` reports for a frame. -/
  pageAddress : K → ℕ → ℕ
  /-- `pl031_get_time`. -/
  rtc : K → ℕ

/-- The system with a ghost part beside its own state, which follows the kernel's answers. -/
def SeL4.ghosted {K G : Type} (sel4 : SeL4 K) (after : G → Invocation → SeL4Error → G) :
    SeL4 (K × G) where
  invoke k i := ((sel4.invoke k.1 i).1, ((sel4.invoke k.1 i).2, after k.2 i (sel4.invoke k.1 i).1))
  callBlk k name offset := (sel4.callBlk k.1 name offset).map fun p => (p.1, (p.2, k.2))
  pageAddress k := sel4.pageAddress k.1
  rtc k := sel4.rtc k.1

end PsychWard.Rootserver
