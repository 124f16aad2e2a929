import PsychWard.Rootserver.Dispatch

/-!
# What most of the program leaves alone

Nearly all of the code works on kernel objects, slots and the bookkeeping of one process. Two
structures say what of this is invisible to a relation `R`. For `Hushed R` it is the work that
answers nobody: `R` may see every message through a reply capability and every slot that is emptied,
and of a process what it waits for. `Quiet R` sees no messages and no slots either. The lemmas below
say which parts of the program are then invisible as a whole. Only the few places that start, stop,
park or answer a process or work on a pipe are left for the proofs about these.
-/

namespace PsychWard.Rootserver

open Program

variable {K : Type}

/-- What a process is and does: its name and role, and whether it runs or waits. -/
structure Life where
  name : CString
  isDriver : ℤ
  active : Bool
  waitingFor : ℤ

/-- The life of the process in a block. -/
def Pcb.life (pcb : Pcb) : Life := ⟨pcb.name, pcb.isDriver, pcb.active, pcb.waitingFor⟩

/-- An update of a process control block that does not touch the life of the process. -/
def Pcb.Bookkeeping (f : Pcb → Pcb) : Prop := ∀ x, (f x).life = x.life

/-- Bookkeeping that leaves the saved reply capability where it is. -/
def Pcb.Humble (f : Pcb → Pcb) : Prop :=
  ∀ x, (f x).life = x.life ∧ (f x).replyCap = x.replyCap

/-- The kernel call does not hand out the capability of a pipe: it mints another badge, or it copies
from the root CNode. -/
def Invocation.Plain : Invocation → Prop
  | .cnodeMint _ _ badge => ¬ isPipeCall badge
  | .cnodeCopy _ src => src.depth = 64
  | _ => True

/-- The kernel call sends nothing and empties no slot of the root CNode. -/
def Invocation.Mute : Invocation → Prop
  | .send _ _ => False
  | .cnodeDelete slot => slot.depth = 8
  | _ => True

/-- `R` does not see kernel calls that are plain and mute, requests to the block driver, the
allocator, the mapping windows and the humble bookkeeping of processes. -/
structure Hushed (sel4 : SeL4 K) (R : Root K → Root K → Prop) : Prop extends Frame R where
  mute : ∀ r inv, inv.Plain → inv.Mute → R r { r with kernel := (sel4.invoke r.kernel inv).2 }
  callBlk : ∀ r name offset a k, sel4.callBlk r.kernel name offset = some (a, k) →
    R r { r with kernel := k }
  alloc : ∀ r a, R r { r with alloc := a }
  elfWindow : ∀ r v, R r { r with elfTempVaddr := v }
  ipcWindow : ∀ r v, R r { r with ipcTempVaddr := v }
  cloneWindow : ∀ r v, R r { r with cloneTempVaddr := v }
  humble : ∀ r p f, Pcb.Humble f → R r (r.setPcb p f)

/-- `R` does not see any plain kernel call either, nor the bookkeeping of processes. -/
structure Quiet (sel4 : SeL4 K) (R : Root K → Root K → Prop) : Prop extends Hushed sel4 R where
  invoke : ∀ r inv, inv.Plain → R r { r with kernel := (sel4.invoke r.kernel inv).2 }
  pcb : ∀ r p f, Pcb.Bookkeeping f → R r (r.setPcb p f)

/-- A PID is not the badge of a pipe. -/
theorem not_isPipeCall {badge : ℕ} (h : badge < 256) : ¬ isPipeCall badge := by
  rintro ⟨hle, -⟩
  exact absurd (h.trans_le' hle) (by decide)

/-! ## Work that answers nobody -/

namespace Hushed

variable {sel4 : SeL4 K} {boot : Boot} {R : Root K → Root K → Prop} (hR : Hushed sel4 R)

include hR

/-- An invocation that sends nothing and deletes nothing. -/
theorem sys (inv : Invocation) (h : inv.Plain) (h' : inv.Mute) :
    Keeps R (Rootserver.sys sel4 inv) := by
  intro r _ t hrun
  cases hrun
  exact hR.mute r inv h h'

/-- A slot is taken from the pool. -/
theorem allocSlot : Keeps R (Rootserver.allocSlot : RootM K ℕ) := by
  intro r _ t hrun
  cases hrun
  exact hR.alloc r _

/-- A slot goes back to the pool. -/
theorem freeSlot (slot : ℕ) : Keeps R (Rootserver.freeSlot slot : RootM K PUnit) :=
  .modify fun r => hR.alloc r _

/-- A change of a PCB that keeps its saved capability and whom it waits for. -/
theorem setPcb (p : ℕ) {f : Pcb → Pcb} (hf : Pcb.Humble f) :
    Keeps R (Rootserver.setPcb p f : RootM K PUnit) :=
  .modify fun r => hR.humble r p f hf

/-- A failed call ends the handler. -/
theorem checkErr (err : SeL4Error) : Keeps R (Rootserver.checkErr err : RootM K PUnit) :=
  .ite (.pure hR.toFrame _) .throw

/-- A slot is taken and noted in the PCB. -/
theorem allocAndTrackCap (pid : ℕ) : Keeps R (Rootserver.allocAndTrackCap pid : RootM K ℕ) := by
  refine .bind hR.toFrame hR.allocSlot fun cap => .bind hR.toFrame (.get hR.toFrame) fun r => ?_
  refine .ite .throw (.bind hR.toFrame (hR.setPcb pid ?_) fun _ => .pure hR.toFrame _)
  exact fun x => ⟨rfl, rfl⟩

/-- The answer to the current caller goes through no capability of the rootserver's own. -/
theorem reply (mrs : List ℤ) : Keeps R (Rootserver.reply sel4 mrs) :=
  .bind hR.toFrame (hR.sys _ trivial trivial) fun _ => .pure hR.toFrame _

/-- Suspending a thread, and unbinding what it waits on. -/
theorem stopThread (pcb : Pcb) : Keeps R (Rootserver.stopThread sel4 pcb) := by
  refine .bind hR.toFrame (hR.sys _ trivial trivial) fun _ => .onlyIf hR.toFrame ?_
  exact .bind hR.toFrame (hR.sys _ trivial trivial) fun _ => .pure hR.toFrame _

/-- A page table object is allocated, made and mapped. -/
theorem addTable (pid : ℕ) (type : ObjectType) (map : ℕ → Invocation)
    (hmap : ∀ table, (map table).Plain ∧ (map table).Mute) :
    Keeps R (Rootserver.addTable sel4 pid type map) := by
  refine .bind hR.toFrame (hR.allocAndTrackCap pid) fun table => ?_
  refine .bind hR.toFrame (hR.sys _ trivial trivial) fun _ => .onlyIf hR.toFrame ?_
  exact .bind hR.toFrame (hR.sys _ (hmap table).1 (hmap table).2) fun _ => .pure hR.toFrame _

/-- Mapping a frame, with the page tables it asks for. -/
theorem mapFrameRobust (pid frame vspace vaddr : ℕ) :
    Keeps R (Rootserver.mapFrameRobust sel4 pid frame vspace vaddr) := by
  refine .bind hR.toFrame (hR.sys _ trivial trivial) fun _ => .ite ?_ (.pure hR.toFrame _)
  refine .bind hR.toFrame ?_ fun _ => .pure hR.toFrame _
  -- one table for each level, then the frame again
  refine .bind hR.toFrame (hR.addTable _ _ _ fun _ => ⟨trivial, trivial⟩) fun _ => ?_
  refine .bind hR.toFrame (hR.addTable _ _ _ fun _ => ⟨trivial, trivial⟩) fun _ => ?_
  refine .bind hR.toFrame (hR.addTable _ _ _ fun _ => ⟨trivial, trivial⟩) fun _ => ?_
  exact hR.sys _ trivial trivial

/-- One request to the disk driver and its answer. -/
theorem readRequest (name : CString) (offset : ℕ) :
    Keeps R (Rootserver.readRequest sel4 name offset) := by
  intro r a t hrun
  rw [run_readRequest] at hrun
  cases hcall : sel4.callBlk r.kernel name offset with
  | none => rw [hcall] at hrun; cases hrun
  | some p => rw [hcall] at hrun; cases hrun; exact hR.callBlk r _ _ _ _ hcall

/-- Reading an image, by induction on the turns that are left. -/
theorem loadLoop (name : CString) (fuel : ℕ) (loaded : List ℕ) :
    Keeps R (Rootserver.loadLoop sel4 name fuel loaded) := by
  induction fuel generalizing loaded with
  | zero => exact .throw
  | succ fuel ih =>
    refine .bind hR.toFrame (hR.readRequest _ _) fun a => .ite (.pure hR.toFrame _) ?_
    exact .ite (.pure hR.toFrame _) (.ite .throw (ih _))

/-- A copy from the root CNode, or a capability with the badge of a process. -/
theorem giveCap (cnode slot cap : ℕ) (badge : Option ℕ) (h : ∀ b ∈ badge, b < 256) :
    Keeps R (Rootserver.giveCap sel4 boot cnode slot cap badge) := by
  refine .ite (.pure hR.toFrame _) ?_
  cases badge with
  | none => exact .bind hR.toFrame (hR.sys _ rfl trivial) fun _ => hR.checkErr _
  | some badge =>
    have hbadge := not_isPipeCall (h badge rfl)
    exact .bind hR.toFrame (hR.sys _ hbadge trivial) fun _ => hR.checkErr _

/-- The capabilities that a child starts with. -/
theorem giveCaps {pid : ℕ} (hp : pid < 256) (childCNode badgedEp : ℕ) (role : Role) :
    Keeps R (Rootserver.giveCaps sel4 boot pid childCNode badgedEp role) := by
  have hif (c : Prop) [Decidable c] : ∀ b ∈ (if c then none else some pid), b < 256 := by
    intro b hb
    split at hb
    · cases hb
    · cases hb
      exact hp
  have hsome : ∀ b ∈ some pid, b < 256 := fun b hb => by cases hb; exact hp
  have hnone : ∀ b ∈ (none : Option ℕ), b < 256 := fun b hb => by cases hb
  refine .bind hR.toFrame (hR.giveCap _ _ _ _ hnone) fun _ => ?_
  refine .bind hR.toFrame (hR.giveCap _ _ _ _ (hif _)) fun _ => ?_
  refine .bind hR.toFrame (hR.giveCap _ _ _ _ (hif _)) fun _ => ?_
  refine .bind hR.toFrame (hR.giveCap _ _ _ _ (hif _)) fun _ => ?_
  refine .bind hR.toFrame (hR.giveCap _ _ _ _ hsome) fun _ => ?_
  exact .bind hR.toFrame (hR.giveCap _ _ _ _ hnone) fun _ => hR.giveCap _ _ _ _ hnone

/-! ## Starting a process -/

/-- A new address space. -/
theorem spawnVSpace (pid : ℕ) : Keeps R (Rootserver.spawnVSpace sel4 pid) := by
  unfold Rootserver.spawnVSpace
  repeat' first
    | with_reducible exact hR.allocAndTrackCap pid
    | with_reducible refine hR.sys _ ?_ ?_
    | exact trivial
    | with_reducible exact Keeps.pure hR.toFrame _
    | with_reducible refine hR.setPcb pid ?_
    | exact fun _ => ⟨rfl, rfl⟩
    | with_reducible refine Keeps.bind hR.toFrame ?_ fun _ => ?_

/-- One page of a segment: filled through the temporary mapping, then mapped in the child. -/
theorem spawnPage (pid childVspace tempVaddr page : ℕ) :
    Keeps R (Rootserver.spawnPage sel4 boot pid childVspace tempVaddr page) := by
  unfold Rootserver.spawnPage
  repeat' first
    | with_reducible exact hR.allocAndTrackCap pid
    | with_reducible refine hR.sys _ ?_ ?_
    | exact trivial
    | with_reducible exact Keeps.pure hR.toFrame _
    | with_reducible refine Keeps.bind hR.toFrame ?_ fun _ => ?_

/-- All segments of the image. -/
theorem spawnSegments (pid childVspace : ℕ) (elf : Elf) :
    Keeps R (Rootserver.spawnSegments sel4 boot pid childVspace elf) := by
  refine .bind hR.toFrame (.get hR.toFrame) fun r => ?_
  refine .bind hR.toFrame (.modify fun r => hR.elfWindow r _) fun _ => ?_
  exact .forM hR.toFrame fun h _ => .forM hR.toFrame fun page _ => hR.spawnPage _ _ _ _

/-- The device pages are copies of frames in the root CNode. -/
theorem spawnDevice (pid childVspace vaddr : ℕ) (role : Role) :
    Keeps R (Rootserver.spawnDevice sel4 boot pid childVspace vaddr role) := by
  unfold Rootserver.spawnDevice
  repeat' first
    | with_reducible exact hR.allocAndTrackCap pid
    | with_reducible refine hR.sys _ ?_ ?_
    | exact trivial
    | exact rfl
    | with_reducible exact hR.checkErr _
    | with_reducible refine Keeps.forM hR.toFrame fun _ _ => ?_
    | with_reducible refine Keeps.bind hR.toFrame ?_ fun _ => ?_

/-- The thread of the child, its stack and its IPC buffer. -/
theorem spawnThread (pid childVspace devVaddr : ℕ) (role : Role) (entry : ℕ) :
    Keeps R (Rootserver.spawnThread sel4 boot pid childVspace devVaddr role entry) := by
  unfold Rootserver.spawnThread
  repeat' first
    | with_reducible exact hR.allocAndTrackCap pid
    | with_reducible refine hR.sys _ ?_ ?_
    | exact trivial
    | with_reducible exact hR.checkErr _
    | with_reducible exact Keeps.get hR.toFrame
    | with_reducible exact Keeps.pure hR.toFrame _
    | with_reducible exact Keeps.modify fun r => hR.ipcWindow r _
    | with_reducible refine hR.setPcb pid ?_
    | exact fun _ => ⟨rfl, rfl⟩
    | with_reducible exact hR.spawnDevice _ _ _ _
    | with_reducible refine Keeps.onlyIf hR.toFrame ?_
    | with_reducible refine Keeps.bind hR.toFrame ?_ fun _ => ?_

/-- Starting a process is invisible where its role is. -/
theorem spawnBody (hrole : ∀ r p cnode ep role, R r (r.setPcb p (Pcb.withRole cnode ep role)))
    {pid : ℕ} (hp : pid < 256) (image : List ℕ) (role : Role) :
    Keeps R (Rootserver.spawnBody sel4 boot pid image role) := by
  refine .bind hR.toFrame ?_ fun _ => .bind hR.toFrame (hR.spawnVSpace _) fun _ =>
    .bind hR.toFrame (hR.spawnSegments _ _ _) fun _ => hR.spawnThread _ _ _ _ _
  refine .bind hR.toFrame (hR.allocAndTrackCap _) fun _ => ?_
  refine .bind hR.toFrame (hR.sys _ trivial trivial) fun _ => ?_
  refine .bind hR.toFrame (hR.allocAndTrackCap _) fun _ => ?_
  refine .bind hR.toFrame (hR.sys _ (not_isPipeCall hp) trivial) fun _ => ?_
  exact .bind hR.toFrame (hR.giveCaps hp _ _ _) fun _ => .modify fun r => hrole r _ _ _ _

/-- The badge of a thread carries its creator above its own PID, and its fault endpoint goes into
the CNode of the creator. -/
theorem cloneBody (sender : ℕ) {pid : ℕ} (hp : pid < 256) (m : Message) :
    Keeps R (Rootserver.cloneBody sel4 boot sender pid m) := by
  have hbadge : ¬ isPipeCall (sender * 2 ^ 16 + pid) := by
    rintro ⟨hle, hlt⟩
    simp only [pipeBaseBadge, maxPipes] at hle hlt
    omega
  unfold Rootserver.cloneBody
  repeat' first
    | with_reducible exact hR.allocAndTrackCap pid
    | with_reducible refine hR.sys _ ?_ ?_
    | exact hbadge
    | exact trivial
    | exact rfl
    | with_reducible exact hR.checkErr _
    | with_reducible exact Keeps.get hR.toFrame
    | with_reducible exact Keeps.modify fun r => hR.cloneWindow r _
    | with_reducible refine hR.setPcb pid ?_
    | exact fun _ => ⟨rfl, rfl⟩
    | with_reducible refine Keeps.bind hR.toFrame ?_ fun _ => ?_

/-! ## Pages -/

/-- The demand pager maps one page and answers the fault. -/
theorem pageFault (sender addr : ℕ) : Keeps R (Rootserver.pageFault sel4 sender addr) := by
  unfold Rootserver.pageFault
  repeat' first
    | with_reducible exact hR.allocAndTrackCap sender
    | with_reducible refine hR.sys _ ?_ ?_
    | exact trivial
    | with_reducible exact hR.checkErr _
    | with_reducible exact Keeps.get hR.toFrame
    | with_reducible exact hR.reply _
    | with_reducible refine Keeps.bind hR.toFrame ?_ fun _ => ?_

/-- The frames of the shared window, by induction on those that are left. -/
theorem shareFrames (pid vaddr : ℕ) (is : List ℕ) :
    Keeps R (Rootserver.shareFrames sel4 boot pid vaddr is) := by
  induction is with
  | nil => exact .pure hR.toFrame _
  | cons i is ih =>
    refine .bind hR.toFrame ?_ fun _ => .ite ih (.pure hR.toFrame _)
    refine .bind hR.toFrame hR.allocSlot fun _ => ?_
    refine .bind hR.toFrame (hR.setPcb pid fun _ => ⟨rfl, rfl⟩) fun _ => ?_
    refine .ite (.pure hR.toFrame _) (.bind hR.toFrame (hR.sys _ rfl trivial) fun _ => ?_)
    refine .ite (.bind hR.toFrame (.get hR.toFrame) fun _ => ?_) (.pure hR.toFrame _)
    exact hR.mapFrameRobust _ _ _ _

end Hushed

/-! ## Work that may answer and release -/

namespace Quiet

variable {sel4 : SeL4 K} {boot : Boot} {R : Root K → Root K → Prop} (hR : Quiet sel4 R)

include hR

/-- An invocation that deletes nothing, answers included. -/
theorem sys (inv : Invocation) (h : inv.Plain) : Keeps R (Rootserver.sys sel4 inv) := by
  intro r _ t hrun
  cases hrun
  exact hR.invoke r inv h

/-- A change of a PCB that is bookkeeping only. -/
theorem setPcb (p : ℕ) {f : Pcb → Pcb} (hf : Pcb.Bookkeeping f) :
    Keeps R (Rootserver.setPcb p f : RootM K PUnit) :=
  .modify fun r => hR.pcb r p f hf

/-- One message and the end of the capability. -/
theorem answer (cap : ℕ) (mrs : List ℤ) : Keeps R (Rootserver.answer sel4 boot cap mrs) :=
  .bind hR.toFrame (hR.sys _ trivial) fun _ =>
    .bind hR.toFrame (hR.sys _ trivial) fun _ => .pure hR.toFrame _

/-- A slot is emptied and goes back to the pool. -/
theorem releaseCap (cap : ℕ) : Keeps R (Rootserver.releaseCap sel4 boot cap) :=
  .bind hR.toFrame (hR.sys _ trivial) fun _ =>
    .bind hR.toFrame (hR.sys _ trivial) fun _ => hR.freeSlot cap

/-- The same for a copy that may not have been made. -/
theorem dropCopy (cap : ℕ) : Keeps R (Rootserver.dropCopy sel4 boot cap) :=
  .onlyIf hR.toFrame (.bind hR.toFrame (hR.sys _ trivial) fun _ => hR.freeSlot cap)

/-- `SYS_SHM_GET`, with the copies that are put back when it is refused. -/
theorem sysShmGet (m : Message) : Keeps R (Rootserver.sysShmGet sel4 boot m) := by
  refine .bind hR.toFrame (.get hR.toFrame) fun r => .ite (hR.reply _) ?_
  refine .bind hR.toFrame (hR.setPcb _ fun _ => rfl) fun _ => ?_
  refine .bind hR.toFrame (hR.shareFrames _ _ _) fun _ => .ite ?_ ?_
  · refine .bind hR.toFrame (.get hR.toFrame) fun _ => ?_
    refine .bind hR.toFrame (hR.sys _ trivial) fun _ => ?_
    exact hR.reply _
  · refine .bind hR.toFrame (.get hR.toFrame) fun _ => ?_
    refine .bind hR.toFrame (.forM hR.toFrame fun _ _ => hR.dropCopy _) fun _ => ?_
    exact .bind hR.toFrame (hR.setPcb _ fun _ => rfl) fun _ => hR.reply _

end Quiet

end PsychWard.Rootserver
