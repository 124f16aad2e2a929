import PsychWard.Rootserver.Life

/-!
# Programs that do not touch pipes

Most handlers start, wake and end processes and leave the pipes alone. `Blind R` says that `R` sees
nothing of processes and drivers, `Steady R` that it sees no more of a pipe than whether it is in
use; the lemmas say which programs are then invisible to `R`. The relations are those of the
theorems about pipes and about their capabilities.
-/

namespace PsychWard.Rootserver

open Program

variable {K : Type}

/-- `R` does not see processes and drivers either. -/
structure Blind (sel4 : SeL4 K) (R : Root K → Root K → Prop) : Prop extends Quiet sel4 R where
  process : ∀ r p f, R r (r.setPcb p f)
  drivers : ∀ r ready wait, R r { r with driverReady := ready, driverReadyWaitReply := wait }
  sleeper : ∀ r waiting, R r { r with sleeperWaiting := waiting }

namespace Blind

variable {sel4 : SeL4 K} {boot : Boot} {R : Root K → Root K → Prop} (hR : Blind sel4 R)

include hR

/-- No change of a block is visible. -/
theorem setPcb (p : ℕ) (f : Pcb → Pcb) :
    Keeps R (Rootserver.setPcb p f : RootM K PUnit) :=
  .modify fun r => hR.process r p f

/-- Waking a waiter is a message and a change of its block. -/
theorem wake (p i : ℕ) : Keeps R (Rootserver.wake sel4 boot p i) := by
  have hF := hR.toFrame
  refine .bind hF (.get hF) fun r => ?_
  refine .onlyIf hF (.bind hF (hR.setPcb _ _) fun _ => ?_)
  refine .bind hF (hR.answer _ _) fun _ => ?_
  exact .bind hF (hR.freeSlot _) fun _ => hR.setPcb _ _

/-- As `wake`, and the slot goes back to the allocator in any case. -/
theorem wakeAndDrop (p i : ℕ) : Keeps R (Rootserver.wakeAndDrop sel4 boot p i) := by
  have hF := hR.toFrame
  refine .bind hF (.get hF) fun r => ?_
  refine .onlyIf hF (.bind hF (hR.setPcb _ _) fun _ => ?_)
  exact .bind hF (hR.answer _ _) fun _ => hR.setPcb _ _

/-- A new process is a new block and what `spawnBody` does for it. -/
theorem spawnProcess (name : CString) (data : Option (List ℕ)) (role : Role) :
    Keeps R (Rootserver.spawnProcess sel4 boot name data role) := by
  have hF := hR.toFrame
  unfold Rootserver.spawnProcess
  cases data.orElse fun _ => boot.cpioGetFile name with
  | none => exact .pure hF _
  | some image =>
    intro r
    refine .bind (.get ?_)
    cases hfree : r.freePid with
    | none => exact .pure (hF.refl r)
    | some p =>
      have hp := (Root.freePid_eq_some hfree).2.2
      refine Keeps.bind hF (hR.setPcb _ _) (fun _ => ?_) r
      exact .bind hF (hR.spawnBody (fun r _ _ _ _ => hR.process r _ _) hp _ _)
        fun _ => .pure hF _

/-- The waiters are woken, the slots released, and a critical component started again. -/
theorem genericRecoverProcess (p : ℤ) :
    Keeps R (Rootserver.genericRecoverProcess sel4 boot p) := by
  have hF := hR.toFrame
  refine .bind hF (.get hF) fun r => .ite (.pure hF _) ?_
  refine .bind hF ?_ fun _ => .bind hF ?_ fun _ => ?_
  · refine .bind hF (.forM hF fun i _ => hR.wakeAndDrop _ _) fun _ => ?_
    refine .bind hF (.onlyIf hF (hR.stopThread _)) fun _ => ?_
    refine .bind hF (.forM hF fun _ _ => hR.releaseCap _) fun _ => ?_
    refine .bind hF (hR.setPcb _ _) fun _ => ?_
    exact .onlyIf hF (.forM hF fun _ _ => hR.dropCopy _)
  · exact .onlyIf hF (.bind hF (hR.spawnProcess _ _ _) fun _ => .pure hF _)
  · exact hR.setPcb _ _

/-- The objects of a process are released and its block is marked as dead. -/
theorem deleteProcess (p : ℕ) (pcb : Pcb) :
    Keeps R (Rootserver.deleteProcess sel4 boot p pcb) := by
  have hF := hR.toFrame
  refine .bind hF (hR.setPcb _ _) fun _ => .bind hF (hR.sys _ trivial) fun _ => ?_
  refine .bind hF (hR.sys _ trivial) fun _ => .onlyIf hF ?_
  exact .bind hF (hR.sys _ trivial) fun _ => .pure hF _

/-- Of a thread only what it tracks is released. -/
theorem releaseThread (p : ℕ) (pcb : Pcb) :
    Keeps R (Rootserver.releaseThread sel4 boot p pcb) := by
  have hF := hR.toFrame
  refine .bind hF (hR.sys _ trivial) fun _ => ?_
  refine .bind hF (.onlyIf hF ?_) fun _ => ?_
  · exact .bind hF (hR.sys _ trivial) fun _ => .pure hF _
  · exact .bind hF (.forM hF fun _ _ => hR.releaseCap _) fun _ => hR.setPcb _ _

/-- The sleeper is kept in a variable of its own. -/
theorem sysSleep : Keeps R (Rootserver.sysSleep sel4 boot) := by
  have hF := hR.toFrame
  refine .bind hF (.get hF) fun r => .ite (hR.reply _) ?_
  exact .bind hF (hR.sys _ trivial) fun _ => .ite (.modify fun r => hR.sleeper r _) (hR.reply _)

/-- A caller that is parked has its slot in its block. -/
theorem sysWait (sender : ℕ) (m : Message) :
    Keeps R (Rootserver.sysWait sel4 boot sender m) := by
  have hF := hR.toFrame
  refine .bind hF (.get hF) fun r => ?_
  refine .ite (.bind hF (hR.setPcb _ _) fun _ => ?_) (hR.reply _)
  refine .bind hF hR.allocSlot fun _ => .bind hF (hR.sys _ trivial) fun _ => ?_
  exact hR.setPcb _ _

/-- The image is read through the block driver, and then a process started. -/
theorem sysExec (m : Message) : Keeps R (Rootserver.sysExec sel4 boot m) := by
  have hF := hR.toFrame
  refine .bind hF (hR.loadLoop _ _ _) fun loaded => ?_
  match loaded with
  | none => exact hR.reply _
  | some [] => exact hR.reply _
  | some (b :: bs) =>
    exact .ite (.bind hF (hR.spawnProcess _ _ _) fun _ => hR.reply _) (hR.reply _)

/-- A fault of a process ends in its recovery. -/
theorem fatalFault (sender : ℕ) : Keeps R (Rootserver.fatalFault sel4 boot sender) :=
  .onlyIf hR.toFrame (hR.genericRecoverProcess _)

/-- A recovery on demand, if the name is found. -/
theorem sysRecover (m : Message) : Keeps R (Rootserver.sysRecover sel4 boot m) := by
  have hF := hR.toFrame
  refine .bind hF (.get hF) fun r => ?_
  cases pids.find? fun i => (r.pcbs i).active && (r.pcbs i).name = m.driverName with
  | none => exact hR.reply _
  | some p => exact .bind hF (hR.genericRecoverProcess _) fun _ => hR.reply _

/-- A critical process is recovered, another one deleted. -/
theorem sysKill (m : Message) : Keeps R (Rootserver.sysKill sel4 boot m) := by
  have hF := hR.toFrame
  refine .bind hF (.get hF) fun r => .ite (.ite ?_ ?_) (hR.reply _)
  · exact .bind hF (hR.genericRecoverProcess _) fun _ => hR.reply _
  · refine .bind hF (hR.stopThread _) fun _ => ?_
    exact .bind hF (hR.deleteProcess _ _) fun _ => hR.reply _

/-- A report changes the flags of the drivers and may answer the shell. -/
theorem sysDriverReady (sender : ℕ) :
    Keeps R (Rootserver.sysDriverReady sel4 boot sender) := by
  have hF := hR.toFrame
  refine .bind hF (.get hF) fun r => ?_
  refine .bind hF (.onlyIf hF ?_) fun _ => hR.reply _
  refine .bind hF (.modify fun r => hR.drivers r _ r.driverReadyWaitReply) fun _ => ?_
  refine .bind hF (.get hF) fun r => .onlyIf hF ?_
  refine .bind hF (hR.answer _ _) fun _ => ?_
  exact .bind hF (hR.freeSlot _) fun _ => .modify fun r => hR.drivers r r.driverReady _

/-- The parked shell is kept in `driver_ready_wait_reply`. -/
theorem sysWaitAllDriversReady :
    Keeps R (Rootserver.sysWaitAllDriversReady sel4 boot) := by
  have hF := hR.toFrame
  refine .bind hF (.get hF) fun r => .ite (hR.reply _) ?_
  refine .bind hF hR.allocSlot fun cap => .bind hF ?_ fun _ => ?_
  · exact .modify fun r => hR.drivers r r.driverReady _
  exact .bind hF (hR.sys _ trivial) fun _ => .pure hF _

/-- What `SYS_EXIT` does when the pipes of the process are closed. -/
theorem endOfExit (sender : ℕ) : Keeps R (do
    forM pids (Rootserver.wake sel4 boot sender)
    let r ← get
    Rootserver.stopThread sel4 (r.pcbs sender)
    Rootserver.deleteProcess sel4 boot sender (r.pcbs sender)) := by
  have hF := hR.toFrame
  refine .bind hF (.forM hF fun i _ => hR.wake _ _) fun _ => ?_
  refine .bind hF (.get hF) fun r => ?_
  exact .bind hF (hR.stopThread _) fun _ => hR.deleteProcess _ _

/-- What `SYS_THREAD_EXIT` does when the pipes of the thread are closed. -/
theorem endOfThreadExit (thread parent : ℕ) : Keeps R (do
    Program.onlyIf (0 < parent ∧ parent < 256) (Rootserver.wake sel4 boot thread parent)
    let r ← get
    Program.onlyIf (r.pcbs thread).IsThread
      (Rootserver.releaseThread sel4 boot thread (r.pcbs thread))) := by
  have hF := hR.toFrame
  refine .bind hF (.onlyIf hF (hR.wake _ _)) fun _ => ?_
  refine .bind hF (.get hF) fun r => ?_
  exact .onlyIf hF (hR.releaseThread _ _)

/-- Boot starts processes and nothing else. -/
theorem bootProcesses (dev : Devices) :
    Keeps R (forM (Rootserver.bootProcesses boot dev) (bootProcess sel4 boot)) := by
  have hF := hR.toFrame
  refine .forM hF fun p _ => .bind hF (hR.spawnProcess p.1 none p.2) fun _ => ?_
  exact .ite .throw (.pure hF _)

end Blind

/-- `R` sees no more of a pipe than whether it is in use. -/
structure Steady (sel4 : SeL4 K) (R : Root K → Root K → Prop) : Prop extends Blind sel4 R where
  pipe : ∀ r i f, (∀ x : Pipe, (f x).active = x.active) → R r (r.setPipe i f)

namespace Steady

variable {sel4 : SeL4 K} {boot : Boot} {R : Root K → Root K → Prop} (hR : Steady sel4 R)

include hR

/-- A change of a pipe is not visible if the pipe stays in use or unused. -/
theorem setPipe (i : ℕ) {f : Pipe → Pipe} (hf : ∀ x : Pipe, (f x).active = x.active) :
    Keeps R (Rootserver.setPipe i f : RootM K PUnit) :=
  .modify fun r => hR.pipe r i f hf

/-- The reader is answered and its field emptied. -/
theorem answerReader (i : ℕ) (value : ℤ) : Keeps R (Rootserver.answerReader sel4 boot i value) := by
  have hF := hR.toFrame
  refine .bind hF (.get hF) fun r => .bind hF (hR.answer _ _) fun _ => ?_
  exact .bind hF (hR.freeSlot _) fun _ => hR.setPipe i fun _ => rfl

/-- The end mark does not take a pipe out of use. -/
theorem closeWriter (i : ℕ) : Keeps R (Rootserver.closeWriter sel4 boot i) := by
  have hF := hR.toFrame
  refine .bind hF (hR.setPipe i fun _ => rfl) fun _ => .bind hF (.get hF) fun r => ?_
  exact .onlyIf hF (hR.answerReader _ _)

/-- Closing goes through the pipes one by one. -/
theorem closePipesOf (p : ℕ) : Keeps R (Rootserver.closePipesOf sel4 boot p) := by
  have hF := hR.toFrame
  exact .forM hF fun i _ => .bind hF (.get hF) fun r => .onlyIf hF (hR.closeWriter i)

omit hR in
/-- Writing does not take a pipe out of use. -/
theorem put_active (x : Pipe) (bs : List ℕ) : (bs.foldl Pipe.put x).active = x.active := by
  induction bs generalizing x with
  | nil => rfl
  | cons b bs ih =>
    rw [List.foldl_cons, ih]
    unfold Pipe.put
    split <;> rfl

/-- A write answers the parked reader or goes into the buffer. -/
theorem sysPuts (m : Message) : Keeps R (Rootserver.sysPuts sel4 boot m) := by
  have hF := hR.toFrame
  refine .bind hF (.onlyIf hF ?_) fun _ => hR.reply _
  refine .bind hF (hR.setPipe _ fun x => put_active x _) fun _ => ?_
  refine .bind hF (.get hF) fun r => ?_
  cases (r.pipes (m.badge - pipeBaseBadge)).buffer with
  | nil => exact .pure hF _
  | cons byte rest =>
    refine .onlyIf hF (.bind hF (hR.setPipe _ fun _ => rfl) fun _ => ?_)
    exact hR.answerReader _ _

/-- A read takes a byte or parks its caller. -/
theorem sysRead (m : Message) : Keeps R (Rootserver.sysRead sel4 boot m) := by
  have hF := hR.toFrame
  refine .ite (.bind hF (.get hF) fun r => ?_) (hR.reply _)
  cases (r.pipes (m.badge - pipeBaseBadge)).buffer with
  | cons byte rest => exact .bind hF (hR.setPipe _ fun _ => rfl) fun _ => hR.reply _
  | nil =>
    refine .ite (hR.reply _) (.bind hF hR.allocSlot fun _ => ?_)
    refine .bind hF (hR.setPipe _ fun _ => rfl) fun _ => ?_
    exact .bind hF (hR.sys _ trivial) fun _ => .pure hF _

/-- The writer closes one pipe, and the pipe stays in use. -/
theorem sysPipeWrClose (m : Message) : Keeps R (Rootserver.sysPipeWrClose sel4 boot m) := by
  have hF := hR.toFrame
  exact .bind hF (.onlyIf hF (hR.closeWriter _)) fun _ => hR.reply _

/-- The pipes of the process first, then the process. -/
theorem sysExit (sender : ℕ) : Keeps R (Rootserver.sysExit sel4 boot sender) := by
  have hF := hR.toFrame
  exact .onlyIf hF (.bind hF (hR.closePipesOf _) fun _ => hR.endOfExit sender)

/-- The pipes of the thread first, then its creator and the thread. -/
theorem sysThreadExit (m : Message) : Keeps R (Rootserver.sysThreadExit sel4 boot m) := by
  have hF := hR.toFrame
  refine .bind hF (.get hF) fun r => .onlyIf hF (.bind hF (hR.closePipesOf _) fun _ => ?_)
  exact hR.endOfThreadExit _ _

/-- A thread is started, and may be registered as the writer of a pipe. -/
theorem sysClone (sender : ℕ) (m : Message) : Keeps R (Rootserver.sysClone sel4 boot sender m) := by
  have hF := hR.toFrame
  intro r
  refine .bind (.get ?_)
  cases hfree : r.freePid with
  | none => exact hR.reply _ r
  | some p =>
    have hp := (Root.freePid_eq_some hfree).2.2
    refine Keeps.bind hF (hR.setPcb p _) (fun _ => ?_) r
    refine .bind hF (hR.cloneBody sender hp m) fun _ => ?_
    refine .bind hF (.onlyIf hF (hR.setPipe _ fun _ => rfl)) fun _ => ?_
    refine .bind hF (.get hF) fun _ => .bind hF (hR.sys _ trivial) fun _ => ?_
    exact hR.reply _

/-- Every message but `SYS_PIPE` and `SYS_PIPE_CLOSE` is invisible. -/
theorem step {r r' : Root K} {m : Message} (h : Step sel4 boot r m r')
    (hm : ¬ (m.label = .other ∧ (m.mr 0 = 20 ∨ m.mr 0 = 25))) : R r r' := by
  suffices hends : Ends (handle sel4 boot m) r fun _ t => R r t from hends _ _ h
  refine .bind (.get ?_)
  cases r.senderPid m.badge with
  | none => exact .pure (hR.refl r)
  | some sender =>
    cases hl : m.label with
    | vmFault =>
      refine .ite (fun _ => hR.pageFault _ _ r) fun _ => .ite (fun _ => .throw) fun _ => ?_
      exact hR.fatalFault sender r
    | capFault => exact hR.fatalFault sender r
    | other =>
      refine .bind (.get ?_)
      split
      · exact hR.reply _ r
      · exact hR.reply _ r
      · exact hR.sysSleep r
      · exact hR.reply _ r
      · exact hR.sysRead m r
      · exact hR.reply _ r
      · exact hR.sysPuts m r
      · exact absurd ⟨hl, .inl ‹_›⟩ hm
      · exact hR.sysPipeWrClose m r
      · exact absurd ⟨hl, .inr ‹_›⟩ hm
      · exact hR.reply _ r
      · exact hR.sysExec m r
      · exact hR.sysClone sender m r
      · exact hR.sysKill m r
      · exact hR.sysExit sender r
      · exact hR.reply _ r
      · exact hR.sysThreadExit m r
      · exact hR.sysWait sender m r
      · exact hR.sysShmGet m r
      · exact hR.reply _ r
      · exact hR.sysDriverReady sender r
      · exact hR.sysWaitAllDriversReady r
      · exact hR.sysRecover m r
      · exact hR.reply _ r

end Steady

/-! ## Relations that see only the kernel -/

/-- `R` sees nothing of the rootserver's own variables, and no kernel call at all. -/
structure KernelOnly (sel4 : SeL4 K) (R : Root K → Root K → Prop) : Prop extends Frame R where
  invoke : ∀ r inv, R r { r with kernel := (sel4.invoke r.kernel inv).2 }
  callBlk : ∀ r name offset a k, sel4.callBlk r.kernel name offset = some (a, k) →
    R r { r with kernel := k }
  same : ∀ r t, t.kernel = r.kernel → R r t

namespace KernelOnly

variable {sel4 : SeL4 K} {boot : Boot} {R : Root K → Root K → Prop} (hR : KernelOnly sel4 R)

include hR

/-- What sees the kernel calls of a step alone is steady. -/
theorem steady : Steady sel4 R where
  toFrame := hR.toFrame
  mute r inv _ _ := hR.invoke r inv
  humble _ _ _ _ := hR.same _ _ rfl
  invoke r inv _ := hR.invoke r inv
  callBlk := hR.callBlk
  alloc _ _ := hR.same _ _ rfl
  elfWindow _ _ := hR.same _ _ rfl
  ipcWindow _ _ := hR.same _ _ rfl
  cloneWindow _ _ := hR.same _ _ rfl
  pcb _ _ _ _ := hR.same _ _ rfl
  process _ _ _ := hR.same _ _ rfl
  drivers _ _ _ := hR.same _ _ rfl
  sleeper _ _ := hR.same _ _ rfl
  pipe _ _ _ _ := hR.same _ _ rfl

/-- Every kernel call is a step of the relation. -/
theorem sys (inv : Invocation) : Keeps R (Rootserver.sys sel4 inv) := by
  intro r _ t hrun
  cases hrun
  exact hR.invoke r inv

/-- Pipes are not seen at all. -/
theorem setPipe (i : ℕ) (f : Pipe → Pipe) : Keeps R (Rootserver.setPipe i f : RootM K PUnit) :=
  .modify fun _ => hR.same _ _ rfl

/-- `SYS_PIPE` is the kernel calls that it makes. -/
theorem sysPipe (sender : ℕ) (m : Message) : Keeps R (Rootserver.sysPipe sel4 boot sender m) := by
  have hF := hR.toFrame
  refine .bind hF (.get hF) fun r => ?_
  cases r.freePipe with
  | none => exact hR.steady.reply _
  | some i =>
    refine .bind hF (hR.setPipe i _) fun _ => .bind hF (hR.sys _) fun _ => ?_
    refine .bind hF (hR.sys _) fun _ => .ite (hR.steady.reply _) ?_
    exact .bind hF (hR.setPipe i _) fun _ => hR.steady.reply _

/-- `SYS_PIPE_CLOSE` makes no kernel call but the reply. -/
theorem sysPipeClose (m : Message) : Keeps R (Rootserver.sysPipeClose sel4 m) := by
  have hF := hR.toFrame
  refine .bind hF (.onlyIf hF (.bind hF (hR.setPipe _ _) fun _ => ?_)) fun _ => hR.steady.reply _
  refine .bind hF (.get hF) fun r => .onlyIf hF ?_
  exact .bind hF (hR.sys _) fun _ => .pure hF _

/-- Every message is invisible. -/
theorem step {r r' : Root K} {m : Message} (h : Step sel4 boot r m r') : R r r' := by
  by_cases hm : m.label = .other ∧ (m.mr 0 = 20 ∨ m.mr 0 = 25)
  · cases hsender : r.table.senderPid m.badge with
    | none =>
      rw [step_ignored h hsender]
      exact hR.refl r
    | some sender =>
      have hrun := step_syscall h hsender hm.1
      rw [syscall, run_bind, run_get] at hrun
      rcases hm.2 with hnumber | hnumber
      · rw [hnumber] at hrun
        exact hR.sysPipe sender m r _ _ hrun
      · rw [hnumber] at hrun
        exact hR.sysPipeClose m r _ _ hrun
  · exact hR.steady.step h hm

end KernelOnly

/-- A property of the ghost part that every answer of the kernel keeps. -/
theorem kernelOnly_ghosted {G : Type} {sel4 : SeL4 K} {after : G → Invocation → SeL4Error → G}
    {P : G → Prop} (hP : ∀ c i e, P c → P (after c i e)) :
    KernelOnly (sel4.ghosted after) fun r t => P r.kernel.2 → P t.kernel.2 where
  refl _ h := h
  trans _ _ _ h h' hr := h' (h hr)
  invoke _ _ hr := hP _ _ _ hr
  callBlk r name offset a k hcall hr := by
    obtain ⟨p, -, hp⟩ := Option.map_eq_some_iff.mp hcall
    cases hp
    exact hr
  same r t h hr := by rwa [h]

end PsychWard.Rootserver
