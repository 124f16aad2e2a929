import PsychWard.Common.Run
import PsychWard.Rootserver.Custody
import PsychWard.Rootserver.Slots

/-!
# One holder for every slot

The handlers of the rootserver find the slots they return where `Balanced` counts them, and put the
slots they take where it counts them. So in every run a slot has one holder at most, and the objects
of a live process are its own.

One call is different. `SYS_SHM_GET` that fails returns the copies it made but leaves their numbers
in the block, and when the process calls it again they count as copies of the window once more.
-/

namespace PsychWard.Rootserver

open Program

variable {K : Type} {sel4 : SeL4 K} {boot : Boot} {P : Finset ℕ} {l : List Token} {r t : Root K}
  {p i slot : ℕ} {m : Message}

/-- Every PID. -/
abbrev allPids : Finset ℕ := Finset.range 256

/-- A block is marked as dead, and counts again. -/
theorem Balanced.bury (h : Balanced (P.erase p) [] r) (hp : p ∈ P) {f : Pcb → Pcb}
    (hf : ∀ x, (f x).active = false) : Balanced P [] (r.setPcb p f) := by
  have hpe : p ∉ P.erase p := Finset.notMem_erase p P
  have hset : Balanced (P.erase p) [] (r.setPcb p f) :=
    h.setPcb (fun s _ => by simp [hpe]) (fun _ _ _ hs => absurd hs List.not_mem_nil)
      fun h => absurd h hpe
  have hdead : ((r.setPcb p f).pcbs p).active = false := by
    rw [Root.setPcb_self]
    exact hf _
  refine Balanced.readmit ?_ hp (fun _ => List.not_mem_nil) fun h => ?_
  · rwa [Pcb.held_dead hdead]
  · rw [hdead] at h
    cases h

/-- The reply capability of a live process is one of the slots its block answers for. -/
theorem Pcb.count_reply {x : Pcb} (h : x.active = true) {s : ℕ} (hs : s ≠ 0) :
    { x with replyCap := 0 }.held.count s + [x.replyCap].count s = x.held.count s := by
  rw [Pcb.count_held h, Pcb.count_held (x := { x with replyCap := 0 }) h]
  change _ + ([0].count s + x.window.count s) + _ = _
  rw [List.count_cons_of_ne hs.symm, List.count_nil]
  dsimp only
  omega

/-- Whom a process waits for is no slot. -/
theorem Pcb.alike_waitingFor (x : Pcb) (target : ℤ) : x.Alike { x with waitingFor := target } :=
  ⟨rfl, rfl, rfl⟩

namespace Neutral

/-! ## The end of a process -/

/-- Noting whom a process waits for moves no slot. -/
theorem noteWaiting (i : ℕ) (target : ℤ) : Neutral P
    (Rootserver.setPcb i fun pcb => { pcb with waitingFor := target } : RootM K PUnit) :=
  note i (fun x => x.alike_waitingFor target) fun _ => rfl

/-- The saved slot of a woken waiter is in no place afterwards: it is not returned. -/
theorem wakeAndDrop (pid i : ℕ) : Neutral P (Rootserver.wakeAndDrop sel4 boot pid i) := by
  refine .get fun r => .onlyIf fun _ => .seq (noteWaiting i 0) fun _ => ?_
  refine .seq (answer _ _) fun _ => ?_
  refine setPcb i (fun x s hs => Pcb.count_held_le id ?_) (fun _ => List.Subset.refl _)
    fun x _ howns => howns
  change _ + ([0].count s + x.window.count s) ≤ _
  rw [List.count_cons_of_ne hs.symm, List.count_nil]
  dsimp only
  omega

/-- The slot of the answered caller is that of the block, which forgets it. -/
theorem wake (pid : ℕ) (hi : i ∈ P) : Neutral P (Rootserver.wake sel4 boot pid i) := by
  intro rest r hr
  refine .bind (.get (.onlyIf (fun hactive => ?_) fun _ => hr))
  refine .seq ((noteWaiting i 0 rest r hr).and (ends_setPcb i _ r)) fun _ t ⟨hnote, ht⟩ => ?_
  have hblock : t.pcbs i = { r.pcbs i with waitingFor := 0 } := ht ▸ Root.setPcb_self ..
  have hrelease : Balanced P (.slot (r.pcbs i).replyCap :: rest)
      (t.setPcb i fun pcb => { pcb with replyCap := 0 }) := by
    refine hnote.setPcb (fun s hs => ?_) (fun q hq s hs => ?_) fun _ h => hnote.owns i hi h
    · have hcount := Pcb.count_reply (x := { r.pcbs i with waitingFor := 0 }) hactive.1 hs
      rw [if_pos hi, if_pos hi, hblock, count_slot_cons]
      rw [List.count_singleton] at hcount
      simp only [beq_iff_eq] at hcount
      dsimp only at hcount ⊢
      rw [List.nil_append]
      omega
    · exact hnote.known_setPcb (fun _ => List.Subset.refl _) q hq s (by simpa using hs)
  intro _ u hrun
  cases hrun
  exact hrelease.free.congr rfl rfl rfl rfl

/-- Slots in hand may be forgotten. -/
theorem weaken {α : Type} {m : RootM K α} {l₂ : α → List Token} {xs ys : List ℕ}
    (h : Custody (Balanced P) (xs.map .slot) m l₂) (hle : ∀ s ≠ 0, xs.count s ≤ ys.count s) :
    Custody (Balanced P) (ys.map .slot) m l₂ := by
  refine fun rest r hr => h rest r (hr.mono (fun s hs => ?_) fun p s hs => ?_)
  · rw [List.count_append, List.count_append, count_slots, count_slots]
    exact Nat.add_le_add_right (hle s hs) _
  · have hrest := (List.mem_append.mp hs).resolve_left (tracked_notMem_slots _ _ _)
    exact List.mem_append_right _ hrest

/-- What `generic_recover_process` returns to the allocator is what the block of the failed process
answers for. -/
theorem tearDown {pid : ℕ} (hp : pid ∉ P) {old : Pcb} (h : old.active = true) :
    Custody (Balanced P) (old.held.map .slot) (Rootserver.tearDown sel4 boot pid old)
      fun _ => [] := by
  have hreleased : Custody (Balanced P) (old.released.map .slot)
      (forM old.released (Rootserver.releaseCap sel4 boot)) fun _ => [] :=
    .forM_spend fun cap _ => releaseCap cap
  have hwindow : Custody (Balanced P) (old.window.map .slot) (Program.onlyIf old.hasShm
      (forM (List.range 4) fun i => Rootserver.dropCopy sel4 boot (old.shmCopies i)))
      fun _ => [] := by
    rw [Pcb.window]
    refine .ite (fun hshm => ?_) fun hshm => ?_
    · rw [if_pos hshm, List.map_map]
      exact .forM_spend fun i _ => dropCopy _
    · rw [if_neg hshm]
      exact .pure _
  have hle (s : ℕ) : (old.released ++ old.window).count s ≤ old.held.count s := by
    have hle : old.released.count s ≤ old.capTracker.count s := List.filter_sublist.count_le s
    rw [List.count_append, Pcb.count_held h]
    omega
  refine weaken ?_ fun s _ => hle s
  rw [List.map_append]
  refine .seq (.forM fun i _ => wakeAndDrop _ i) fun _ => ?_
  refine .seq (.onlyIf fun _ => stopThread _) fun _ => ?_
  exact .bind (hreleased.frame _) fun _ => .seq (apart hp _) fun _ => hwindow

/-- Three objects are deleted, and their slots are nobody's afterwards. -/
theorem deleteProcess (pid : ℕ) (pcb : Pcb) :
    Neutral P (Rootserver.deleteProcess sel4 boot pid pcb) := by
  refine .seq (setPcb pid (fun x s _ => ?_) (fun _ => List.Subset.refl _) fun _ _ _ h => ?_)
    fun _ => .seq (sys _) fun _ => .seq (sys _) fun _ => ?_
  · rw [Pcb.held_dead rfl]
    exact Nat.zero_le _
  · cases h
  · exact .onlyIf fun _ => .seq (sys _) fun _ => .pure _

/-! ## Pipes -/

/-- The slot of the parked reader goes back to the pool. -/
theorem answerReader {i : ℕ} (hi : i < maxPipes) (value : ℤ) :
    Neutral P (Rootserver.answerReader sel4 boot i value) := by
  intro rest r hr
  refine .bind (.get ?_)
  have hrelease : Balanced P (.slot (r.pipes i).readerReplyCap :: rest)
      (r.setPipe i fun p => { p with readerReplyCap := 0 }) := by
    refine hr.setPipe (fun s hs => ?_) fun p s hs => by simpa using hs
    rw [if_pos hi, if_pos hi, List.count_cons_of_ne hs.symm, count_slot_cons, List.count_singleton,
      List.count_nil, List.nil_append]
    simp only [beq_iff_eq]
    omega
  intro _ u hrun
  cases hrun
  exact hrelease.free.congr rfl rfl rfl rfl

/-- The end mark moves no slot, the answer to the reader does. -/
theorem closeWriter {i : ℕ} (hi : i < maxPipes) :
    Neutral P (Rootserver.closeWriter sel4 boot i) :=
  .seq (mark i fun _ => rfl) fun _ => .get fun _ => .onlyIf fun _ => answerReader hi 0

/-- So does the end of a process that writes pipes. -/
theorem closePipesOf (pid : ℕ) : Neutral P (Rootserver.closePipesOf sel4 boot pid) :=
  .forM fun _ hi => .get fun _ => .onlyIf fun _ => closeWriter (List.mem_range.mp hi)

/-- A pipe call names a pipe of the table. -/
theorem sub_base_lt {badge : ℕ} (h : isPipeCall badge) : badge - pipeBaseBadge < maxPipes := by
  obtain ⟨hle, hlt⟩ := h
  omega

/-- A reader that parks takes a slot for its capability. -/
theorem readPipe (i : ℕ) : Neutral P (Rootserver.readPipe sel4 boot i) := by
  refine .get fun r => ?_
  cases (r.pipes i).buffer with
  | cons byte rest => exact .seq (mark i fun _ => rfl) fun _ => reply _
  | nil =>
    refine .ite (fun _ => reply _) fun _ => .bind allocSlot fun cap => ?_
    refine .bind (setPipe i fun x s _ => ?_) fun _ => .seq (sys _) fun _ => .pure _
    exact (count_slot cap s).symm ▸ Nat.le_add_left _ _

/-- A write answers a parked reader or nobody. -/
theorem sysPuts (m : Message) : Neutral P (Rootserver.sysPuts sel4 boot m) := by
  refine .seq (.onlyIf fun hpipe => .seq (mark _ fun x => ?_) fun _ => ?_) fun _ => reply _
  · exact Spares.readerReplyCap_put _ x
  · refine .get fun r => ?_
    cases (r.pipes (m.badge - pipeBaseBadge)).buffer with
    | nil => exact .pure _
    | cons byte rest =>
      exact .onlyIf fun _ => .seq (mark _ fun _ => rfl) fun _ => answerReader (sub_base_lt hpipe) _

/-- A new pipe takes no slot of the pool: its end is minted into a slot of the caller. -/
theorem sysPipe (sender : ℕ) (m : Message) :
    Neutral P (Rootserver.sysPipe sel4 boot sender m) := by
  refine .get fun r => ?_
  cases r.freePipe with
  | none => exact reply _
  | some i =>
    refine .seq (setPipe i fun x s hs => ?_) fun _ => .seq (sys _) fun _ => ?_
    · rw [List.count_cons_of_ne hs.symm]
      exact Nat.zero_le _
    refine .seq (sys _) fun _ => .ite (fun _ => reply _) fun _ => ?_
    exact .seq (mark i fun _ => rfl) fun _ => reply _

/-- A closed pipe keeps what its reader saved. -/
theorem sysPipeClose (m : Message) : Neutral P (Rootserver.sysPipeClose sel4 m) := by
  refine .seq (.onlyIf fun _ => ?_) fun _ => reply _
  refine .seq (mark _ fun _ => rfl) fun _ => .get fun _ => .onlyIf fun _ => ?_
  exact .seq (sys _) fun _ => .pure _

/-! ## System calls that start and end no process -/

/-- A waiter that parks takes a slot for its capability. -/
theorem sysWait (sender : ℕ) (m : Message) :
    Neutral P (Rootserver.sysWait sel4 boot sender m) := by
  refine .get fun r => .ite (fun _ => ?_) fun _ => reply _
  refine .seq (noteWaiting sender _) fun _ => .bind allocSlot fun cap => .seq (sys _) fun _ => ?_
  refine setPcb sender (fun x s _ => Pcb.count_held_le id ?_) (fun _ => List.Subset.refl _)
    fun x _ howns => howns
  change _ + ([cap].count s + x.window.count s) ≤ _
  rw [count_slot]
  dsimp only
  omega

/-- The waiter for the drivers gives its slot back. -/
theorem sysDriverReady (sender : ℕ) :
    Neutral P (Rootserver.sysDriverReady sel4 boot sender) := by
  refine .get fun r => .seq (.onlyIf fun _ => .seq ?_ fun _ => ?_) fun _ => reply _
  · exact window (fun _ => rfl) (fun _ => rfl) (fun _ => rfl) fun _ => rfl
  intro rest t ht
  refine .bind (.get (.onlyIf (fun _ => ?_) fun _ => ht))
  have hrelease : Balanced P (.slot t.driverReadyWaitReply :: rest)
      { t with driverReadyWaitReply := 0 } := by
    refine ht.setWait (fun s hs => ?_) fun p s hs => by simpa using hs
    rw [List.count_cons_of_ne hs.symm, count_slot_cons, List.count_singleton, List.count_nil,
      List.nil_append]
    simp only [beq_iff_eq]
    omega
  intro _ u hrun
  cases hrun
  exact hrelease.free.congr rfl rfl rfl rfl

/-- And takes it when it parks. -/
theorem sysWaitAllDriversReady : Neutral P (Rootserver.sysWaitAllDriversReady sel4 boot) := by
  refine .get fun r => .ite (fun _ => reply _) fun _ => .bind allocSlot fun cap => ?_
  have hwait : Custody (Balanced P) [.slot cap]
      (modify fun r => { r with driverReadyWaitReply := cap } : RootM K PUnit) fun _ => [] := by
    refine fun rest t ht => .modify (ht.setWait (fun s _ => ?_) fun _ _ => List.mem_append_right _)
    rw [List.count_append, List.count_append, count_slot, List.count_nil]
    omega
  exact .bind hwait fun _ => .seq (sys _) fun _ => .pure _

/-- The sleeper has a slot of its own, outside the pool. -/
theorem sysSleep : Neutral P (Rootserver.sysSleep sel4 boot) := by
  refine .get fun r => .ite (fun _ => reply _) fun _ => .seq (sys _) fun _ => ?_
  refine .ite (fun _ => ?_) fun _ => reply _
  exact window (fun _ => rfl) (fun _ => rfl) (fun _ => rfl) fun _ => rfl

/-- The frame of a page is tracked by its process. -/
theorem pageFault (sender addr : ℕ) : Neutral P (Rootserver.pageFault sel4 sender addr) := by
  refine .seq (allocAndTrackCap _) fun _ => .seq (sys _) fun _ => .seq (checkErr _) fun _ => ?_
  exact .get fun _ => .seq (sys _) fun _ => .seq (checkErr _) fun _ => reply _

/-- The slots of the sender are nobody's afterwards; those of its waiters go back. -/
theorem sysExit (sender : ℕ) : Neutral allPids (Rootserver.sysExit sel4 boot sender) := by
  refine .onlyIf fun _ => .seq (closePipesOf _) fun _ => ?_
  refine .seq (.forM fun i hi => wake _ ?_) fun _ => .get fun _ => ?_
  · exact Finset.mem_range.mpr (mem_pids.mp hi).2
  · exact .seq (stopThread _) fun _ => deleteProcess _ _

end Neutral

namespace Balanced

/-! ## Processes -/

/-- A recovery releases what was tracked and starts with new slots. -/
theorem genericRecoverProcess (hr : Balanced allPids [] r) (pid : ℤ) :
    Ends (Rootserver.genericRecoverProcess sel4 boot pid) r fun _ t => Balanced allPids [] t := by
  refine .bind (.get (.ite (fun _ => .pure hr) fun hpid => ?_))
  have hactive : (r.pcbs pid.toNat).active = true := by
    by_contra h
    exact hpid (.inr (.inr (Bool.not_eq_true _ ▸ h)))
  have hp : pid.toNat ∈ allPids := Finset.mem_range.mpr (by omega)
  refine .seq (Neutral.tearDown (Finset.notMem_erase _ _) hactive [] r (hr.erase hp))
    fun _ t ht => ?_
  refine .seq (Q := fun _ u => Balanced (allPids.erase pid.toNat) [] u) ?_ fun _ u hu =>
    .modify (hu.bury hp fun _ => rfl)
  exact .onlyIf (fun _ => .seq (ht.spawnProcess _ _ _) fun _ u hu => .pure hu) fun _ => ht

/-- A thread returns everything its block tracks. -/
theorem releaseThread (hr : Balanced P [] r) {pid : ℕ} (hp : pid ∈ P)
    (hactive : (r.pcbs pid).active = true) :
    Ends (Rootserver.releaseThread sel4 boot pid (r.pcbs pid)) r fun _ t => Balanced P [] t := by
  have hloop : Custody (Balanced (P.erase pid)) ((r.pcbs pid).capTracker.map .slot)
      (forM (r.pcbs pid).capTracker (releaseCap sel4 boot)) fun _ => [] :=
    .forM_spend fun cap _ => Neutral.releaseCap cap
  have hall : Custody (Balanced (P.erase pid)) ((r.pcbs pid).held.map .slot)
      (forM (r.pcbs pid).capTracker (releaseCap sel4 boot)) fun _ => [] :=
    Neutral.weaken hloop fun s _ => by
      rw [Pcb.count_held hactive]
      exact Nat.le_add_right _ _
  refine .seq (Neutral.sys _ _ r (hr.erase hp)) fun _ t ht => ?_
  refine .seq (Q := fun _ u => Balanced (P.erase pid) _ u) (.onlyIf (fun _ => ?_) fun _ => ht)
    fun _ u hu => .seq (hall [] u hu) fun _ v hv => .modify (Balanced.bury hv hp fun _ => rfl)
  exact .seq (Neutral.sys _ _ t ht) fun _ u hu => .pure hu

/-- A thread gives back what it tracked. -/
theorem sysThreadExit (hr : Balanced allPids [] r) :
    Ends (Rootserver.sysThreadExit sel4 boot m) r fun _ t => Balanced allPids [] t := by
  refine .bind (.get (.onlyIf (fun hthread => ?_) fun _ => hr))
  refine .seq ((Neutral.closePipesOf (m.badge % 2 ^ 16) [] r hr).and (sameTable_closePipesOf _ r))
    fun _ t ⟨ht, htable⟩ => ?_
  have hactive : (t.table (m.badge % 2 ^ 16)).active = true := by
    rw [show t.table = r.table from htable]
    exact hthread.2.2
  refine .seq (Q := fun _ u => Balanced allPids [] u ∧
    (u.table (m.badge % 2 ^ 16)).active = true) ?_ fun _ u ⟨hu, halive⟩ => ?_
  · refine .onlyIf (fun hpar => ?_) fun _ => ⟨ht, hactive⟩
    refine ((Neutral.wake _ (Finset.mem_range.mpr hpar.2) [] t ht).and (table_wake _ _ t)).mono ?_
    rintro _ u ⟨hu, htable⟩
    refine ⟨hu, ?_⟩
    rcases eq_or_ne (m.badge % 2 ^ 16) (m.badge / 2 ^ 16 % 2 ^ 16) with heq | hne
    · rwa [htable, ← heq, Function.update_self, Table.woken_active]
    · rwa [htable, Function.update_of_ne hne]
  · exact .bind (.get (.onlyIf (fun _ => hu.releaseThread (Finset.mem_range.mpr hthread.2.1) halive)
      fun _ => hu))

/-- A kill deletes the objects of its target, or recovers it. -/
theorem sysKill (hr : Balanced allPids [] r) :
    Ends (Rootserver.sysKill sel4 boot m) r fun _ t => Balanced allPids [] t := by
  refine .bind (.get (.ite (fun _ => ?_) fun _ => Neutral.reply _ [] r hr))
  refine .ite (fun _ => ?_) fun _ => ?_
  · exact .seq (hr.genericRecoverProcess _) fun _ t ht => Neutral.reply _ [] t ht
  · exact (Custody.seq (Neutral.stopThread _) fun _ => .seq (Neutral.deleteProcess _ _) fun _ =>
      Neutral.reply _) [] r hr

/-- A new process tracks the slots of its spawn. -/
theorem sysExec (hr : Balanced P [] r) :
    Ends (Rootserver.sysExec sel4 boot m) r fun _ t => Balanced P [] t := by
  refine .seq (Neutral.loadLoop _ _ _ [] r hr) fun loaded t ht => ?_
  split
  · exact Neutral.reply _ [] t ht
  · exact Neutral.reply _ [] t ht
  · refine .ite (fun _ => ?_) fun _ => Neutral.reply _ [] t ht
    exact .seq (ht.spawnProcess _ _ _) fun _ u hu => Neutral.reply _ [] u hu

/-- So does a recovered one. -/
theorem sysRecover (hr : Balanced allPids [] r) :
    Ends (Rootserver.sysRecover sel4 boot m) r fun _ t => Balanced allPids [] t := by
  refine .bind (.get ?_)
  split
  · exact Neutral.reply _ [] r hr
  · exact .seq (hr.genericRecoverProcess _) fun _ t ht => Neutral.reply _ [] t ht

/-- A fault pages in or recovers. -/
theorem vmFault (hr : Balanced allPids [] r) (sender : ℕ) :
    Ends (Rootserver.vmFault sel4 boot sender m) r fun _ t => Balanced allPids [] t := by
  refine .ite (fun _ => Neutral.pageFault _ _ [] r hr) fun _ => .ite (fun _ => .throw) fun _ => ?_
  exact .onlyIf (fun _ => hr.genericRecoverProcess _) fun _ => hr

end Balanced

/-- A thread is given a TCB, an endpoint and a page, and its block names them. -/
theorem Neutral.cloneBody (sender pid : ℕ) (m : Message) :
    Neutral P (Rootserver.cloneBody sel4 boot sender pid m) := by
  refine .next (allocKnown pid) fun tcb => .seq (sys _) fun _ => ?_
  refine .next (allocKnown pid) fun badgedEp => .seq (sys _) fun _ => .get fun _ => ?_
  iterate 2 refine .seq (sys _) fun _ => ?_
  refine .next (allocKnown pid) fun ipcFrame => .seq (sys _) fun _ => ?_
  refine .get fun _ => .seq ?_ fun _ => ?_
  · exact window (fun _ => rfl) (fun _ => rfl) (fun _ => rfl) fun _ => rfl
  iterate 3 refine .seq (sys _) fun _ => ?_
  refine .seq (checkErr _) fun _ => ?_
  iterate 4 refine .seq (sys _) fun _ => ?_
  refine name pid (fun _ => ⟨rfl, rfl, rfl⟩) fun x s hs => ?_
  rcases Pcb.mem_names.mp hs with rfl | rfl | rfl | h
  · exact .inr (by simp)
  · exact .inr (by simp)
  · exact .inr (by simp)
  · exact .inl (Pcb.mem_names.mpr (.inr (.inr (.inr h))))

/-- A thread tracks its own slots and borrows the address space of its parent. -/
theorem Balanced.sysClone (hr : Balanced P [] r) (sender : ℕ) :
    Ends (Rootserver.sysClone sel4 boot sender m) r fun _ t => Balanced P [] t := by
  refine .bind (.get ?_)
  cases r.freePid with
  | none => exact Neutral.reply _ [] r hr
  | some pid =>
    have hthread : Balanced P [] (r.setPcb pid fun _ => Pcb.freshThread (r.pcbs sender)) :=
      hr.renew (fun _ => Pcb.count_freshThread _) (Pcb.owns_freshThread _) pid
    refine .bind (.modify (.seq (Neutral.cloneBody sender pid m [] _ hthread) fun _ t ht => ?_))
    generalize toInt32 (m.mr 8) = pipe
    refine .seq (Q := fun _ u => Balanced P [] u) (.onlyIf (fun _ => ?_) fun _ => ht)
      fun _ u hu => ?_
    · refine Neutral.mark _ ?_ [] t ht
      exact fun _ => rfl
    · exact .bind (.get (.seq (Neutral.sys _ [] u hu) fun _ v hv => Neutral.reply _ [] v hv))

/-! ## The shared window -/

/-- The process asks for the shared window again after it was refused: its block still has the
numbers of the copies that were returned. -/
def Root.Repeats (r : Root K) (m : Message) : Prop :=
  (m.label = .other ∧ m.mr 0 = 107) ∧ (r.pcbs (toInt32 m.badge).toNat).hasShm = false ∧
    ∃ i < 4, (r.pcbs (toInt32 m.badge).toNat).shmCopies i ≠ 0

/-- The processes that live, and those that have the shared window, stay the same. -/
def SameShm (r t : Root K) : Prop :=
  ∀ p, (t.pcbs p).active = (r.pcbs p).active ∧ (t.pcbs p).hasShm = (r.pcbs p).hasShm

/-- That no window is opened or closed composes. -/
theorem frame_sameShm : Frame (SameShm (K := K)) where
  refl _ _ := ⟨rfl, rfl⟩
  trans _ _ _ h h' p := ⟨(h' p).1.trans (h p).1, (h' p).2.trans (h p).2⟩

/-- A change of a block that leaves its window alone. -/
theorem sameShm_setPcb (p : ℕ) {f : Pcb → Pcb}
    (hf : ∀ x, (f x).active = x.active ∧ (f x).hasShm = x.hasShm) :
    Keeps SameShm (setPcb p f : RootM K PUnit) := by
  refine .modify fun r q => ?_
  by_cases hq : q = p
  · rw [hq, Root.setPcb_self]
    exact hf _
  · rw [Root.setPcb_of_ne r f hq]
    exact ⟨rfl, rfl⟩

/-- The kernel opens no window. -/
theorem sameShm_sys (inv : Invocation) : Keeps SameShm (sys sel4 inv) := by
  intro r _ t hrun
  cases hrun
  exact frame_sameShm.refl r

/-- Taking a slot opens no window. -/
theorem sameShm_allocSlot : Keeps SameShm (allocSlot : RootM K ℕ) := by
  intro r _ t hrun
  cases hrun
  exact frame_sameShm.refl r

/-- Nor does a page table. -/
theorem sameShm_addTable (pid : ℕ) (type : ObjectType) (map : ℕ → Invocation) :
    Keeps SameShm (addTable sel4 pid type map) := by
  have hF := frame_sameShm (K := K)
  refine .bind hF ?_ fun table => .bind hF (sameShm_sys _) fun _ => .onlyIf hF ?_
  · refine .bind hF sameShm_allocSlot fun cap => .bind hF (.get hF) fun r => .ite .throw ?_
    exact .bind hF (sameShm_setPcb pid fun _ => ⟨rfl, rfl⟩) fun _ => .pure hF _
  · exact .bind hF (sameShm_sys _) fun _ => .pure hF _

/-- The copies are made before the window is marked as open. -/
theorem sameShm_shareFrames (pid vaddr : ℕ) (is : List ℕ) :
    Keeps SameShm (shareFrames sel4 boot pid vaddr is) := by
  have hF := frame_sameShm (K := K)
  induction is with
  | nil => exact .pure hF _
  | cons i is ih =>
    refine .bind hF (.bind hF sameShm_allocSlot fun _ => ?_) fun _ => .ite ih (.pure hF _)
    refine .bind hF (sameShm_setPcb pid fun _ => ⟨rfl, rfl⟩) fun _ => .ite (.pure hF _) ?_
    refine .bind hF (sameShm_sys _) fun _ => .ite (.bind hF (.get hF) fun _ => ?_) (.pure hF _)
    refine .bind hF (sameShm_sys _) fun _ => .ite (.bind hF ?_ fun _ => .pure hF _) (.pure hF _)
    refine .bind hF (sameShm_addTable _ _ _) fun _ => .bind hF (sameShm_addTable _ _ _) fun _ => ?_
    exact .bind hF (sameShm_addTable _ _ _) fun _ => sameShm_sys _

/-- Copies that are put back leave the blocks as they are. -/
theorem samePcbs_dropCopies (c : ℕ → ℕ) (is : List ℕ) :
    Keeps (fun r t : Root K => t.pcbs = r.pcbs) (forM is fun i => dropCopy sel4 boot (c i)) := by
  have hF : Frame fun r t : Root K => t.pcbs = r.pcbs :=
    ⟨fun _ => rfl, fun _ _ _ h h' => h'.trans h⟩
  refine .forM hF fun i _ => .onlyIf hF ?_
  intro r _ t hrun
  cases hrun
  rfl

/-- An opened window holds the copies that were counted before. -/
theorem Pcb.count_window_open {x : Pcb} (h : x.hasShm = true ∨ ∀ i < 4, x.shmCopies i = 0) {s : ℕ}
    (hs : s ≠ 0) (vaddr : ℕ) :
    { x with vmapBumpPointer := vaddr, hasShm := true }.window.count s ≤ x.window.count s := by
  change ((List.range 4).map x.shmCopies).count s ≤ _
  rcases h with hshm | hzero
  · rw [Pcb.window, if_pos hshm]
  · have hnone : s ∉ (List.range 4).map x.shmCopies := by
      rintro hmem
      obtain ⟨i, hi, heq⟩ := List.mem_map.mp hmem
      exact hs (heq ▸ hzero i (List.mem_range.mp hi))
    rw [List.count_eq_zero_of_not_mem hnone]
    exact Nat.zero_le _

/-- A process without a window holds the rest. -/
theorem Pcb.count_closed {x : Pcb} (h : x.active = true) (vaddr s : ℕ) :
    { x with hasShm := false, vmapBumpPointer := vaddr }.held.count s + x.window.count s =
      x.held.count s := by
  rw [Pcb.count_held h,
    Pcb.count_held (x := { x with hasShm := false, vmapBumpPointer := vaddr }) h]
  change _ + ([x.replyCap].count s + [].count s) + _ = _
  rw [List.count_nil]
  dsimp only
  omega

/-- The loop keeps the books while the copies are counted nowhere else. -/
theorem Neutral.shareFrames (pid vaddr : ℕ) (is : List ℕ) :
    Neutral P (Rootserver.shareFrames sel4 boot pid vaddr is) := by
  induction is with
  | nil => exact .pure _
  | cons i is ih =>
    refine .seq (.bind allocSlot fun frameCopy => ?_) fun _ => .ite (fun _ => ih) fun _ => .pure _
    refine .bind (setPcb pid (fun x s _ => Pcb.count_held_le id ?_) (fun _ => List.Subset.refl _)
      fun x _ howns => howns) fun _ => ?_
    · have hle := Pcb.count_window_update x i frameCopy s
      rw [count_slot]
      dsimp only at hle ⊢
      omega
    · refine .ite (fun _ => .pure _) fun _ => .seq (sys _) fun _ => ?_
      exact .ite (fun _ => .get fun _ => mapFrameRobust _ _ _ _) fun _ => .pure _

namespace Balanced

/-- A refused process returns the copies of its window, and its block answers for them no more. -/
theorem closeWindow (hr : Balanced P [] r) (pid vaddr : ℕ) (hp : pid ∈ P)
    (hactive : (r.pcbs pid).active = true) (hshm : (r.pcbs pid).hasShm = true) :
    Ends (do
      forM (List.range 4) fun i => dropCopy sel4 boot ((r.pcbs pid).shmCopies i)
      Rootserver.setPcb pid fun pcb => { pcb with hasShm := false, vmapBumpPointer := vaddr }
      reply sel4 [0]) r fun _ t => Balanced P [] t := by
  have hpe : pid ∉ P.erase pid := Finset.notMem_erase pid P
  have hwindow : (r.pcbs pid).window = (List.range 4).map (r.pcbs pid).shmCopies := if_pos hshm
  have hloop : Custody (Balanced (P.erase pid)) ((r.pcbs pid).window.map .slot)
      (forM (List.range 4) fun i => dropCopy sel4 boot ((r.pcbs pid).shmCopies i)) fun _ => [] := by
    rw [hwindow, List.map_map]
    exact .forM_spend fun i _ => Neutral.dropCopy _
  have herase : Balanced (P.erase pid) ((r.pcbs pid).window.map .slot ++
      { r.pcbs pid with hasShm := false, vmapBumpPointer := vaddr }.held.map .slot) r := by
    refine (hr.erase hp).mono (fun s _ => ?_) fun p s hs => ?_
    · have hcount := Pcb.count_closed hactive vaddr s
      rw [List.append_nil, List.count_append, count_slots, count_slots, count_slots]
      dsimp only
      omega
    · rw [← List.map_append] at hs
      exact absurd hs (tracked_notMem_slots _ _ _)
  refine .seq ((hloop _ r herase).and (samePcbs_dropCopies _ _ r)) fun _ t ⟨ht, hpcbs⟩ => ?_
  refine .seq (Ends.modify ?_) fun _ u hu => Neutral.reply _ [] u hu
  refine Balanced.readmit ?_ hp (fun _ => List.not_mem_nil) ?_
  · rw [Root.setPcb_self, hpcbs, List.append_nil]
    exact ht.setPcb (fun s _ => by simp [hpe]) (fun _ _ _ hs => absurd hs (by simp))
      fun h => absurd h hpe
  · rw [Root.setPcb_self, hpcbs]
    exact hr.owns pid hp

/-- The window is given to a process that has it already or has no copies of it. -/
theorem openWindow (hr : Balanced allPids [] r) {pid : ℕ} (hp : pid ∈ allPids)
    (hfirst : (r.pcbs pid).hasShm = true ∨ ∀ i < 4, (r.pcbs pid).shmCopies i = 0) (vaddr : ℕ) :
    Balanced allPids [] (r.setPcb pid fun pcb =>
      { pcb with vmapBumpPointer := vaddr + 0x4000, hasShm := true }) := by
  refine hr.setPcb (fun s hs => Nat.add_le_add_right ?_ _) (hr.known_setPcb fun _ => ?_)
    fun _ h => hr.owns pid hp h
  · rw [if_pos hp, if_pos hp]
    refine Pcb.count_held_le (n := 0) id ?_
    have hle := Pcb.count_window_open hfirst hs (vaddr + 0x4000)
    dsimp only at hle ⊢
    omega
  · exact List.Subset.refl _

/-- A call that repeats no refused one finds no copies. -/
theorem first_of_not_repeats (hm : ¬ r.Repeats m) (hcall : m.label = .other ∧ m.mr 0 = 107) :
    (r.pcbs (toInt32 m.badge).toNat).hasShm = true ∨
      ∀ i < 4, (r.pcbs (toInt32 m.badge).toNat).shmCopies i = 0 := by
  by_contra h
  push Not at h
  exact hm ⟨hcall, Bool.not_eq_true _ ▸ h.1, h.2⟩

/-- `SYS_SHM_GET`, unless the process repeats it. -/
theorem sysShmGet (hr : Balanced allPids [] r) (hm : ¬ r.Repeats m)
    (hcall : m.label = .other ∧ m.mr 0 = 107) :
    Ends (Rootserver.sysShmGet sel4 boot m) r fun _ t => Balanced allPids [] t := by
  refine .bind (.get (.ite (fun _ => Neutral.reply _ [] r hr) fun hpid => ?_))
  have hp : (toInt32 m.badge).toNat ∈ allPids := Finset.mem_range.mpr (by omega)
  have hactive : (r.pcbs (toInt32 m.badge).toNat).active = true := by
    by_contra h
    exact hpid (.inr (.inr (Bool.not_eq_true _ ▸ h)))
  have hfirst := first_of_not_repeats hm hcall
  generalize (toInt32 m.badge).toNat = pid at hp hactive hfirst ⊢
  generalize (r.pcbs pid).vmapBumpPointer = vaddr
  refine .seq (ends_setPcb pid _ r) fun _ t ht => ?_
  have hopen : Balanced allPids [] t := ht ▸ hr.openWindow hp hfirst vaddr
  have hpcb : (t.pcbs pid).active = true ∧ (t.pcbs pid).hasShm = true := by
    rw [ht, Root.setPcb_self]
    exact ⟨hactive, rfl⟩
  refine .seq ((Neutral.shareFrames pid vaddr _ [] t hopen).and (sameShm_shareFrames pid vaddr _ t))
    fun success u ⟨hu, hsame⟩ => ?_
  refine .ite (fun _ => ?_) fun _ => .bind (.get ?_)
  · exact (Custody.get fun _ => .seq (Neutral.sys _) fun _ => Neutral.reply _) [] u hu
  · exact closeWindow hu pid vaddr hp ((hsame pid).1.trans hpcb.1) ((hsame pid).2.trans hpcb.2)

/-! ## The loop -/

/-- Every system call, unless it repeats `SYS_SHM_GET`. -/
theorem syscall (hr : Balanced allPids [] r) (sender : ℕ) (hl : m.label = .other)
    (hm : ¬ r.Repeats m) :
    Ends (Rootserver.syscall sel4 boot sender m) r fun _ t => Balanced allPids [] t := by
  refine .bind (.get ?_)
  split
  · exact Neutral.reply _ [] r hr
  · exact Neutral.reply _ [] r hr
  · exact Neutral.sysSleep [] r hr
  · exact Neutral.reply _ [] r hr
  · exact (Custody.ite (fun _ => Neutral.readPipe _) fun _ => Neutral.reply _) [] r hr
  · exact Neutral.reply _ [] r hr
  · exact Neutral.sysPuts m [] r hr
  · exact Neutral.sysPipe sender m [] r hr
  · refine (Custody.seq (.onlyIf fun hpipe => ?_) fun _ => Neutral.reply _) [] r hr
    exact Neutral.closeWriter (Neutral.sub_base_lt hpipe)
  · exact Neutral.sysPipeClose m [] r hr
  · exact Neutral.reply _ [] r hr
  · exact hr.sysExec
  · exact hr.sysClone sender
  · exact hr.sysKill
  · exact Neutral.sysExit sender [] r hr
  · exact Neutral.reply _ [] r hr
  · exact hr.sysThreadExit
  · exact Neutral.sysWait sender m [] r hr
  · exact hr.sysShmGet hm ⟨hl, ‹_›⟩
  · exact Neutral.reply _ [] r hr
  · exact Neutral.sysDriverReady sender [] r hr
  · exact Neutral.sysWaitAllDriversReady [] r hr
  · exact hr.sysRecover
  · exact Neutral.reply _ [] r hr

/-- What one message preserves. -/
theorem step (hr : Balanced allPids [] r) (h : Step sel4 boot r m t) (hm : ¬ r.Repeats m) :
    Balanced allPids [] t := by
  suffices hends : Ends (handle sel4 boot m) r fun _ t => Balanced allPids [] t from hends _ _ h
  refine .bind (.get ?_)
  cases r.senderPid m.badge with
  | none => exact .pure hr
  | some sender =>
    cases hl : m.label with
    | vmFault => exact hr.vmFault sender
    | capFault => exact .onlyIf (fun _ => hr.genericRecoverProcess _) fun _ => hr
    | other => exact hr.syscall sender hl hm

/-- After boot every slot has one holder. -/
theorem booted {dev : Devices} (h : Booted sel4 boot dev r) : Balanced allPids [] r := by
  obtain ⟨k, alloc, hfree, hslot, hrun⟩ := h
  have hblank : Balanced allPids [] (blank k alloc) := by
    refine ⟨hslot, fun s hs => ?_, fun _ _ _ hs => absurd hs List.not_mem_nil, fun _ _ h => ?_⟩
    · have hzero : [0].count s = 0 := List.count_cons_of_ne hs.symm
      have huse : (blank k alloc).inUse allPids s = 0 := by
        simp [Root.inUse, blank, Pcb.held, hzero]
      rw [huse, show (blank k alloc).alloc = alloc from rfl, hfree]
      exact Nat.zero_le _
    · cases h
  refine Ends.forM (fun _ t => Balanced allPids [] t) hblank (fun p _ t ht => ?_) _ _ hrun
  exact .seq (ht.spawnProcess _ _ _) fun _ u hu => .ite (fun _ => .throw) fun _ => .pure hu

end Balanced

/-! ## Runs -/

/-- The slots in all places: the pool, what live processes answer for, and what parked readers and
the wait for the drivers are answered through. -/
def Root.slots (r : Root K) : List ℕ :=
  r.alloc.freeSlots ++ (List.range 256).flatMap (fun p => (r.pcbs p).held) ++
    (List.range maxPipes).map (fun i => (r.pipes i).readerReplyCap) ++ [r.driverReadyWaitReply]

/-- A slot is in the pool or in use, as often as it stands in the list of all slots. -/
theorem Root.count_slots (r : Root K) (s : ℕ) :
    r.slots.count s = r.alloc.freeSlots.count s + r.inUse allPids s := by
  have hpcbs : ((List.range 256).flatMap fun p => (r.pcbs p).held).count s =
      ∑ p ∈ allPids, (r.pcbs p).held.count s := List.count_flatMap
  have hpipes : ((List.range maxPipes).map fun i => (r.pipes i).readerReplyCap).count s =
      ∑ i ∈ Finset.range maxPipes, [(r.pipes i).readerReplyCap].count s := by
    rw [List.map_eq_flatMap]
    exact List.count_flatMap
  simp only [Root.slots, List.count_append, hpcbs, hpipes, Root.inUse]
  omega

/-- So no slot is there twice. -/
theorem Balanced.nodup (h : Balanced allPids [] r) : (r.slots.filter (· ≠ 0)).Nodup := by
  refine List.nodup_iff_count_le_one.mpr fun s => ?_
  by_cases hs : s = 0
  · rw [List.count_eq_zero_of_not_mem (by simp [hs])]
    exact Nat.zero_le _
  · have honce := h.once s hs
    rw [List.count_filter (by simpa using hs), Root.count_slots]
    split at honce <;> omega

/-- Every slot in the list has been handed out. -/
theorem Balanced.lt_currentSlot (h : Balanced allPids [] r) (hs : slot ∈ r.slots) (h0 : slot ≠ 0) :
    slot < r.alloc.currentSlot := by
  have honce := h.once slot h0
  have hpos := List.count_pos_iff.mpr hs
  rw [Root.count_slots] at hpos
  by_contra hlt
  rw [if_neg hlt] at honce
  omega

/-- The slot handed out next is in nobody's hands. -/
theorem Balanced.fresh (h : Balanced allPids [] r) (h0 : r.alloc.allocSlot.1 ≠ 0) :
    r.alloc.allocSlot.1 ∉ Root.slots { r with alloc := r.alloc.allocSlot.2 } := by
  intro hmem
  have honce := h.allocSlot.once _ h0
  have hpos := List.count_pos_iff.mpr hmem
  rw [Root.count_slots] at hpos
  rw [List.count_cons_self] at honce
  dsimp only at hpos honce
  split at honce <;> omega

/-- What the messages of a run preserve. -/
theorem balanced_of_run {dev : Devices} {ms : List Message} (hb : Booted sel4 boot dev r)
    (h : Run (guarded (Step sel4 boot) fun r m => ¬ r.Repeats m) r ms t) : Balanced allPids [] t :=
  h.invariant (fun _ _ _ hr he => hr.step he.2 he.1) (.booted hb)

/-- In every run in which no process repeats a refused `SYS_SHM_GET`, no slot is in two places,
those that the allocator has not handed out are in none, and neither is the one it hands out
next. -/
theorem one_holder_of_run {dev : Devices} {ms : List Message} (hb : Booted sel4 boot dev r)
    (h : Run (guarded (Step sel4 boot) fun r m => ¬ r.Repeats m) r ms t) :
    (t.slots.filter (· ≠ 0)).Nodup ∧ (∀ s ∈ t.slots, s ≠ 0 → s < t.alloc.currentSlot) ∧
      (t.alloc.allocSlot.1 ≠ 0 →
        t.alloc.allocSlot.1 ∉ Root.slots { t with alloc := t.alloc.allocSlot.2 }) := by
  have hbalanced := balanced_of_run hb h
  exact ⟨hbalanced.nodup, fun _ hs h0 => hbalanced.lt_currentSlot hs h0, hbalanced.fresh⟩

/-- The shell asks for the shared window. -/
def shmCall : Message := { badge := 5, mr := fun n => if n = 0 then 107 else 0 }

/-- The shell has the shared window. -/
def windowed : Root Unit := (next granting someBoot smallRoot shmCall).get (by decide +kernel)

/-- The shell opens its window. -/
theorem one_holder_of_run_windowed : (windowed.slots.filter (· ≠ 0)).Nodup ∧
    (∀ s ∈ windowed.slots, s ≠ 0 → s < windowed.alloc.currentSlot) ∧
      (windowed.alloc.allocSlot.1 ≠ 0 → windowed.alloc.allocSlot.1 ∉
        Root.slots { windowed with alloc := windowed.alloc.allocSlot.2 }) :=
  one_holder_of_run booted_smallRoot
    (.single ⟨fun h => absurd h.2.2 (by decide +kernel), step_get granting someBoot _⟩)

/-- The slot is tracked by the process and is in no other place; nor is it handed out next. -/
structure Root.OwnedBy (r : Root K) (p slot : ℕ) : Prop where
  tracked : slot ∈ (r.pcbs p).capTracker
  pool : slot ∉ r.alloc.freeSlots
  next : r.alloc.allocSlot.1 ≠ slot
  others : ∀ q < 256, q ≠ p → slot ∉ (r.pcbs q).held
  readers : ∀ i < maxPipes, (r.pipes i).readerReplyCap ≠ slot
  wait : r.driverReadyWaitReply ≠ slot

/-- A slot that a block names is tracked by that process or by its parent. -/
theorem Balanced.ownedBy (h : Balanced allPids [] r) (hp : p < 256)
    (hactive : (r.pcbs p).active = true) (hs : slot ∈ (r.pcbs p).names) (h0 : slot ≠ 0) :
    r.OwnedBy p slot := by
  have htracked := h.owns p (Finset.mem_range.mpr hp) hactive slot hs h0
  have hheld : slot ∈ (r.pcbs p).held := by
    rw [Pcb.held, if_pos hactive]
    exact List.mem_append_left _ htracked
  -- all the other places together have the slot no more
  have honce := (h.erase (Finset.mem_range.mpr hp)).once slot h0
  have hpos := List.count_pos_iff.mpr hheld
  rw [List.append_nil, count_slots] at honce
  have hzero : r.alloc.freeSlots.count slot = 0 ∧ r.inUse (allPids.erase p) slot = 0 := by
    split at honce <;> omega
  rw [Root.inUse, Nat.add_eq_zero_iff, Nat.add_eq_zero_iff, Finset.sum_eq_zero_iff,
    Finset.sum_eq_zero_iff] at hzero
  obtain ⟨hpool, hpcbs, hpipes, hwait⟩ := hzero
  refine ⟨htracked, List.count_eq_zero.mp hpool, fun heq => ?_, fun q hq hqp => ?_,
    fun i hi => ?_, ?_⟩
  · refine h.fresh (heq ▸ h0) (heq ▸ ?_)
    refine List.mem_append_left _ (List.mem_append_left _ (List.mem_append_right _ ?_))
    exact List.mem_flatMap.mpr ⟨p, List.mem_range.mpr hp, hheld⟩
  · exact List.count_eq_zero.mp
      (hpcbs q (Finset.mem_erase.mpr ⟨hqp, Finset.mem_range.mpr hq⟩))
  · have hnot := List.count_eq_zero.mp (hpipes i (Finset.mem_range.mpr hi))
    exact fun h => hnot (List.mem_singleton.mpr h.symm)
  · have hnot := List.count_eq_zero.mp hwait
    exact fun h => hnot (List.mem_singleton.mpr h.symm)

/-- In every such run a live process owns the objects its block names: its TCB, its endpoint and the
page of a thread, and the address space and the CNode of a process that is not a thread. -/
theorem owned_of_run {dev : Devices} {ms : List Message} (hb : Booted sel4 boot dev r)
    (h : Run (guarded (Step sel4 boot) fun r m => ¬ r.Repeats m) r ms t) (hp : p < 256)
    (hactive : (t.pcbs p).active = true) (hs : slot ∈ (t.pcbs p).names) (h0 : slot ≠ 0) :
    t.OwnedBy p slot :=
  (balanced_of_run hb h).ownedBy hp hactive hs h0

/-- The thread of the shell, once it has the window. -/
theorem owned_of_run_windowed : windowed.OwnedBy 5 (windowed.pcbs 5).tcb :=
  owned_of_run booted_smallRoot
    (.single ⟨fun h => absurd h.2.2 (by decide +kernel), step_get granting someBoot _⟩)
    (by decide) (by decide +kernel) List.mem_cons_self (by decide +kernel)

/-! The condition is needed: the shell repeats a refused call after a driver has been given one of
the copies' slots. -/

/-- A kernel that makes as many copies of capabilities as its state says. -/
def sparing : SeL4 ℕ where
  invoke k
    | .cnodeCopy _ _ => if k = 0 then (.notEnoughMemory, 0) else (.noError, k - 1)
    | _ => (.noError, k)
  callBlk _ _ _ := none
  pageAddress _ _ := 0
  rtc _ := 0

/-- The driver with the PID 2 waits for the one with the PID 1. -/
def driverWait : Message := { badge := 2, mr := fun n => if n = 0 then 106 else 1 }

/-- After boot the kernel makes one more copy. -/
def spared : Root ℕ :=
  (bootFrom sparing someBoot someDevices 22 ⟨1000, 4000, []⟩).get (by decide +kernel)

/-- The shell was refused the window. -/
def refusedShell : Root ℕ := (next sparing someBoot spared shmCall).get (by decide +kernel)

/-- A driver waits with a slot that the shell's block still has. -/
def waitingDriver : Root ℕ :=
  (next sparing someBoot refusedShell driverWait).get (by decide +kernel)

/-- The shell has been refused again. -/
def refusedTwice : Root ℕ := (next sparing someBoot waitingDriver shmCall).get (by decide +kernel)

/-- The slot the driver waits with has gone back to the pool. -/
theorem two_holders_refusedTwice : Booted sparing someBoot someDevices spared ∧
    Run (Step sparing someBoot) spared [shmCall, driverWait, shmCall] refusedTwice ∧
      (refusedTwice.pcbs 2).active = true ∧ (refusedTwice.pcbs 2).replyCap ≠ 0 ∧
        (refusedTwice.pcbs 2).replyCap ∈ refusedTwice.alloc.freeSlots := by
  refine ⟨booted_get _ _ _ rfl (by decide), ?_, by decide +kernel⟩
  exact .cons (step_get _ _ _) (.cons (step_get _ _ _) (.single (step_get _ _ _)))

end PsychWard.Rootserver
