import PsychWard.Rootserver.PipeFlow

/-!
# Slots that the rootserver leaves alone

The rootserver deletes a capability, or answers a caller, through a slot number that it finds in a
process control block, in a pipe, or in the variables of the drivers. A slot that no live block and
no pipe names, and that the allocator has handed out, is therefore left alone: `Root.Avoids` is that
condition on a state, and `step_spares` says that every message other than the two of the drivers
keeps it, makes no invocation on the slot, and leaves the variables of the drivers as they are.

`Spares` is the statement for a part of the program. The blocks in `live` count as live until the
part ends, so that a handler may go on using a block after it has marked it as inactive.
-/

namespace PsychWard.Rootserver

open Program

/-- The invocation sends to the capability in one of the slots, or deletes it. -/
def Invocation.Uses (boot : Boot) (X : ℕ → Prop) : Invocation → Prop
  | .send cap _ => X cap
  | .cnodeDelete slot => ∃ s, X s ∧ slot = boot.rootSlot s
  | _ => False

/-- The block names none of the slots. -/
structure Pcb.Avoids (X : ℕ → Prop) (pcb : Pcb) : Prop where
  tcb : ¬ X pcb.tcb
  vspace : ¬ X pcb.vspace
  badgedEp : ¬ X pcb.badgedEp
  replyCap : ¬ X pcb.replyCap
  tracked : ∀ s ∈ pcb.capTracker, ¬ X s
  copies : ∀ i < 4, ¬ X (pcb.shmCopies i)

/-- The slots are in use, and neither the live blocks nor the pipes name them. -/
structure Root.Avoids {K : Type} (X live : ℕ → Prop) (r : Root K) : Prop where
  zero : ¬ X 0
  pool : ∀ s ∈ r.alloc.freeSlots, ¬ X s
  bump : ∀ s, X s → s < r.alloc.currentSlot
  pcbs : ∀ p, live p ∨ (r.pcbs p).active = true → (r.pcbs p).Avoids X
  pipes : ∀ i, ¬ X (r.pipes i).readerReplyCap

/-- From `r` to `t` no invocation uses one of the slots, and the variables of the drivers stay. -/
structure Untouched {K : Type} (boot : Boot) (X : ℕ → Prop) (r t : Root (K × List Invocation)) :
    Prop where
  drivers : t.driverReady = r.driverReady
  wait : t.driverReadyWaitReply = r.driverReadyWaitReply
  log : ∃ ext, t.log = r.log ++ ext ∧ ∀ i ∈ ext, ¬ i.Uses boot X

variable {K : Type} {sel4 : SeL4 K} {boot : Boot} {X live : ℕ → Prop}

/-- A part of the program that leaves the slots alone and ends with a value that satisfies `Q`. -/
def Spares {α : Type} (boot : Boot) (X live : ℕ → Prop) (m : RootM (K × List Invocation) α)
    (Q : α → Prop) : Prop :=
  ∀ r, r.Avoids X live → Ends m r fun a t => Q a ∧ t.Avoids X live ∧ Untouched boot X r t

/-- Nothing has happened. -/
theorem Untouched.refl (r : Root (K × List Invocation)) : Untouched boot X r r :=
  ⟨rfl, rfl, [], (List.append_nil _).symm, by simp⟩

/-- Two stretches, one after the other. -/
theorem Untouched.trans {r t u : Root (K × List Invocation)} (h : Untouched boot X r t)
    (h' : Untouched boot X t u) : Untouched boot X r u := by
  obtain ⟨ext, hext, huse⟩ := h.log
  obtain ⟨ext', hext', huse'⟩ := h'.log
  refine ⟨h'.drivers.trans h.drivers, h'.wait.trans h.wait, ext ++ ext', ?_, fun i hi => ?_⟩
  · rw [hext', hext, List.append_assoc]
  · exact (List.mem_append.mp hi).elim (huse i) (huse' i)

/-- Every state avoids no slots. -/
theorem avoids_nothing {K : Type} (hX : ∀ s, ¬ X s) (live : ℕ → Prop) (r : Root K) :
    r.Avoids X live where
  zero := hX 0
  pool s _ := hX s
  bump s hs := absurd hs (hX s)
  pcbs _ _ := ⟨hX _, hX _, hX _, hX _, fun s _ => hX s, fun _ _ => hX _⟩
  pipes _ := hX _

/-- Fewer PIDs to look at, or ones that run. -/
theorem Root.Avoids.mono {K : Type} {r : Root K} {live' : ℕ → Prop} (h : r.Avoids X live)
    (hlive : ∀ p, live' p → live p ∨ (r.pcbs p).active = true) : r.Avoids X live' where
  zero := h.zero
  pool := h.pool
  bump := h.bump
  pcbs p hp := h.pcbs p (hp.elim (hlive p) .inr)
  pipes := h.pipes

/-- Only the allocator, the blocks and the pipes count. -/
theorem Root.Avoids.congr {K : Type} {r t : Root K} (h : r.Avoids X live)
    (halloc : t.alloc = r.alloc) (hpcbs : t.pcbs = r.pcbs) (hpipes : t.pipes = r.pipes) :
    t.Avoids X live where
  zero := h.zero
  pool := by rw [halloc]; exact h.pool
  bump := by rw [halloc]; exact h.bump
  pcbs := by rw [hpcbs]; exact h.pcbs
  pipes := by rw [hpipes]; exact h.pipes

/-- The slot that is handed out is none of them, and they stay in use. -/
theorem Root.Avoids.allocSlot {K : Type} {r : Root K} (h : r.Avoids X live) :
    ¬ X r.alloc.allocSlot.1 ∧ Root.Avoids X live { r with alloc := r.alloc.allocSlot.2 } := by
  unfold PsychAllocator.allocSlot
  cases hfree : r.alloc.freeSlots with
  | cons s rest =>
    have hpool := h.pool
    rw [hfree] at hpool
    refine ⟨hpool s List.mem_cons_self, h.zero, fun t ht => ?_, h.bump, h.pcbs, h.pipes⟩
    exact hpool t (List.mem_cons_of_mem s ht)
  | nil =>
    have hnil : ∀ s ∈ ([] : List ℕ), ¬ X s := by simp
    dsimp only
    split
    · refine ⟨fun hX => (h.bump _ hX).false, h.zero, ?_, fun s hs => ?_, h.pcbs, h.pipes⟩
      · simpa only [hfree] using hnil
      · exact (h.bump s hs).trans (Nat.lt_succ_self _)
    · exact ⟨h.zero, h.zero, h.pool, h.bump, h.pcbs, h.pipes⟩

/-- A slot that is none of them may go into the pool. -/
theorem Root.Avoids.freeSlot {K : Type} {r : Root K} (h : r.Avoids X live) {cap : ℕ}
    (hcap : ¬ X cap) : Root.Avoids X live { r with alloc := r.alloc.free cap } := by
  unfold PsychAllocator.free
  split
  · exact h
  · split
    · exact h
    · refine ⟨h.zero, fun s hs => ?_, h.bump, h.pcbs, h.pipes⟩
      rcases List.mem_cons.mp hs with rfl | hs
      · exact hcap
      · exact h.pool s hs

namespace Spares

variable {α β : Type} {m : RootM (K × List Invocation) α} {Q Q' : α → Prop}

/-! ## Rules -/

/-- A value touches nothing. -/
protected theorem pure {a : α} (h : Q a) : Spares boot X live (pure a : RootM (K × _) α) Q :=
  fun r hr => .pure ⟨h, hr, .refl r⟩

/-- A program that stops has no state to speak of. -/
protected theorem throw {e : Halt} : Spares boot X live (throw e : RootM (K × _) α) Q :=
  fun _ _ => .throw

/-- The second part starts where the first ends, with a value that satisfies `Q`. -/
protected theorem bind {f : α → RootM (K × List Invocation) β} {Q' : β → Prop}
    (h : Spares boot X live m Q) (hf : ∀ a, Q a → Spares boot X live (f a) Q') :
    Spares boot X live (m >>= f) Q' := by
  intro r hr
  refine .seq (h r hr) fun a t ⟨ha, ht, hrt⟩ => (hf a ha t ht).mono fun b u ⟨hb, hu, htu⟩ => ?_
  exact ⟨hb, hu, hrt.trans htu⟩

/-- `bind` where nothing is said of the value. -/
theorem seq {f : α → RootM (K × List Invocation) β} {Q' : β → Prop}
    (h : Spares boot X live m fun _ => True) (hf : ∀ a, Spares boot X live (f a) Q') :
    Spares boot X live (m >>= f) Q' :=
  h.bind fun a _ => hf a

/-- The blocks that are active when the state is read stay live. -/
protected theorem get {f : Root (K × List Invocation) → RootM (K × List Invocation) β}
    {Q' : β → Prop} (h : ∀ r, r.Avoids X live →
      Spares boot X (fun p => live p ∨ (r.pcbs p).active = true) (f r) Q') :
    Spares boot X live (get >>= f) Q' := by
  intro r hr
  refine .bind (.get ((h r hr r (hr.mono ?_)).mono fun b t ⟨hb, ht, hrt⟩ => ⟨hb, ht.mono ?_, hrt⟩))
  · exact fun p hp => hp
  · exact fun p hp => .inl (.inl hp)

/-- Each branch under its condition. -/
protected theorem ite {c : Prop} [Decidable c] {m' : RootM (K × List Invocation) α}
    (h : c → Spares boot X live m Q) (h' : ¬ c → Spares boot X live m' Q) :
    Spares boot X live (if c then m else m') Q :=
  fun r hr => .ite (fun hc => h hc r hr) fun hc => h' hc r hr

/-- Only the branch that is taken counts. -/
protected theorem onlyIf {c : Prop} [Decidable c] {m : RootM (K × List Invocation) PUnit}
    (h : c → Spares boot X live m fun _ => True) :
    Spares boot X live (onlyIf c m) fun _ => True :=
  .ite h fun _ => .pure trivial

/-- A loop, by induction on what is left of its list. -/
protected theorem forM {γ : Type} {g : γ → RootM (K × List Invocation) PUnit} {l : List γ}
    (h : ∀ x ∈ l, Spares boot X live (g x) fun _ => True) :
    Spares boot X live (forM l g) fun _ => True := by
  induction l with
  | nil => exact .pure trivial
  | cons x xs ih =>
    rw [List.forM_cons]
    exact .bind (h x List.mem_cons_self) fun _ _ => ih fun y hy => h y (List.mem_cons_of_mem x hy)

/-- A change of the state outside the log and the variables of the drivers. -/
protected theorem modify {g : Root (K × List Invocation) → Root (K × List Invocation)}
    (hg : ∀ r, r.Avoids X live → (g r).Avoids X live) (hlog : ∀ r, (g r).kernel = r.kernel)
    (hdrivers : ∀ r, (g r).driverReady = r.driverReady)
    (hwait : ∀ r, (g r).driverReadyWaitReply = r.driverReadyWaitReply) :
    Spares boot X live (modify g : RootM (K × List Invocation) PUnit) fun _ => True := by
  intro r hr
  refine .modify ⟨trivial, hg r hr, hdrivers r, hwait r, [], ?_, by simp⟩
  rw [Root.log, Root.log, hlog, List.append_nil]

/-! ## Primitive steps -/

/-- A kernel call that does not use the slots. -/
theorem sys {i : Invocation} (h : ¬ i.Uses boot X) :
    Spares boot X live (Rootserver.sys (recorded sel4) i) fun _ => True := by
  intro r hr _ t hrun
  cases hrun
  refine ⟨trivial, hr.congr rfl rfl rfl, rfl, rfl, [i], rfl, fun j hj => ?_⟩
  rw [List.mem_singleton.mp hj]
  exact h

/-- The allocator gives none of the slots. -/
theorem allocSlot :
    Spares boot X live (Rootserver.allocSlot : RootM (K × List Invocation) ℕ) fun cap => ¬ X cap := by
  intro r hr _ t hrun
  cases hrun
  exact ⟨hr.allocSlot.1, hr.allocSlot.2, rfl, rfl, [], (List.append_nil _).symm, by simp⟩

/-- A slot that is none of them is returned. -/
theorem freeSlot {cap : ℕ} (h : ¬ X cap) :
    Spares boot X live (Rootserver.freeSlot cap : RootM (K × List Invocation) PUnit)
      fun _ => True :=
  .modify (fun _ hr => hr.freeSlot h) (fun _ => rfl) (fun _ => rfl) fun _ => rfl

/-- A change of a block that names no new slot and does not make the block active, or that names none
of the slots at all. -/
theorem setPcb (p : ℕ) {f : Pcb → Pcb} (hf : ∀ x, x.Avoids X → (f x).Avoids X)
    (hactive : ∀ x, (f x).active = true → x.active = true ∨ (f x).Avoids X) :
    Spares boot X live (Rootserver.setPcb p f : RootM (K × List Invocation) PUnit)
      fun _ => True := by
  refine .modify (fun r hr => ⟨hr.zero, hr.pool, hr.bump, fun q hq => ?_, hr.pipes⟩) (fun _ => rfl)
    (fun _ => rfl) fun _ => rfl
  by_cases hqp : q = p
  · subst hqp
    rw [Root.setPcb_self] at hq ⊢
    rcases hq with hlive | hact
    · exact hf _ (hr.pcbs q (.inl hlive))
    · exact (hactive _ hact).elim (fun h => hf _ (hr.pcbs q (.inr h))) id
  · rw [Root.setPcb_of_ne r f hqp] at hq ⊢
    exact hr.pcbs q hq

/-- A pipe that does not come to name a slot. -/
theorem setPipe (i : ℕ) {f : Pipe → Pipe}
    (hf : ∀ x, ¬ X x.readerReplyCap → ¬ X (f x).readerReplyCap) :
    Spares boot X live (Rootserver.setPipe i f : RootM (K × List Invocation) PUnit)
      fun _ => True := by
  refine .modify (fun r hr => ⟨hr.zero, hr.pool, hr.bump, hr.pcbs, fun j => ?_⟩) (fun _ => rfl)
    (fun _ => rfl) fun _ => rfl
  by_cases hji : j = i
  · subst hji
    rw [Root.setPipe_self]
    exact hf _ (hr.pipes j)
  · rw [Root.setPipe_of_ne r f hji]
    exact hr.pipes j

/-- A window of the rootserver moves. -/
theorem window {g : Root (K × List Invocation) → Root (K × List Invocation)}
    (halloc : ∀ r, (g r).alloc = r.alloc) (hpcbs : ∀ r, (g r).pcbs = r.pcbs)
    (hpipes : ∀ r, (g r).pipes = r.pipes) (hlog : ∀ r, (g r).kernel = r.kernel)
    (hdrivers : ∀ r, (g r).driverReady = r.driverReady)
    (hwait : ∀ r, (g r).driverReadyWaitReply = r.driverReadyWaitReply) :
    Spares boot X live (modify g : RootM (K × List Invocation) PUnit) fun _ => True :=
  .modify (fun r hr => hr.congr (halloc r) (hpcbs r) (hpipes r)) hlog hdrivers hwait

/-- Checking a result touches nothing. -/
theorem checkErr (err : SeL4Error) :
    Spares boot X live (Rootserver.checkErr err : RootM (K × List Invocation) PUnit)
      fun _ => True :=
  .ite (fun _ => .pure trivial) fun _ => .throw

/-- The answer to the caller goes through none of the slots. -/
theorem reply (mrs : List ℤ) :
    Spares boot X live (Rootserver.reply (recorded sel4) mrs) fun _ => True :=
  .seq (.sys id) fun _ => .pure trivial

/-- Emptying another slot does not use them. -/
theorem not_uses_delete {s : ℕ} (h : ¬ X s) :
    ¬ (Invocation.cnodeDelete (boot.rootSlot s)).Uses boot X := by
  rintro ⟨t, ht, heq⟩
  have hst : s = t := congrArg Place.index heq
  exact h (hst ▸ ht)

/-- A slot of a process's CNode is not one of the rootserver's. -/
theorem not_uses_child (cspace slot : ℕ) :
    ¬ (Invocation.cnodeDelete (childSlot cspace slot)).Uses boot X := by
  rintro ⟨t, -, heq⟩
  cases congrArg Place.depth heq

/-- An answer through another slot. -/
theorem answer {cap : ℕ} (h : ¬ X cap) (mrs : List ℤ) :
    Spares boot X live (Rootserver.answer (recorded sel4) boot cap mrs) fun _ => True :=
  .seq (.sys h) fun _ => .seq (.sys (not_uses_delete h)) fun _ => .pure trivial

/-- The slot that a block comes to track is none of them. -/
theorem allocAndTrackCap (pid : ℕ) :
    Spares boot X live (Rootserver.allocAndTrackCap pid : RootM (K × List Invocation) ℕ)
      fun cap => ¬ X cap := by
  refine .bind .allocSlot fun cap hcap => .get fun r _ => .ite (fun _ => .throw) fun _ => ?_
  refine .seq (.setPcb pid (fun x hx => ⟨hx.tcb, hx.vspace, hx.badgedEp, hx.replyCap, ?_,
    hx.copies⟩) fun x hx => .inl hx) fun _ => .pure hcap
  intro s hs
  rcases List.mem_append.mp hs with hs | hs
  · exact hx.tracked s hs
  · rw [List.mem_singleton.mp hs]
    exact hcap

/-- A slot that is none of them is emptied and returned. -/
theorem releaseCap {cap : ℕ} (h : ¬ X cap) :
    Spares boot X live (Rootserver.releaseCap (recorded sel4) boot cap) fun _ => True :=
  .seq (.sys id) fun _ => .seq (.sys (not_uses_delete h)) fun _ => .freeSlot h

/-- A copy of the window goes back, if there is one. -/
theorem dropCopy {cap : ℕ} (h : ¬ X cap) :
    Spares boot X live (Rootserver.dropCopy (recorded sel4) boot cap) fun _ => True :=
  .onlyIf fun _ => .seq (.sys (not_uses_delete h)) fun _ => .freeSlot h

/-- Suspending a thread uses its TCB only to call it. -/
theorem stopThread (pcb : Pcb) :
    Spares boot X live (Rootserver.stopThread (recorded sel4) pcb) fun _ => True :=
  .seq (.sys id) fun _ => .onlyIf fun _ => .seq (.sys id) fun _ => .pure trivial

/-! ## Starting a process -/

/-- A page table gets a slot of its own. -/
theorem addTable (pid : ℕ) (type : ObjectType) (map : ℕ → Invocation)
    (hmap : ∀ table, ¬ (map table).Uses boot X) :
    Spares boot X live (Rootserver.addTable (recorded sel4) pid type map) fun _ => True := by
  refine .bind (.allocAndTrackCap pid) fun table _ => .seq (.sys id) fun _ => .onlyIf fun _ => ?_
  exact .seq (.sys (hmap table)) fun _ => .pure trivial

/-- The frame is mapped, with a table for each level if need be. -/
theorem mapFrameRobust (pid frame vspace vaddr : ℕ) :
    Spares boot X live (Rootserver.mapFrameRobust (recorded sel4) pid frame vspace vaddr)
      fun _ => True := by
  refine .seq (.sys id) fun _ => .ite (fun _ => ?_) fun _ => .pure trivial
  refine .seq ?_ fun _ => .pure trivial
  refine .seq (.addTable _ _ _ fun _ => id) fun _ => ?_
  refine .seq (.addTable _ _ _ fun _ => id) fun _ => ?_
  exact .seq (.addTable _ _ _ fun _ => id) fun _ => .sys id

/-- A request to the block driver is no kernel call of its own. -/
theorem readRequest (name : CString) (offset : ℕ) :
    Spares boot X live (Rootserver.readRequest (recorded sel4) name offset) fun _ => True := by
  intro r hr a t hrun
  rw [run_readRequest] at hrun
  cases hcall : sel4.callBlk r.kernel.1 name offset with
  | none =>
    simp only [recorded, hcall, Option.map_none] at hrun
    cases hrun
  | some p =>
    simp only [recorded, hcall, Option.map_some] at hrun
    cases hrun
    exact ⟨trivial, hr.congr rfl rfl rfl, rfl, rfl, [], (List.append_nil _).symm, by simp⟩

/-- The image is read in a loop of requests. -/
theorem loadElfFromDisk (name : CString) :
    Spares boot X live (Rootserver.loadElfFromDisk (recorded sel4) name) fun _ => True := by
  suffices hloop : ∀ fuel loaded, Spares boot X live
      (Rootserver.loadLoop (recorded sel4) (name.take 63) fuel loaded) fun _ => True from hloop _ _
  intro fuel
  induction fuel with
  | zero => exact fun _ => .throw
  | succ fuel ih =>
    intro loaded
    refine .bind (.readRequest _ _) fun a _ => .ite (fun _ => .pure trivial) fun _ => ?_
    exact .ite (fun _ => .pure trivial) fun _ => .ite (fun _ => .throw) fun _ => ih _

/-- A copy for the child leaves its source where it is. -/
theorem giveCap (cnode slot cap : ℕ) (badge : Option ℕ) :
    Spares boot X live (Rootserver.giveCap (recorded sel4) boot cnode slot cap badge)
      fun _ => True := by
  refine .ite (fun _ => .pure trivial) fun _ => ?_
  cases badge with
  | none => exact .seq (.sys id) fun _ => .checkErr _
  | some badge => exact .seq (.sys id) fun _ => .checkErr _

/-- All the capabilities that a child gets. -/
theorem giveCaps (pid childCNode badgedEp : ℕ) (role : Role) :
    Spares boot X live (Rootserver.giveCaps (recorded sel4) boot pid childCNode badgedEp role)
      fun _ => True := by
  refine .seq (.giveCap _ _ _ _) fun _ => .seq (.giveCap _ _ _ _) fun _ => ?_
  refine .seq (.giveCap _ _ _ _) fun _ => .seq (.giveCap _ _ _ _) fun _ => ?_
  refine .seq (.giveCap _ _ _ _) fun _ => .seq (.giveCap _ _ _ _) fun _ => ?_
  exact .giveCap _ _ _ _

/-- The CNode and the endpoint of a new process are in new slots. -/
theorem spawnCSpace (pid : ℕ) (role : Role) :
    Spares boot X live (Rootserver.spawnCSpace (recorded sel4) boot pid role) fun _ => True := by
  refine .bind (.allocAndTrackCap pid) fun childCNode _ => .seq (.sys id) fun _ => ?_
  refine .bind (.allocAndTrackCap pid) fun badgedEp hbadged => .seq (.sys id) fun _ => ?_
  refine .seq (.giveCaps _ _ _ _) fun _ => .setPcb pid (fun x hx => ?_) fun x hx => .inl hx
  exact ⟨hx.tcb, hx.vspace, hbadged, hx.replyCap, hx.tracked, hx.copies⟩

/-- The address space of a new process is in a new slot. -/
theorem spawnVSpace (pid : ℕ) :
    Spares boot X live (Rootserver.spawnVSpace (recorded sel4) pid) fun cap => ¬ X cap := by
  refine .bind (.allocAndTrackCap pid) fun childVspace hvspace => ?_
  iterate 4 refine .bind (.allocAndTrackCap pid) fun _ _ => ?_
  iterate 10 refine .seq (.sys id) fun _ => ?_
  refine .seq (.setPcb pid (fun x hx => ?_) fun x hx => .inl hx) fun _ => .pure hvspace
  exact ⟨hx.tcb, hx.vspace, hx.badgedEp, hx.replyCap, hx.tracked, hx.copies⟩

/-- The pages of an image are in new slots. -/
theorem spawnSegments (pid childVspace : ℕ) (elf : Elf) :
    Spares boot X live (Rootserver.spawnSegments (recorded sel4) boot pid childVspace elf)
      fun _ => True := by
  refine .get fun r _ => .seq ?_ fun _ => .forM fun h _ => .forM fun page _ => ?_
  · exact .window (fun _ => rfl) (fun _ => rfl) (fun _ => rfl) (fun _ => rfl) (fun _ => rfl)
      fun _ => rfl
  · refine .bind (.allocAndTrackCap pid) fun frame _ => ?_
    iterate 4 refine .seq (.sys id) fun _ => ?_
    exact .seq (.sys id) fun _ => .pure trivial

/-- The device pages of a driver are copies in new slots. -/
theorem spawnDevice (pid childVspace vaddr : ℕ) (role : Role) :
    Spares boot X live (Rootserver.spawnDevice (recorded sel4) boot pid childVspace vaddr role)
      fun _ => True := by
  iterate 3 refine .bind (.allocAndTrackCap pid) fun _ _ => ?_
  iterate 3 refine .seq (.sys id) fun _ => .seq (.checkErr _) fun _ => ?_
  iterate 3 refine .seq (.sys id) fun _ => ?_
  refine .forM fun i _ => .bind (.allocAndTrackCap pid) fun _ _ => ?_
  refine .seq (.sys id) fun _ => .seq (.checkErr _) fun _ => ?_
  exact .seq (.sys id) fun _ => .checkErr _

/-- The TCB of a new process is in a new slot. -/
theorem spawnThread (pid : ℕ) {childVspace : ℕ} (hvspace : ¬ X childVspace) (devVaddr : ℕ)
    (role : Role) (entry : ℕ) :
    Spares boot X live
      (Rootserver.spawnThread (recorded sel4) boot pid childVspace devVaddr role entry)
      fun _ => True := by
  iterate 2 refine .bind (.allocAndTrackCap pid) fun _ _ => ?_
  iterate 2 refine .seq (.sys id) fun _ => ?_
  refine .get fun r _ => .seq ?_ fun _ => .seq (.sys id) fun _ => ?_
  · exact .window (fun _ => rfl) (fun _ => rfl) (fun _ => rfl) (fun _ => rfl) (fun _ => rfl)
      fun _ => rfl
  refine .seq (.checkErr _) fun _ => .seq (.onlyIf fun _ => .spawnDevice _ _ _ _) fun _ => ?_
  refine .seq (.sys id) fun _ => ?_
  iterate 3 refine .seq (.sys id) fun _ => .seq (.checkErr _) fun _ => ?_
  refine .bind (.allocAndTrackCap pid) fun tcb htcb => ?_
  refine .seq (.setPcb pid (fun x hx => ?_) fun x hx => .inl hx) fun _ => ?_
  · exact ⟨htcb, hvspace, hx.badgedEp, hx.replyCap, hx.tracked, hx.copies⟩
  refine .seq (.sys id) fun _ => .get fun _ _ => ?_
  iterate 4 refine .seq (.sys id) fun _ => ?_
  refine .seq (.onlyIf fun _ => .seq (.sys id) fun _ => .checkErr _) fun _ => ?_
  exact .seq (.sys id) fun _ => .pure trivial

/-- A block with zeros in place of slots names none of them. -/
theorem avoids_fresh (hzero : ¬ X 0) (name : CString) : (Pcb.fresh name).Avoids X :=
  ⟨hzero, hzero, hzero, hzero, List.forall_mem_nil _, fun _ _ => hzero⟩

/-- A new block names 0 or new slots. -/
theorem spawnProcess (hzero : ¬ X 0) (name : CString) (data : Option (List ℕ)) (role : Role) :
    Spares boot X live (Rootserver.spawnProcess (recorded sel4) boot name data role)
      fun _ => True := by
  unfold Rootserver.spawnProcess
  cases data.orElse fun _ => boot.cpioGetFile name with
  | none => exact .pure trivial
  | some image =>
    refine .get fun r _ => ?_
    cases r.freePid with
    | none => exact .pure trivial
    | some pid =>
      refine .seq (.setPcb pid (fun _ _ => avoids_fresh hzero name)
        fun _ _ => .inr (avoids_fresh hzero name)) fun _ => ?_
      refine .seq (.seq (.spawnCSpace _ _) fun _ => ?_) fun _ => .pure trivial
      refine .bind (.spawnVSpace pid) fun childVspace hvspace => ?_
      exact .seq (.spawnSegments _ _ _) fun _ => .spawnThread pid hvspace _ _ _

/-! ## The end of a process -/

/-- The mark of waiting is no slot. -/
theorem clearWaiting (i : ℕ) :
    Spares boot X live (Rootserver.setPcb i fun pcb => { pcb with waitingFor := 0 } :
      RootM (K × List Invocation) PUnit) fun _ => True :=
  .setPcb i (fun _ hx => ⟨hx.tcb, hx.vspace, hx.badgedEp, hx.replyCap, hx.tracked, hx.copies⟩)
    fun _ hx => .inl hx

/-- A block that comes to name another slot. -/
theorem setReplyCap (i : ℕ) {cap : ℕ} (h : ¬ X cap) :
    Spares boot X live (Rootserver.setPcb i fun pcb => { pcb with replyCap := cap } :
      RootM (K × List Invocation) PUnit) fun _ => True :=
  .setPcb i (fun _ hx => ⟨hx.tcb, hx.vspace, hx.badgedEp, h, hx.tracked, hx.copies⟩)
    fun _ hx => .inl hx

/-- A block that is dead need not be looked at. -/
theorem deactivate (i : ℕ) :
    Spares boot X live (Rootserver.setPcb i fun pcb => { pcb with active := false } :
      RootM (K × List Invocation) PUnit) fun _ => True :=
  .setPcb i (fun _ hx => ⟨hx.tcb, hx.vspace, hx.badgedEp, hx.replyCap, hx.tracked, hx.copies⟩)
    fun _ hx => by cases hx

/-- A waiter has its own slot, which is none of them. -/
theorem wakeAndDrop (hzero : ¬ X 0) (pid i : ℕ) :
    Spares boot X live (Rootserver.wakeAndDrop (recorded sel4) boot pid i) fun _ => True := by
  refine .get fun r hr => .onlyIf fun hi => ?_
  have hcap := (hr.pcbs i (.inr hi.1)).replyCap
  exact .seq (.clearWaiting i) fun _ => .seq (.answer hcap _) fun _ => .setReplyCap i hzero

/-- As `wakeAndDrop`, for a waiter that was found. -/
theorem wake (hzero : ¬ X 0) (pid i : ℕ) :
    Spares boot X live (Rootserver.wake (recorded sel4) boot pid i) fun _ => True := by
  refine .get fun r hr => .onlyIf fun hi => ?_
  have hcap := (hr.pcbs i (.inr hi.1)).replyCap
  refine .seq (.clearWaiting i) fun _ => .seq (.answer hcap _) fun _ => ?_
  exact .seq (.freeSlot hcap) fun _ => .setReplyCap i hzero

/-- What is torn down is what the block names. -/
theorem genericRecoverProcess (hzero : ¬ X 0) (pid : ℤ) :
    Spares boot X live (Rootserver.genericRecoverProcess (recorded sel4) boot pid)
      fun _ => True := by
  refine .get fun r hr => .ite (fun _ => .pure trivial) fun hpid => ?_
  have hactive : (r.pcbs pid.toNat).active = true := by
    by_contra h
    exact hpid (.inr (.inr (Bool.not_eq_true _ ▸ h)))
  have hold := hr.pcbs pid.toNat (.inr hactive)
  refine .seq ?_ fun _ => .seq (.onlyIf fun _ => ?_) fun _ => .deactivate _
  · refine .seq (.forM fun i _ => .wakeAndDrop hzero _ i) fun _ => ?_
    refine .seq (.onlyIf fun _ => .stopThread _) fun _ => ?_
    refine .seq (.forM fun cap hcap => .releaseCap ?_) fun _ => ?_
    · exact hold.tracked cap (List.mem_of_mem_filter hcap)
    refine .seq (.setPcb _ (fun x hx => ?_) fun _ hx => .inl hx) fun _ => ?_
    · exact ⟨hx.tcb, hx.vspace, hx.badgedEp, hx.replyCap, List.forall_mem_nil _, hx.copies⟩
    exact .onlyIf fun _ => .forM fun i hi => .dropCopy (hold.copies i (List.mem_range.mp hi))
  · exact .seq (.spawnProcess hzero _ _ _) fun _ => .pure trivial

/-- What is deleted is what the block names. -/
theorem deleteProcess (pid : ℕ) {pcb : Pcb} (h : pcb.Avoids X) :
    Spares boot X live (Rootserver.deleteProcess (recorded sel4) boot pid pcb) fun _ => True := by
  refine .seq (.deactivate pid) fun _ => .seq (.sys (not_uses_delete h.badgedEp)) fun _ => ?_
  refine .seq (.sys (not_uses_delete h.tcb)) fun _ => .onlyIf fun _ => ?_
  exact .seq (.sys (not_uses_delete h.vspace)) fun _ => .pure trivial

/-! ## Pipes -/

/-- A parked reader has its own slot, which is none of them. -/
theorem answerReader (hzero : ¬ X 0) (i : ℕ) (value : ℤ) :
    Spares boot X live (Rootserver.answerReader (recorded sel4) boot i value) fun _ => True := by
  refine .get fun r hr => .seq (.answer (hr.pipes i) _) fun _ => ?_
  exact .seq (.freeSlot (hr.pipes i)) fun _ => .setPipe i fun _ _ => hzero

/-- Closing a pipe may answer its reader. -/
theorem closeWriter (hzero : ¬ X 0) (i : ℕ) :
    Spares boot X live (Rootserver.closeWriter (recorded sel4) boot i) fun _ => True := by
  refine .seq (.setPipe i fun _ hx => hx) fun _ => .get fun _ _ => ?_
  exact .onlyIf fun _ => .answerReader hzero i 0

/-- One pipe after the other. -/
theorem closePipesOf (hzero : ¬ X 0) (pid : ℕ) :
    Spares boot X live (Rootserver.closePipesOf (recorded sel4) boot pid) fun _ => True :=
  .forM fun i _ => .get fun _ _ => .onlyIf fun _ => .closeWriter hzero i

/-- A reader is parked in a new slot. -/
theorem readPipe (i : ℕ) :
    Spares boot X live (Rootserver.readPipe (recorded sel4) boot i) fun _ => True := by
  refine .get fun r _ => ?_
  cases (r.pipes i).buffer with
  | cons byte rest => exact .seq (.setPipe i fun _ hx => hx) fun _ => .reply _
  | nil =>
    refine .ite (fun _ => .reply _) fun _ => .bind .allocSlot fun cap hcap => ?_
    exact .seq (.setPipe i fun _ _ => hcap) fun _ => .seq (.sys id) fun _ => .pure trivial

/-- Writing leaves the parked reader alone. -/
theorem readerReplyCap_put (bytes : List ℕ) (p : Pipe) :
    (bytes.foldl Pipe.put p).readerReplyCap = p.readerReplyCap := by
  induction bytes generalizing p with
  | nil => rfl
  | cons b bytes ih =>
    rw [List.foldl_cons, ih, Pipe.put]
    split <;> rfl

/-- A write may answer the parked reader. -/
theorem sysPuts (hzero : ¬ X 0) (m : Message) :
    Spares boot X live (Rootserver.sysPuts (recorded sel4) boot m) fun _ => True := by
  refine .seq (.onlyIf fun _ => .seq (.setPipe _ fun x hx => ?_) fun _ => ?_) fun _ => .reply _
  · rwa [readerReplyCap_put]
  · refine .get fun r _ => ?_
    cases (r.pipes (m.badge - pipeBaseBadge)).buffer with
    | nil => exact .pure trivial
    | cons byte rest =>
      exact .onlyIf fun _ => .seq (.setPipe _ fun _ hx => hx) fun _ => .answerReader hzero _ _

/-- A new pipe has no reader. -/
theorem sysPipe (hzero : ¬ X 0) (sender : ℕ) (m : Message) :
    Spares boot X live (Rootserver.sysPipe (recorded sel4) boot sender m) fun _ => True := by
  refine .get fun r _ => ?_
  cases r.freePipe with
  | none => exact .reply _
  | some i =>
    refine .seq (.setPipe i fun _ _ => hzero) fun _ =>   .seq (.sys (not_uses_child _ _)) fun _ => ?_
    refine .seq (.sys id) fun _ => .ite (fun _ => .reply _) fun _ => ?_
    exact .seq (.setPipe i fun _ hx => hx) fun _ => .reply _

/-- A pipe is taken out of use with whatever it names. -/
theorem sysPipeClose (m : Message) :
    Spares boot X live (Rootserver.sysPipeClose (recorded sel4) m) fun _ => True := by
  refine .seq (.onlyIf fun _ => ?_) fun _ => .reply _
  refine .seq (.setPipe _ fun _ hx => hx) fun _ => .get fun _ _ => .onlyIf fun _ => ?_
  exact .seq (.sys (not_uses_child _ _)) fun _ => .pure trivial

/-! ## System calls -/

/-- A thread borrows the address space and the CNode of its creator, which names none of them. -/
theorem sysClone (hzero : ¬ X 0) {sender : ℕ} (hs : live sender) (m : Message) :
    Spares boot X live (Rootserver.sysClone (recorded sel4) boot sender m) fun _ => True := by
  refine .get fun r hr => ?_
  have hthread : (Pcb.freshThread (r.pcbs sender)).Avoids X :=
    ⟨hzero, (hr.pcbs sender (.inl hs)).vspace, hzero, hzero, List.forall_mem_nil _,
      fun _ _ => hzero⟩
  cases r.freePid with
  | none => exact .reply _
  | some pid =>
    refine .seq (.setPcb pid (fun _ _ => hthread) fun _ _ => .inr hthread) fun _ => ?_
    refine .seq ?_ fun _ => .seq (.onlyIf fun _ => .setPipe _ fun _ hx => hx) fun _ => ?_
    · refine .bind (.allocAndTrackCap pid) fun tcb htcb => .seq (.sys id) fun _ => ?_
      refine .bind (.allocAndTrackCap pid) fun badgedEp hbadged => .seq (.sys id) fun _ => ?_
      refine .get fun _ _ => .seq (.sys (not_uses_child _ _)) fun _ => .seq (.sys id) fun _ => ?_
      refine .bind (.allocAndTrackCap pid) fun _ _ => .seq (.sys id) fun _ => ?_
      refine .get fun _ _ => .seq ?_ fun _ => ?_
      · exact .window (fun _ => rfl) (fun _ => rfl) (fun _ => rfl) (fun _ => rfl) (fun _ => rfl)
          fun _ => rfl
      iterate 3 refine .seq (.sys id) fun _ => ?_
      refine .seq (.checkErr _) fun _ => ?_
      iterate 4 refine .seq (.sys id) fun _ => ?_
      refine .setPcb pid (fun x hx => ?_) fun _ hx => .inl hx
      exact ⟨htcb, hx.vspace, hbadged, hx.replyCap, hx.tracked, hx.copies⟩
    · exact .get fun _ _ => .seq (.sys id) fun _ => .reply _

/-- A waiter is parked in a new slot. -/
theorem sysWait (sender : ℕ) (m : Message) :
    Spares boot X live (Rootserver.sysWait (recorded sel4) boot sender m) fun _ => True := by
  refine .get fun r _ => .ite (fun _ => ?_) fun _ => .reply _
  refine .seq (.setPcb _ (fun x hx => ?_) fun _ hx => .inl hx) fun _ => ?_
  · exact ⟨hx.tcb, hx.vspace, hx.badgedEp, hx.replyCap, hx.tracked, hx.copies⟩
  refine .bind .allocSlot fun cap hcap => .seq (.sys id) fun _ => .setReplyCap _ hcap

/-- Of a thread what it tracks is released. -/
theorem sysThreadExit (hzero : ¬ X 0) (m : Message) :
    Spares boot X live (Rootserver.sysThreadExit (recorded sel4) boot m) fun _ => True := by
  refine .get fun r _ => .onlyIf fun hthread => .seq (.closePipesOf hzero _) fun _ => ?_
  refine .seq (.onlyIf fun _ => .wake hzero _ _) fun _ => .get fun t ht => .onlyIf fun _ => ?_
  have hpcb := ht.pcbs _ (.inl (.inr hthread.2.2))
  refine .seq (.sys id) fun _ => .seq (.onlyIf fun _ => ?_) fun _ => ?_
  · exact .seq (.sys id) fun _ => .pure trivial
  refine .seq (.forM fun cap hcap => .releaseCap (hpcb.tracked cap hcap)) fun _ => ?_
  refine .setPcb _ (fun x hx => ?_) fun _ hx => by cases hx
  exact ⟨hx.tcb, hx.vspace, hx.badgedEp, hx.replyCap, List.forall_mem_nil _, hx.copies⟩

/-- The target is recovered or deleted. -/
theorem sysKill (hzero : ¬ X 0) (m : Message) :
    Spares boot X live (Rootserver.sysKill (recorded sel4) boot m) fun _ => True := by
  refine .get fun r hr => .ite (fun htarget => ?_) fun _ => .reply _
  refine .ite (fun _ => ?_) fun _ => ?_
  · exact .seq (.genericRecoverProcess hzero _) fun _ => .reply _
  · refine .seq (.stopThread _) fun _ => ?_
    exact .seq (.deleteProcess _ (hr.pcbs _ (.inr htarget.2.2))) fun _ => .reply _

/-- The waiters of the process are woken, and then it is deleted. -/
theorem sysExit (hzero : ¬ X 0) {sender : ℕ} (hs : live sender) :
    Spares boot X live (Rootserver.sysExit (recorded sel4) boot sender) fun _ => True := by
  refine .onlyIf fun _ => .seq (.closePipesOf hzero _) fun _ => ?_
  refine .seq (.forM fun i _ => .wake hzero _ i) fun _ => .get fun t ht => ?_
  exact .seq (.stopThread _) fun _ => .deleteProcess _ (ht.pcbs sender (.inl hs))

/-- The image is loaded, and a process started. -/
theorem sysExec (hzero : ¬ X 0) (m : Message) :
    Spares boot X live (Rootserver.sysExec (recorded sel4) boot m) fun _ => True := by
  refine .bind (.loadElfFromDisk _) fun loaded _ => ?_
  split
  · exact .reply _
  · exact .reply _
  · refine .ite (fun _ => ?_) fun _ => .reply _
    exact .seq (.spawnProcess hzero _ _ _) fun _ => .reply _

/-- The process with the name is recovered. -/
theorem sysRecover (hzero : ¬ X 0) (m : Message) :
    Spares boot X live (Rootserver.sysRecover (recorded sel4) boot m) fun _ => True := by
  refine .get fun r _ => ?_
  split
  · exact .reply _
  · exact .seq (.genericRecoverProcess hzero _) fun _ => .reply _

/-- The copies of the window are new slots, by induction on the frames that are left. -/
theorem shareFrames (pid vaddr : ℕ) (is : List ℕ) :
    Spares boot X live (Rootserver.shareFrames (recorded sel4) boot pid vaddr is)
      fun _ => True := by
  induction is with
  | nil => exact .pure trivial
  | cons i is ih =>
    refine .seq (.bind .allocSlot fun frameCopy hcopy => ?_) fun _ =>
      .ite (fun _ => ih) fun _ => .pure trivial
    refine .seq (.setPcb pid (fun x hx => ⟨hx.tcb, hx.vspace, hx.badgedEp, hx.replyCap,
      hx.tracked, fun j hj => ?_⟩) fun _ hx => .inl hx) fun _ => ?_
    · change ¬ X (Function.update x.shmCopies i frameCopy j)
      by_cases hji : j = i
      · rwa [hji, Function.update_self]
      · rw [Function.update_of_ne hji]
        exact hx.copies j hj
    refine .ite (fun _ => .pure trivial) fun _ => .seq (.sys id) fun _ => ?_
    refine .ite (fun _ => .get fun _ _ => .mapFrameRobust _ _ _ _) fun _ => .pure trivial

/-- A refused call puts back its own copies. -/
theorem sysShmGet (m : Message) :
    Spares boot X live (Rootserver.sysShmGet (recorded sel4) boot m) fun _ => True := by
  refine .get fun r hr => .ite (fun _ => .reply _) fun hpid => ?_
  have hactive : (r.pcbs (toInt32 m.badge).toNat).active = true := by
    by_contra h
    exact hpid (.inr (.inr (Bool.not_eq_true _ ▸ h)))
  refine .seq (.setPcb _ (fun x hx => ?_) fun _ hx => .inl hx) fun _ => ?_
  · exact ⟨hx.tcb, hx.vspace, hx.badgedEp, hx.replyCap, hx.tracked, hx.copies⟩
  refine .seq (.shareFrames _ _ _) fun _ => .ite (fun _ => ?_) fun _ => .get fun t ht => ?_
  · exact .get fun _ _ => .seq (.sys id) fun _ => .reply _
  have hcopies := (ht.pcbs _ (.inl (.inr hactive))).copies
  refine .seq (.forM fun i hi => .dropCopy (hcopies i (List.mem_range.mp hi))) fun _ => ?_
  refine .seq ?_ fun _ => .reply _
  refine .setPcb _ (fun x hx => ?_) fun _ hx => .inl hx
  exact ⟨hx.tcb, hx.vspace, hx.badgedEp, hx.replyCap, hx.tracked, hx.copies⟩

/-- Saving the sleeper in its own slot sends nothing and empties nothing. -/
theorem sysSleep :
    Spares boot X live (Rootserver.sysSleep (recorded sel4) boot) fun _ => True := by
  refine .get fun r _ => .ite (fun _ => .reply _) fun _ => .seq (.sys id) fun _ => ?_
  refine .ite (fun _ => ?_) fun _ => .reply _
  exact .window (fun _ => rfl) (fun _ => rfl) (fun _ => rfl) (fun _ => rfl) (fun _ => rfl)
    fun _ => rfl

/-- A page fault maps a new frame or ends in a recovery. -/
theorem vmFault (hzero : ¬ X 0) (sender : ℕ) (m : Message) :
    Spares boot X live (Rootserver.vmFault (recorded sel4) boot sender m) fun _ => True := by
  refine .ite (fun _ => ?_) fun _ => .ite (fun _ => .throw) fun _ => ?_
  · refine .bind (.allocAndTrackCap _) fun _ _ => .seq (.sys id) fun _ => ?_
    refine .seq (.checkErr _) fun _ => .get fun _ _ => .seq (.sys id) fun _ => ?_
    exact .seq (.checkErr _) fun _ => .reply _
  · exact .onlyIf fun _ => .genericRecoverProcess hzero _

/-- Every system call but the two of the drivers. -/
theorem syscall (hzero : ¬ X 0) {sender : ℕ} (hs : live sender) {m : Message}
    (h109 : m.mr 0 ≠ 109) (h110 : m.mr 0 ≠ 110) :
    Spares boot X live (Rootserver.syscall (recorded sel4) boot sender m) fun _ => True := by
  refine .get fun r _ => ?_
  split
  · exact .reply _
  · exact .reply _
  · exact .sysSleep
  · exact .reply _
  · exact .ite (fun _ => .readPipe _) fun _ => .reply _
  · exact .reply _
  · exact .sysPuts hzero m
  · exact .sysPipe hzero sender m
  · exact .seq (.onlyIf fun _ => .closeWriter hzero _) fun _ => .reply _
  · exact .sysPipeClose m
  · exact .reply _
  · exact .sysExec hzero m
  · exact .sysClone hzero (.inl hs) m
  · exact .sysKill hzero m
  · exact .sysExit hzero (.inl hs)
  · exact .reply _
  · exact .sysThreadExit hzero m
  · exact .sysWait sender m
  · exact .sysShmGet m
  · exact .reply _
  · exact absurd ‹_› h109
  · exact absurd ‹_› h110
  · exact .sysRecover hzero m
  · exact .reply _

end Spares

/-- The sender of a message that is handled is active, or it is 0. -/
theorem active_of_senderPid {r : Root K} {badge sender : ℕ} (h : r.senderPid badge = some sender) :
    sender = 0 ∨ (r.pcbs sender).active = true := by
  unfold Root.senderPid at h
  split at h
  · split at h
    · obtain rfl := Option.some.inj h
      exact .inr (by assumption : _ ∧ _ ∧ _).2.2
    · cases h
  · exact .inl (Option.some.inj h).symm

/-- A message other than the two of the drivers leaves the slots and their variables alone. -/
theorem step_spares {r r' : Root (K × List Invocation)} {m : Message}
    (h : Step (recorded sel4) boot r m r') (hr : r.Avoids X (· = 0))
    (hm : ¬ (m.label = .other ∧ (m.mr 0 = 109 ∨ m.mr 0 = 110))) :
    r'.Avoids X (· = 0) ∧ Untouched boot X r r' := by
  suffices hends : Ends (handle (recorded sel4) boot m) r fun _ t =>
      t.Avoids X (· = 0) ∧ Untouched boot X r t from hends _ _ h
  refine .bind (.get ?_)
  cases hsender : r.senderPid m.badge with
  | none => exact .pure ⟨hr, .refl r⟩
  | some sender =>
    have hlive : Root.Avoids X (fun p => p = 0 ∨ (r.pcbs p).active = true) r :=
      hr.mono fun _ hp => hp
    have hends {prog : RootM (K × List Invocation) PUnit}
        (h : Spares boot X (fun p => p = 0 ∨ (r.pcbs p).active = true) prog fun _ => True) :
        Ends prog r fun _ t => t.Avoids X (· = 0) ∧ Untouched boot X r t :=
      (h r hlive).mono fun _ t ht => ⟨ht.2.1.mono fun p hp => .inl (.inl hp), ht.2.2⟩
    cases hl : m.label with
    | vmFault => exact hends (.vmFault hr.zero sender m)
    | capFault => exact hends (.onlyIf fun _ => .genericRecoverProcess hr.zero _)
    | other =>
      exact hends (.syscall hr.zero (active_of_senderPid hsender) (fun h => hm ⟨hl, .inl h⟩)
        fun h => hm ⟨hl, .inr h⟩)

end PsychWard.Rootserver
