import PsychWard.Rootserver.PipeCaps
import PsychWard.Rootserver.Slots
import Mathlib.Data.Set.Basic

/-!
# The slots of threads

A new thread shares the CSpace of its creator, and `SYS_CLONE` puts the thread's endpoint into slot
`100 + pid` of it: it deletes what is there and copies the endpoint into the slot. The CNode has 256
slots, and an index that is used with depth 8 selects one by its low 8 bits, so from PID 156 on the
slots go around to those that `spawn_process` and `SYS_PIPE` use. `Takes` is the `SYS_CLONE` that
meets one of these in use, and `reserved_kept` says that thread creation destroys nothing else.

What the slots hold is a ghost part of the kernel's state, kept by `tracked` from the answers of the
kernel.
-/

namespace PsychWard.Rootserver

open Program

variable {K : Type}

/-! ## The contents of CNodes -/

/-- What was put into a slot: the number of the capability, counted over all slots, the place that
was named for it and the badge that was minted into it. -/
structure Capability where
  serial : ℕ
  dest : Place
  badge : Option ℕ
  deriving DecidableEq

/-- What the slots hold, and how many capabilities have been put into slots. -/
structure CNodes where
  count : ℕ
  cap : Place → Option Capability

namespace CNodes

/-- No capability has been put anywhere. -/
def empty : CNodes := ⟨0, fun _ => none⟩

/-- A new capability goes into a slot. -/
def put (c : CNodes) (dest : Place) (badge : Option ℕ) : CNodes where
  count := c.count + 1
  cap := Function.update c.cap dest.slot (some ⟨c.count, dest, badge⟩)

/-- The CNode with this capability pointer is new or gone. -/
def clear (c : CNodes) (cnode : ℕ) : CNodes :=
  { c with cap := fun s => if s.depth = 8 ∧ s.cnode = cnode then none else c.cap s }

/-- A capability is deleted; with a capability in the root CNode goes the CNode it stands for. -/
def delete (c : CNodes) (s : Place) : CNodes :=
  let rest := { c with cap := Function.update c.cap s.slot none }
  if s.depth = 64 then rest.clear s.index else rest

/-- The contents after an invocation and the kernel's answer to it. -/
def after (c : CNodes) : Invocation → SeL4Error → CNodes
  | .cnodeMint dest _ badge, .noError => c.put dest (some badge)
  | .cnodeCopy dest _, .noError => c.put dest none
  | .cnodeDelete s, _ => c.delete s
  | .untypedRetype .capTable _ dest, .noError => c.clear dest
  | _, _ => c

/-- The four things an invocation can do. -/
theorem after_cases (c : CNodes) (i : Invocation) (e : SeL4Error) : c.after i e = c ∨
    (∃ dest badge, c.after i e = c.put dest badge) ∨ (∃ s, c.after i e = c.delete s) ∨
    ∃ cnode, c.after i e = c.clear cnode := by
  unfold after
  split
  · exact .inr (.inl ⟨_, _, rfl⟩)
  · exact .inr (.inl ⟨_, _, rfl⟩)
  · exact .inr (.inr (.inl ⟨_, rfl⟩))
  · exact .inr (.inr (.inr ⟨_, rfl⟩))
  · exact .inl rfl

variable {c : CNodes} {s u : Place} {x : Capability}

/-- The slot holds the new capability. -/
theorem cap_put_self (dest : Place) (badge : Option ℕ) :
    (c.put dest badge).cap dest.slot = some ⟨c.count, dest, badge⟩ := Function.update_self ..

/-- The other slots hold what they held. -/
theorem cap_put_of_ne {dest : Place} (badge : Option ℕ) (h : u ≠ dest.slot) :
    (c.put dest badge).cap u = c.cap u := Function.update_of_ne h ..

/-- What a CNode that was cleared leaves was there before. -/
theorem cap_of_clear {cnode : ℕ} (h : (c.clear cnode).cap u = some x) : c.cap u = some x := by
  unfold clear at h
  dsimp only at h
  split at h
  · cases h
  · exact h

/-- Deleting puts nothing. -/
theorem count_delete (c : CNodes) (s : Place) : (c.delete s).count = c.count := by
  unfold delete
  dsimp only
  split <;> rfl

/-- Deleting leaves what it does not remove. -/
theorem cap_of_delete (h : (c.delete s).cap u = some x) : c.cap u = some x ∧ u ≠ s.slot := by
  have hrest : (if u = s.slot then none else c.cap u) = some x := by
    unfold delete at h
    dsimp only at h
    split at h
    · simpa only [Function.update_apply] using cap_of_clear h
    · simpa only [Function.update_apply] using h
  split at hrest
  · cases hrest
  · exact ⟨hrest, ‹_›⟩

/-- Deleting leaves the other slots. -/
theorem cap_delete_of_ne (hdepth : s.depth = 8) (h : u ≠ s.slot) :
    (c.delete s).cap u = c.cap u := by
  unfold delete
  dsimp only
  rw [if_neg (by omega)]
  exact Function.update_of_ne h ..

/-- Capabilities are numbered in the order they are put into slots. -/
def Ordered (c : CNodes) : Prop := ∀ s, ∀ x ∈ c.cap s, x.serial < c.count

/-- The slot is empty, or it was filled after the first `n` capabilities had been put. -/
def Renewed (n : ℕ) (s : Place) (c : CNodes) : Prop := n ≤ c.count ∧ ∀ x ∈ c.cap s, n ≤ x.serial

/-- There is nothing to number. -/
theorem ordered_empty : empty.Ordered := fun _ _ h => by cases h

/-- The capabilities stay numbered by their age. -/
theorem Ordered.after (h : c.Ordered) (i : Invocation) (e : SeL4Error) : (c.after i e).Ordered := by
  rcases c.after_cases i e with hi | ⟨d, b, hi⟩ | ⟨d, hi⟩ | ⟨n, hi⟩
  · rwa [hi]
  · rw [hi]
    intro s x hx
    by_cases hs : s = d.slot
    · rw [hs, cap_put_self] at hx
      cases hx
      exact Nat.lt_succ_self _
    · rw [cap_put_of_ne b hs] at hx
      exact (h s x hx).trans (Nat.lt_succ_self _)
  · rw [hi]
    intro s x hx
    rw [count_delete]
    exact h s x (cap_of_delete hx).1
  · rw [hi]
    exact fun s x hx => h s x (cap_of_clear hx)

/-- What was put after the mark stays so. -/
theorem Renewed.after {n : ℕ} (h : c.Renewed n u) (i : Invocation) (e : SeL4Error) :
    (c.after i e).Renewed n u := by
  rcases c.after_cases i e with hi | ⟨d, b, hi⟩ | ⟨d, hi⟩ | ⟨m, hi⟩
  · rwa [hi]
  · rw [hi]
    refine ⟨h.1.trans (Nat.le_succ _), fun x hx => ?_⟩
    by_cases hs : u = d.slot
    · rw [hs, cap_put_self] at hx
      cases hx
      exact h.1
    · rw [cap_put_of_ne b hs] at hx
      exact h.2 x hx
  · rw [hi]
    refine ⟨by rw [count_delete]; exact h.1, fun x hx => h.2 x (cap_of_delete hx).1⟩
  · rw [hi]
    exact ⟨h.1, fun x hx => h.2 x (cap_of_clear hx)⟩

/-- No kernel call takes a capability back. -/
theorem le_count_after {n : ℕ} (h : n ≤ c.count) (i : Invocation) (e : SeL4Error) :
    n ≤ (c.after i e).count := by
  rcases c.after_cases i e with hi | ⟨d, b, hi⟩ | ⟨d, hi⟩ | ⟨m, hi⟩
  · rwa [hi]
  · rw [hi]
    exact h.trans (Nat.le_succ _)
  · rwa [hi, count_delete]
  · rwa [hi]

/-- A slot that was deleted holds nothing from before. -/
theorem renewed_delete {n : ℕ} (h : n ≤ c.count) (s : Place) :
    (c.delete s).Renewed n s.slot :=
  ⟨by rwa [count_delete], fun _ hx => absurd rfl (cap_of_delete hx).2⟩

end CNodes

/-- The system with the contents of the CNodes beside its own state. -/
def tracked (sel4 : SeL4 K) : SeL4 (K × CNodes) := sel4.ghosted CNodes.after

/-- What the kernel has in a slot. -/
def Root.cap (r : Root (K × CNodes)) (s : Place) : Option Capability := r.kernel.2.cap s

/-! ## Slots in use -/

/-- The slots of a CNode that `spawn_process` fills. -/
def startSlots : List ℕ := [1, 2, 3, 4, 5, 7, 10]

/-- The slot holds the capability that the process was given in it at start: one that was put there
under the slot's own index, and not by `SYS_PIPE`. -/
def Root.StartCap (r : Root (K × CNodes)) (cspace i : ℕ) : Prop :=
  i ∈ startSlots ∧ ∃ x ∈ r.cap (childSlot cspace i), x.dest = childSlot cspace i ∧
    ∀ b ∈ x.badge, ¬ isPipeCall b

/-- Slot 20 of the CSpace holds the capability of an open pipe. -/
def Root.PipeCap (r : Root (K × CNodes)) (cspace : ℕ) : Prop :=
  ∃ x ∈ r.cap (childSlot cspace pipeFdSlot), ∃ i < maxPipes,
    x.badge = some (pipeBaseBadge + i) ∧ (r.pipes i).active = true

/-- The slot that the low 8 bits of `100 + pid` select. -/
def threadSlot (pid : ℕ) : ℕ := (100 + pid) % 2 ^ 8

/-- The slot is the one of a live thread's endpoint. -/
def Root.ThreadCap (r : Root (K × CNodes)) (cspace i : ℕ) : Prop :=
  ∃ q, r.table.Alive q ∧ (r.pcbs q).IsThread ∧ (r.pcbs q).cspace = cspace ∧ i = threadSlot q

/-- The slots that the creation of a thread has to leave alone. -/
def Root.Reserved (r : Root (K × CNodes)) (cspace i : ℕ) : Prop :=
  r.StartCap cspace i ∨ i = pipeFdSlot ∧ r.PipeCap cspace ∨ r.ThreadCap cspace i

/-- The message is a `SYS_CLONE`. -/
def Message.Clones (m : Message) : Prop := m.label = .other ∧ m.mr 0 = 101

/-- The reserved slots, each with its CNode, that hold something else after a `SYS_CLONE`. -/
def Destroyed (r : Root (K × CNodes)) (m : Message) (r' : Root (K × CNodes)) : Set (ℕ × ℕ) :=
  {s | m.Clones ∧ r.Reserved s.1 s.2 ∧ r'.cap (childSlot s.1 s.2) ≠ r.cap (childSlot s.1 s.2)}

/-- A step of the rootserver together with all that thread creation has destroyed so far. -/
def CloneStep (sel4 : SeL4 K) (boot : Boot) (x : Root (K × CNodes) × Set (ℕ × ℕ)) (m : Message)
    (y : Root (K × CNodes) × Set (ℕ × ℕ)) : Prop :=
  Step (tracked sel4) boot x.1 m y.1 ∧ y.2 = x.2 ∪ Destroyed x.1 m y.1

/-- The message creates a thread whose slot goes around to a capability of the process's start or
of an open pipe. -/
def Takes (r : Root (K × CNodes)) (m : Message) : Prop :=
  m.Clones ∧ ∃ sender pid, r.table.senderPid m.badge = some sender ∧ r.freePid = some pid ∧
    (r.StartCap (r.pcbs sender).cspace (threadSlot pid) ∨
      threadSlot pid = pipeFdSlot ∧ r.PipeCap (r.pcbs sender).cspace)

/-! ## One step -/

section
variable {sel4 : SeL4 K} {boot : Boot}

/-- Every step keeps the numbers in order. -/
theorem ordered_step {r r' : Root (K × CNodes)} {m : Message}
    (h : Step (tracked sel4) boot r m r') (hr : r.kernel.2.Ordered) : r'.kernel.2.Ordered :=
  (kernelOnly_ghosted (P := CNodes.Ordered) fun _ i e hc => hc.after i e).step h hr

/-- The invocation leaves the slots of other CNodes than the root, apart from `s`, alone. -/
def Invocation.Only (s : Place) : Invocation → Prop
  | .cnodeMint dest _ _ => dest.depth = 8 → dest.slot = s
  | .cnodeCopy dest _ => dest.depth = 8 → dest.slot = s
  | .cnodeDelete t => t.depth = 8 ∧ t.slot = s
  | .untypedRetype type _ _ => type ≠ .capTable
  | _ => True

/-- A kernel call on a slot leaves the other ones. -/
theorem CNodes.cap_after {c : CNodes} {s u : Place} {i : Invocation} (h : i.Only s)
    (hdepth : u.depth = 8) (hu : u ≠ s) (e : SeL4Error) : (c.after i e).cap u = c.cap u := by
  unfold CNodes.after
  split
  · refine cap_put_of_ne _ fun heq => hu (heq.trans (h ?_))
    rw [← hdepth, heq, Place.slot]
  · refine cap_put_of_ne _ fun heq => hu (heq.trans (h ?_))
    rw [← hdepth, heq, Place.slot]
  · exact cap_delete_of_ne h.1 fun heq => hu (heq.trans h.2)
  · exact absurd rfl h
  · rfl

/-- Inside `SYS_CLONE`: the sender has the CSpace `cspace`, the contents satisfy `P`, and but for
the slot `s` the CNodes of processes hold what they held at first. -/
structure Midway (P : CNodes → Prop) (base : Place → Option Capability) (sender cspace : ℕ)
    (s : Place) (t : Root (K × CNodes)) : Prop where
  cspace : (t.pcbs sender).cspace = cspace
  holds : P t.kernel.2
  kept : ∀ u : Place, u.depth = 8 → u ≠ s → t.cap u = base u

namespace Midway

variable {P : CNodes → Prop} {base : Place → Option Capability} {sender cspace p : ℕ} {s : Place}
  {t : Root (K × CNodes)} (h : Midway P base sender cspace s t)

include h

/-- Only the kernel and the CNode of the sender count. -/
theorem congr {u : Root (K × CNodes)} (hkernel : u.kernel = t.kernel)
    (hcspace : (u.pcbs sender).cspace = (t.pcbs sender).cspace) :
    Midway P base sender cspace s u where
  cspace := hcspace.trans h.cspace
  holds := by rw [hkernel]; exact h.holds
  kept v hdepth hv := by rw [Root.cap, hkernel]; exact h.kept v hdepth hv

/-- A kernel call on the slot or on none of the CNode. -/
theorem sys (hP : ∀ c i e, P c → P (c.after i e)) {i : Invocation} (hi : i.Only s) :
    Ends (Rootserver.sys (tracked sel4) i) t fun _ u => Midway P base sender cspace s u := by
  intro _ u hrun
  cases hrun
  refine ⟨h.cspace, hP _ _ _ h.holds, fun v hdepth hv => ?_⟩
  exact (CNodes.cap_after hi hdepth hv _).trans (h.kept v hdepth hv)

/-- A PCB of somebody else. -/
theorem setPcb (hp : sender ≠ p) (f : Pcb → Pcb) :
    Ends (Rootserver.setPcb p f) t fun _ u => Midway P base sender cspace s u :=
  .modify (h.congr rfl (by rw [Root.setPcb_of_ne t f hp]))

/-- A slot for somebody else. -/
theorem allocAndTrackCap (hp : sender ≠ p) :
    Ends (Rootserver.allocAndTrackCap p) t fun _ u => Midway P base sender cspace s u := by
  refine .bind fun _ u hu => ?_
  cases hu
  refine .bind (.get (.ite (fun _ => .throw) fun _ => ?_))
  have h' : Midway P base sender cspace s { t with alloc := t.alloc.allocSlot.2 } := h.congr rfl rfl
  exact .seq (h'.setPcb hp _) fun _ u hu => .pure hu

/-- The check of an error. -/
theorem checkErr (err : SeL4Error) :
    Ends (Rootserver.checkErr err) t fun _ u => Midway P base sender cspace s u :=
  .ite (fun _ => .pure h) fun _ => .throw

end Midway

/-- The slot in which `SYS_CLONE` puts the endpoint of the thread `pid`. -/
def Root.faultSlot (r : Root K) (sender pid : ℕ) : Place :=
  (childSlot (r.pcbs sender).cspace (100 + pid)).slot

/-- `SYS_CLONE` empties or refills the slot of the new thread, and no other slot of a process. -/
def CloneEffect (r : Root (K × CNodes)) (sender pid : ℕ) : Root (K × CNodes) → Prop :=
  Midway (CNodes.Renewed r.kernel.2.count (r.faultSlot sender pid)) r.cap sender
    (r.pcbs sender).cspace (r.faultSlot sender pid)

variable (sel4 boot) in
/-- `SYS_CLONE` touches one slot of its caller, that of the new thread. -/
theorem cap_cloneBody {sender p : ℕ} (hp : sender ≠ p) (m : Message) (r : Root (K × CNodes)) :
    Ends (cloneBody (tracked sel4) boot sender p m) r fun _ t => CloneEffect r sender p t := by
  have hcount : ∀ (c : CNodes) i e, r.kernel.2.count ≤ c.count →
      r.kernel.2.count ≤ (c.after i e).count := fun c i e h => CNodes.le_count_after h i e
  have hrenewed : ∀ c i e, CNodes.Renewed r.kernel.2.count (r.faultSlot sender p) c →
      CNodes.Renewed r.kernel.2.count (r.faultSlot sender p) (c.after i e) :=
    fun c i e hc => hc.after i e
  have hstart : Midway (fun c => r.kernel.2.count ≤ c.count) r.cap sender (r.pcbs sender).cspace
      (r.faultSlot sender p) r := ⟨rfl, le_rfl, fun _ _ _ => rfl⟩
  refine .seq (hstart.allocAndTrackCap hp) fun tcb t ht => ?_
  refine .seq (ht.sys hcount fun h => by cases h) fun _ u hu => ?_
  refine .seq (hu.allocAndTrackCap hp) fun badgedEp v hv => ?_
  refine .seq (hv.sys hcount fun h => by cases h) fun _ w hw => ?_
  refine .bind (.get (.bind fun _ x hx => ?_))
  rw [hw.cspace] at hx ⊢
  have hempty : CloneEffect r sender p x := by
    cases hx
    refine ⟨hw.cspace, CNodes.renewed_delete hw.holds _, fun u hdepth hu => ?_⟩
    exact (CNodes.cap_delete_of_ne rfl hu).trans (hw.kept u hdepth hu)
  -- from here on the slot is empty or holds a new capability
  refine .seq (hempty.sys hrenewed fun _ => rfl) fun _ t ht => ?_
  refine .seq (ht.allocAndTrackCap hp) fun ipcFrame u hu => ?_
  refine .seq (hu.sys hrenewed fun h => by cases h) fun _ v hv => .bind (.get ?_)
  refine .bind fun _ t ht => ?_
  have h := hv.congr (u := t) (by cases ht; rfl) (by cases ht; rfl)
  refine .seq (h.sys hrenewed trivial) fun _ t h => .seq (h.sys hrenewed trivial) fun _ t h => ?_
  refine .seq (h.sys hrenewed trivial) fun _ t h => .seq (h.checkErr _) fun _ t h => ?_
  refine .seq (h.sys hrenewed trivial) fun _ t h => .seq (h.sys hrenewed trivial) fun _ t h => ?_
  refine .seq (h.sys hrenewed trivial) fun _ t h => .seq (h.sys hrenewed trivial) fun _ t h => ?_
  exact h.setPcb hp _

/-- `SYS_CLONE` for the lowest free PID. -/
theorem cap_sysClone {sender p : ℕ} {r : Root (K × CNodes)} (hfree : r.freePid = some p)
    (hp : sender ≠ p) (m : Message) :
    Ends (sysClone (tracked sel4) boot sender m) r fun _ t => CloneEffect r sender p t := by
  have hrenewed : ∀ c i e, CNodes.Renewed r.kernel.2.count (r.faultSlot sender p) c →
      CNodes.Renewed r.kernel.2.count (r.faultSlot sender p) (c.after i e) :=
    fun c i e hc => hc.after i e
  refine .bind (.get ?_)
  rw [hfree]
  refine .seq (ends_setPcb p _ r) fun _ t ht => ?_
  subst ht
  have hbody := cap_cloneBody sel4 boot hp m (r.setPcb p fun _ => Pcb.freshThread (r.pcbs sender))
  rw [CloneEffect, Root.faultSlot, Root.setPcb_of_ne r _ hp] at hbody
  refine .seq hbody fun _ t h => .seq (Q := fun _ => CloneEffect r sender p) ?_ fun _ t h => ?_
  · exact .onlyIf (fun _ => .modify (h.congr rfl rfl)) fun _ => h
  · refine .bind (.get (.seq (h.sys hrenewed trivial) fun _ t h => ?_))
    exact .seq (h.sys hrenewed trivial) fun _ t h => .pure h

/-- Without a free PID `SYS_CLONE` only answers. -/
theorem cap_sysClone_full {sender : ℕ} {r : Root (K × CNodes)} (hfree : r.freePid = none)
    (m : Message) :
    Ends (sysClone (tracked sel4) boot sender m) r fun _ t => t.kernel.2 = r.kernel.2 := by
  refine .bind (.get ?_)
  rw [hfree]
  intro _ t hrun
  rw [run_reply] at hrun
  cases hrun
  rfl

/-- No two PIDs have the same thread slot. -/
theorem threadSlot_injective {p q : ℕ} (hp : p < 256) (hq : q < 256)
    (h : threadSlot p = threadSlot q) : p = q := by
  unfold threadSlot at h
  omega

/-- Whoever sends is alive, and a free PID is not. -/
theorem sender_ne_freePid {r : Root K} {badge sender p : ℕ}
    (hsender : r.table.senderPid badge = some sender) (hfree : r.freePid = some p) :
    sender ≠ p := by
  rintro rfl
  obtain ⟨hinactive, hpos, -⟩ := Root.freePid_eq_some hfree
  rcases active_of_senderPid hsender with rfl | hactive
  · exact absurd hpos (lt_irrefl 0)
  · rw [hinactive] at hactive
    cases hactive

/-- A clone puts its slot to new use, so that the capability in it is destroyed. -/
theorem mem_destroyed {r r' : Root (K × CNodes)} {m : Message} {sender p : ℕ}
    (hstep : Step (tracked sel4) boot r m r') (hord : r.kernel.2.Ordered) (hm : m.Clones)
    (hsender : r.table.senderPid m.badge = some sender) (hfree : r.freePid = some p)
    (hcap : r.StartCap (r.pcbs sender).cspace (threadSlot p) ∨
      threadSlot p = pipeFdSlot ∧ r.PipeCap (r.pcbs sender).cspace) :
    ((r.pcbs sender).cspace, threadSlot p) ∈ Destroyed r m r' := by
  have hrun := step_syscall hstep hsender hm.1
  rw [syscall, run_bind, run_get, hm.2] at hrun
  have heffect := cap_sysClone hfree (sender_ne_freePid hsender hfree) m _ _ hrun
  have hheld : ∃ x, x ∈ r.cap (r.faultSlot sender p) := by
    rcases hcap with ⟨-, x, hx, -⟩ | ⟨hslot, x, hx, -⟩
    · exact ⟨x, hx⟩
    · rw [← hslot] at hx
      exact ⟨x, hx⟩
  obtain ⟨x, hx⟩ := hheld
  refine ⟨hm, hcap.imp_right .inl, fun hsame => ?_⟩
  exact absurd (heffect.holds.2 x (hsame.trans hx)) (hord _ x hx).not_ge

/-- A clone that `Takes` does not speak of destroys nothing: two live threads have two slots. -/
theorem destroyed_of_not_takes {r r' : Root (K × CNodes)} {m : Message}
    (hstep : Step (tracked sel4) boot r m r') (h : ¬ Takes r m) : Destroyed r m r' = ∅ := by
  refine Set.eq_empty_of_forall_notMem fun ⟨c, i⟩ ⟨hm, hreserved, hne⟩ => ?_
  cases hsender : r.table.senderPid m.badge with
  | none => exact hne (by rw [step_ignored hstep hsender])
  | some sender =>
    have hrun := step_syscall hstep hsender hm.1
    rw [syscall, run_bind, run_get, hm.2] at hrun
    cases hfree : r.freePid with
    | none =>
      have hsame := cap_sysClone_full hfree m _ _ hrun
      exact hne (by rw [Root.cap, hsame, Root.cap])
    | some p =>
      have heffect := cap_sysClone hfree (sender_ne_freePid hsender hfree) m _ _ hrun
      have hslot : childSlot c i = r.faultSlot sender p := by
        by_contra hother
        exact hne (heffect.kept _ rfl hother)
      obtain rfl : c = (r.pcbs sender).cspace := congrArg Place.cnode hslot
      obtain rfl : i = threadSlot p := congrArg Place.index hslot
      rcases hreserved with hstart | hpipe | ⟨q, hq, -, -, hi⟩
      · exact h ⟨hm, sender, p, hsender, hfree, .inl hstart⟩
      · exact h ⟨hm, sender, p, hsender, hfree, .inr hpipe⟩
      · obtain ⟨hinactive, -, hp⟩ := Root.freePid_eq_some hfree
        obtain rfl := threadSlot_injective hp hq.2.2 hi
        have hactive : (r.pcbs p).active = true := hq.1
        rw [hinactive] at hactive
        cases hactive

/-! ## Whole runs -/

/-- After boot the capabilities are numbered by their age. -/
theorem ordered_booted {dev : Devices} {k : K} {r : Root (K × CNodes)}
    (h : BootedFrom (tracked sel4) boot dev (k, CNodes.empty) r) : r.kernel.2.Ordered := by
  obtain ⟨alloc, -, -, hrun⟩ := h
  exact (kernelOnly_ghosted (P := CNodes.Ordered) fun _ i e hc => hc.after i e).steady.bootProcesses
    dev _ _ _ hrun CNodes.ordered_empty

/-- In every run from a boot in which no clone takes a slot that is in use, thread creation has
destroyed nothing, and with one more message it is still so if and only if the message takes no such
slot. -/
theorem reserved_kept {dev : Devices} {k : K} {r : Root (K × CNodes)}
    (hboot : BootedFrom (tracked sel4) boot dev (k, CNodes.empty) r) {ms : List Message}
    {y : Root (K × CNodes) × Set (ℕ × ℕ)}
    (hrun : Run (guarded (CloneStep sel4 boot) fun x m => ¬ Takes x.1 m) (r, ∅) ms y) :
    y.2 = ∅ ∧ ∀ m z, CloneStep sel4 boot y m z → (z.2 = ∅ ↔ ¬ Takes y.1 m) := by
  have hinv : y.1.kernel.2.Ordered ∧ y.2 = ∅ := by
    refine Run.invariant (I := fun x => x.1.kernel.2.Ordered ∧ x.2 = ∅) (fun x m z hx hstep => ?_)
      hrun ⟨ordered_booted hboot, rfl⟩
    obtain ⟨hno, hstep, hlost⟩ := hstep
    refine ⟨ordered_step hstep hx.1, ?_⟩
    rw [hlost, hx.2, destroyed_of_not_takes hstep hno, Set.union_empty]
  refine ⟨hinv.2, fun m z hstep => ?_⟩
  rw [hstep.2, hinv.2, Set.empty_union]
  refine ⟨fun hnone ⟨hm, sender, p, hsender, hfree, hcap⟩ => ?_, destroyed_of_not_takes hstep.1⟩
  have hmem := mem_destroyed hstep.1 hinv.1 hm hsender hfree hcap
  rw [hnone] at hmem
  exact hmem

end

/-! The shell starts threads until one of them meets its console. -/

/-- A `SYS_CLONE` of the shell. -/
def threadCall : Message := { badge := 5, mr := fun n => if n = 0 then 101 else 0 }

/-- With slots left and room in `cap_tracker` a slot is taken and tracked. -/
theorem run_allocAndTrackCap {K : Type} {r : Root K} {p : ℕ} (slot last : ℕ)
    (halloc : r.alloc = ⟨slot, last, []⟩) (hpos : 0 < slot) (hlast : slot < last)
    (htracked : (r.pcbs p).capTracker.length < capTrackerSize) :
    (allocAndTrackCap p : RootM K ℕ).run r =
      .ok (slot, Root.setPcb p (fun pcb => { pcb with capTracker := pcb.capTracker ++ [slot] })
        { r with alloc := ⟨slot + 1, last, []⟩ }) := by
  have hslot : r.alloc.allocSlot = (slot, ⟨slot + 1, last, []⟩) := by
    rw [halloc, PsychAllocator.allocSlot, if_pos hlast]
  rw [allocAndTrackCap, run_bind, run_allocSlot, hslot]
  simp only [run_bind, run_get]
  rw [if_neg (by omega)]
  rfl

/-- A kernel that grants every request lets a thread start. -/
theorem run_cloneBody {r : Root (Unit × CNodes)} {p slot last : ℕ}
    (halloc : r.alloc = ⟨slot, last, []⟩) (hpos : 0 < slot) (hlast : slot + 3 ≤ last)
    (htracked : (r.pcbs p).capTracker = []) (sender : ℕ) (m : Message) :
    ∃ t, (cloneBody (tracked granting) someBoot sender p m).run r = .ok (⟨⟩, t) ∧
      t.alloc = ⟨slot + 3, last, []⟩ := by
  rw [cloneBody, run_bind,
    run_allocAndTrackCap slot last halloc hpos (by omega) (by rw [htracked]; decide)]
  simp only [run_bind, run_sys]
  rw [run_allocAndTrackCap (slot + 1) last rfl (by omega) (by omega)
    (by simp [htracked, capTrackerSize])]
  simp only [run_get]
  rw [run_allocAndTrackCap (slot + 2) last rfl (by omega) (by omega)
    (by simp [htracked, capTrackerSize])]
  exact ⟨_, rfl, rfl⟩

/-- The slot of the shell's console. -/
def Root.shellConsole (r : Root K) : Place := childSlot (r.pcbs 5).cspace 1

/-- Since the state `r₀` the shell has started threads, so that the first `n - 1` PIDs are taken. -/
structure Crowd (r₀ : Root (Unit × CNodes)) (n : ℕ) (t : Root (Unit × CNodes)) : Prop where
  active : ∀ q ∈ pids, (t.pcbs q).active = decide (q < n)
  room : ∃ slot, t.alloc = ⟨slot, 4000, []⟩ ∧ 0 < slot ∧ slot + 3 * (158 - n) ≤ 4000
  cspace : (t.pcbs 5).cspace = (r₀.pcbs 5).cspace
  console : t.cap r₀.shellConsole = r₀.cap r₀.shellConsole
  ordered : t.kernel.2.Ordered

variable {r₀ t : Root (Unit × CNodes)}

/-- In a crowd the next PID is free. -/
theorem freePid_crowd {n : ℕ} (h : Crowd r₀ n t) (hpos : 0 < n)
    (hn : n < 256) : t.freePid = some n := by
  have hmem : ∀ q, q ∈ pids ↔ 0 < q ∧ q < 256 := fun q => mem_pids
  refine List.find?_range'_eq_some.mpr ⟨?_, (hmem n).mpr ⟨hpos, hn⟩, fun q hq hlt => ?_⟩
  · rw [h.active n ((hmem n).mpr ⟨hpos, hn⟩)]
    simp
  · rw [h.active q ((hmem q).mpr ⟨hq, by omega⟩)]
    simpa using hlt

/-- The shell is still there. -/
theorem sender_crowd {n : ℕ} (h : Crowd r₀ n t) (hn : 5 < n) :
    t.table.senderPid threadCall.badge = some 5 := by
  have hactive : (t.pcbs 5).active = true := by
    rw [h.active 5 (by decide)]
    exact decide_eq_true hn
  exact (if_pos (by decide)).trans (if_pos ⟨by decide, by decide, hactive⟩)

/-- A clone whose body comes back is started. -/
theorem run_sysClone {K : Type} {sel4 : SeL4 K} {boot : Boot} {r v : Root K} {sender p : ℕ}
    {m : Message} (hfree : r.freePid = some p) (hv : (cloneBody sel4 boot sender p m).run
      (r.setPcb p fun _ => Pcb.freshThread (r.pcbs sender)) = .ok (⟨⟩, v)) :
    ∃ u, (sysClone sel4 boot sender m).run r = .ok (⟨⟩, u) ∧ u.alloc = v.alloc ∧
      u.pcbs = v.pcbs := by
  have hpipe (c : Prop) [Decidable c] (i : ℕ) (f : Pipe → Pipe) :
      ∃ w, (onlyIf c (setPipe i f)).run v = .ok (⟨⟩, w) ∧ w.alloc = v.alloc ∧
        w.pcbs = v.pcbs := by
    unfold onlyIf
    split
    · exact ⟨_, rfl, rfl, rfl⟩
    · exact ⟨_, rfl, rfl, rfl⟩
  obtain ⟨w, hw, halloc, hpcbs⟩ := hpipe (0 ≤ toInt32 (m.mr 8) ∧ toInt32 (m.mr 8) < maxPipes)
    (toInt32 (m.mr 8)).toNat fun x => { x with writerPid := p }
  rw [sysClone, run_bind, run_get]
  simp only [hfree]
  rw [run_bind_of_ok (run_setPcb p _ r), run_bind_of_ok hv, run_bind_of_ok hw,
    run_bind_of_ok (run_get _), run_bind_of_ok (run_sys _ _ _), run_reply]
  exact ⟨_, rfl, halloc, hpcbs⟩

/-- The shell starts one more thread. -/
theorem crowd_next {n : ℕ} (h : Crowd r₀ n t) (hn : 5 < n)
    (hlast : n ≤ 157) :
    ∃ u, Step (tracked granting) someBoot t threadCall u ∧ (n ≠ 157 → Crowd r₀ (n + 1) u) := by
  have hfree := freePid_crowd h (by omega) (by omega)
  have hsender := sender_crowd h hn
  obtain ⟨slot, halloc, hpos, hroom⟩ := h.room
  obtain ⟨v, hv, hvalloc⟩ := run_cloneBody (p := n) (r := t.setPcb n fun _ =>
    Pcb.freshThread (t.pcbs 5)) halloc hpos (by omega) (by rw [Root.setPcb_self]; rfl) 5 threadCall
  have hvtable := (quiet_sameTable (tracked granting)).cloneBody 5 (by omega) threadCall _ _ _ hv
  obtain ⟨u, hu, hualloc, hupcbs⟩ := run_sysClone hfree hv
  have hstep : Step (tracked granting) someBoot t threadCall u := by
    rw [Step, handle, run_bind, run_get]
    simp only [senderPid_table, hsender]
    exact hu
  have heffect := cap_sysClone hfree (sender_ne_freePid hsender hfree) threadCall _ _ hu
  refine ⟨u, hstep, fun hne => ⟨fun q hq => ?_, ?_, ?_, ?_, ordered_step hstep h.ordered⟩⟩
  · have hlife : u.table q = v.table q := by rw [Root.table, hupcbs, Root.table]
    change (u.table q).active = _
    rw [hlife, hvtable, table_setPcb]
    by_cases hqn : q = n
    · subst hqn
      rw [Function.update_self]
      exact (decide_eq_true (Nat.lt_succ_self q)).symm
    · rw [Function.update_of_ne hqn]
      refine (h.active q hq).trans ?_
      congr 1
      exact propext ⟨fun hlt => by omega, fun hlt => by omega⟩
  · exact ⟨slot + 3, hualloc.trans hvalloc, by omega, by omega⟩
  · exact heffect.cspace.trans h.cspace
  · refine (heffect.kept r₀.shellConsole rfl fun hslot => ?_).trans h.console
    -- the slots of the threads start behind the console
    have hindex : 1 = threadSlot n := congrArg Place.index hslot
    unfold threadSlot at hindex
    omega

/-- A step with its history. -/
theorem cloneStep_of {sel4 : SeL4 K} {boot : Boot} {r r' : Root (K × CNodes)} {m : Message}
    (h : Step (tracked sel4) boot r m r') (v : Set (ℕ × ℕ)) :
    CloneStep sel4 boot (r, v) m (r', v ∪ Destroyed r m r') := ⟨h, rfl⟩

/-- A run of one message. -/
theorem guardedRun_of {sel4 : SeL4 K} {boot : Boot} {r r' : Root (K × CNodes)} {m : Message}
    (h : Step (tracked sel4) boot r m r') (hno : ¬ Takes r m) :
    Run (guarded (CloneStep sel4 boot) fun x m => ¬ Takes x.1 m) (r, ∅) [m]
      (r', ∅ ∪ Destroyed r m r') :=
  .single ⟨hno, cloneStep_of h ∅⟩

/-- The shell starts a number of threads. -/
theorem crowd_of_run (h : Crowd r₀ 6 r₀) (k : ℕ) (hk : k ≤ 151) : ∃ t v,
    Run (CloneStep granting someBoot) (r₀, ∅) (List.replicate k threadCall) (t, v) ∧
      Crowd r₀ (6 + k) t := by
  induction k with
  | zero => exact ⟨r₀, ∅, .nil, h⟩
  | succ k ih =>
    obtain ⟨t, v, hrun, hcrowd⟩ := ih (by omega)
    obtain ⟨u, hstep, hnext⟩ := crowd_next hcrowd (by omega) (by omega)
    refine ⟨u, v ∪ Destroyed t threadCall u, ?_, hnext (by omega)⟩
    rw [List.replicate_succ']
    exact .snoc hrun (cloneStep_of hstep v)

/-- The 152nd thread gets PID 157, and its endpoint takes the slot of the shell's console. -/
theorem console_destroyed (h : Crowd r₀ 6 r₀) (hconsole :
    r₀.StartCap (r₀.pcbs 5).cspace 1) : ∃ t v,
    Run (CloneStep granting someBoot) (r₀, ∅) (List.replicate 152 threadCall) (t, v) ∧
      ((r₀.pcbs 5).cspace, 1) ∈ v := by
  obtain ⟨t, v, hrun, hcrowd⟩ := crowd_of_run h 151 le_rfl
  obtain ⟨u, hstep, -⟩ := crowd_next hcrowd (by decide) (by decide)
  refine ⟨u, v ∪ Destroyed t threadCall u, ?_, .inr ?_⟩
  · rw [List.replicate_succ']
    exact .snoc hrun (cloneStep_of hstep v)
  have hmem := mem_destroyed hstep hcrowd.ordered ⟨rfl, rfl⟩ (sender_crowd hcrowd (by decide))
    (freePid_crowd hcrowd (by decide) (by decide))
  rw [hcrowd.cspace] at hmem
  refine hmem (.inl ⟨by decide, ?_⟩)
  obtain ⟨-, x, hx, hput⟩ := hconsole
  exact ⟨x, hcrowd.console.trans hx, hput⟩

/-- The small system with the contents of its CNodes, after boot. -/
def trackedRoot : Root (Unit × CNodes) :=
  (bootFrom (tracked granting) someBoot someDevices ((), CNodes.empty) ⟨1000, 4000, []⟩).get
    (by decide +kernel)

/-- The system has booted. -/
theorem bootedFrom_trackedRoot :
    BootedFrom (tracked granting) someBoot someDevices ((), CNodes.empty) trackedRoot :=
  bootedFrom_get _ _ _ rfl (by decide)

/-- After boot there is nobody but the five. -/
theorem crowd_trackedRoot : Crowd trackedRoot 6 trackedRoot where
  active := by decide +kernel
  room := by
    have halloc : trackedRoot.alloc.maxSlot = 4000 ∧ trackedRoot.alloc.freeSlots = [] ∧
        0 < trackedRoot.alloc.currentSlot ∧
        trackedRoot.alloc.currentSlot + 3 * (158 - 6) ≤ 4000 := by
      decide +kernel
    refine ⟨trackedRoot.alloc.currentSlot, ?_, halloc.2.2⟩
    rw [← halloc.1, ← halloc.2.1]
  cspace := rfl
  console := rfl
  ordered := ordered_booted bootedFrom_trackedRoot

/-- The shell has the console in slot 1. -/
theorem startCap_trackedRoot : trackedRoot.StartCap (trackedRoot.pcbs 5).cspace 1 := by
  have hcap : (trackedRoot.cap trackedRoot.shellConsole).map (fun x => (x.dest, x.badge)) =
      some (trackedRoot.shellConsole, some 5) := by
    decide +kernel
  obtain ⟨x, hx, hput⟩ := Option.map_eq_some_iff.mp hcap
  obtain ⟨hdest, hbadge⟩ := Prod.mk.inj hput
  refine ⟨by decide, x, hx, hdest, fun b hb => ?_⟩
  obtain rfl : 5 = b := Option.some.inj (hbadge.symm.trans hb)
  decide

/-- One thread finds its slot free. -/
def firstThread : Root (Unit × CNodes) :=
  (next (tracked granting) someBoot trackedRoot threadCall).get (by decide +kernel)

/-- The first thread takes no slot of the start. -/
theorem not_takes_trackedRoot : ¬ Takes trackedRoot threadCall := by
  rintro ⟨-, sender, p, -, hfree, hcap⟩
  have hsix := freePid_crowd crowd_trackedRoot (by decide) (by decide)
  obtain rfl := Option.some.inj (hsix.symm.trans hfree)
  rcases hcap with ⟨hstart, -⟩ | ⟨hpipe, -⟩
  · exact absurd hstart (by decide)
  · exact absurd hpipe (by decide)

theorem step_firstThread : Step (tracked granting) someBoot trackedRoot threadCall firstThread :=
  step_get _ _ _

theorem run_firstThread : Run (guarded (CloneStep granting someBoot) fun x m => ¬ Takes x.1 m)
    (trackedRoot, ∅) [threadCall] (firstThread, ∅ ∪ Destroyed trackedRoot threadCall firstThread) :=
  guardedRun_of step_firstThread not_takes_trackedRoot

theorem reserved_kept_firstThread :
    (∅ : Set (ℕ × ℕ)) ∪ Destroyed trackedRoot threadCall firstThread = ∅ :=
  (reserved_kept bootedFrom_trackedRoot run_firstThread).1

/-- After 152 threads the shell has lost its console. -/
theorem not_reserved_kept :
    BootedFrom (tracked granting) someBoot someDevices ((), CNodes.empty) trackedRoot ∧
    ∃ t v, Run (CloneStep granting someBoot) (trackedRoot, ∅) (List.replicate 152 threadCall)
        (t, v) ∧
      ((trackedRoot.pcbs 5).cspace, 1) ∈ v :=
  ⟨bootedFrom_trackedRoot, console_destroyed crowd_trackedRoot startCap_trackedRoot⟩

end PsychWard.Rootserver
