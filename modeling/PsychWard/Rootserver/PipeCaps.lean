import PsychWard.Common.Run
import PsychWard.Rootserver.Writers

/-!
# The capabilities of pipes

Who holds the capability of a pipe can read from it and write into it, and the index of a closed pipe
is used again. `SYS_PIPE` puts the capability into the slot that its caller names, `SYS_PIPE_CLOSE`
deletes slot 20 of the owner of the pipe. `Leaks` is the close that misses: the capability is in
another slot, or the owner is gone. `pipeCaps_of_run` says that without it a pipe that is not in use
has no capability anywhere.

Of the kernel the theorems only need which endpoint badges the slots hold; `CapSpace` lists how
capabilities come and go. No process has a capability of a CNode, so that only the rootserver's own
invocations move them.
-/

namespace PsychWard.Rootserver

open Program

variable {K : Type} {sel4 : SeL4 K} {boot : Boot} {badge : K → Place → Option ℕ}

/-- The slot a place denotes: the low bits of the index, as many as the lookup resolves. -/
def Place.slot (s : Place) : Place := { s with index := s.index % 2 ^ s.depth }

/-- `badge k s` is the badge of the capability in the slot `s`: deletion empties a slot, a successful
mint puts the badge it is given into its destination, a copy that of its source, and no other
invocation and no work of the block driver makes a badged capability. -/
structure CapSpace (sel4 : SeL4 K) (badge : K → Place → Option ℕ) : Prop where
  delete : ∀ k s t, t.slot = s.slot → badge (sel4.invoke k (.cnodeDelete s)).2 t = none
  mint : ∀ k d s b t x, badge (sel4.invoke k (.cnodeMint d s b)).2 t = some x →
    badge k t = some x ∨
      (sel4.invoke k (.cnodeMint d s b)).1 = .noError ∧ t.slot = d.slot ∧ x = b
  copy : ∀ k d s t x, badge (sel4.invoke k (.cnodeCopy d s)).2 t = some x →
    badge k t = some x ∨ badge k s = some x
  other : ∀ k inv t x, (∀ d s b, inv ≠ .cnodeMint d s b) → (∀ d s, inv ≠ .cnodeCopy d s) →
    badge (sel4.invoke k inv).2 t = some x → badge k t = some x
  callBlk : ∀ k name offset a k' t x, sel4.callBlk k name offset = some (a, k') →
    badge k' t = some x → badge k t = some x

/-- The slot in which `SYS_PIPE` has put the capability of each pipe: a history variable. -/
abbrev Places := ℕ → Place

/-- The history after a message. -/
def Places.after (v : Places) (r : Root K) (m : Message) (r' : Root K) : Places := fun i =>
  if Made r r' i then childSlot (r.pcbs (r.sender m)).cspace (m.mr 1) else v i

/-- A step of the rootserver together with its history. -/
def PlacedStep (sel4 : SeL4 K) (boot : Boot) (x : Root K × Places) (m : Message)
    (y : Root K × Places) : Prop :=
  Step sel4 boot x.1 m y.1 ∧ y.2 = x.2.after x.1 m y.1

/-- The message is a `SYS_PIPE_CLOSE` through the capability of pipe `i`. -/
def Message.Closes (m : Message) (i : ℕ) : Prop :=
  m.label = .other ∧ m.mr 0 = 25 ∧ i < maxPipes ∧ m.badge = pipeBaseBadge + i

/-- No slot holds a capability of pipe `i`. -/
def NoCap (badge : K → Place → Option ℕ) (r : Root K) (i : ℕ) : Prop :=
  ∀ s, badge r.kernel s ≠ some (pipeBaseBadge + i)

/-- The capability of a pipe in use is only in the slot its creator named, and a pipe that is not in
use has none. -/
def Confined (badge : K → Place → Option ℕ) (x : Root K × Places) : Prop :=
  ∀ i < maxPipes, ((x.1.pipes i).active = true →
      ∀ s, badge x.1.kernel s = some (pipeBaseBadge + i) → s.slot = (x.2 i).slot) ∧
    ((x.1.pipes i).active = false → NoCap badge x.1 i)

/-- The slot that closing a pipe deletes. -/
def Root.closedSlot (r : Root K) (i : ℕ) : Place :=
  childSlot (r.pcbs (r.pipes i).ownerPid).cspace pipeFdSlot

/-- A pipe in use is closed whose owner is gone, or whose capability is not in the slot that is
deleted. -/
def Leaks (x : Root K × Places) (m : Message) : Prop :=
  ∃ i, m.Closes i ∧ (x.1.pipes i).active = true ∧
    ¬ (x.1.table.Alive (x.1.pipes i).ownerPid ∧ (x.2 i).slot = (x.1.closedSlot i).slot)

/-! ## Everything but `SYS_PIPE` and `SYS_PIPE_CLOSE` -/

/-- No slot of the root CNode holds the capability of a pipe. -/
def RootClean (badge : K → Place → Option ℕ) (r : Root K) : Prop :=
  ∀ s b, s.depth = 64 → badge r.kernel s = some b → ¬ isPipeCall b

/-- No capability of a pipe appears. -/
def Fewer (badge : K → Place → Option ℕ) (k k' : K) : Prop :=
  ∀ s b, isPipeCall b → badge k' s = some b → badge k s = some b

theorem Fewer.trans {k k' k'' : K} (h : Fewer badge k k') (h' : Fewer badge k' k'') :
    Fewer badge k k'' := fun s b hb hs => h s b hb (h' s b hb hs)

/-- The slots of the rootserver stay clean. -/
theorem Fewer.rootClean {r t : Root K} (h : Fewer badge r.kernel t.kernel)
    (hr : RootClean badge r) : RootClean badge t :=
  fun s b hs ht hb => hr s b hs (h s b hb ht) hb

/-- The same pipes are in use, and no capability of a pipe appears. -/
def Shrinks (badge : K → Place → Option ℕ) (r t : Root K) : Prop :=
  (∀ i, (t.pipes i).active = (r.pipes i).active) ∧
    (RootClean badge r → Fewer badge r.kernel t.kernel)

/-- Only the kernel and the pipes in use count. -/
theorem shrinks_of_kernel {r t : Root K} (hkernel : t.kernel = r.kernel)
    (hpipes : ∀ i, (t.pipes i).active = (r.pipes i).active) : Shrinks badge r t :=
  ⟨hpipes, fun _ s b _ hs => by rw [← hkernel]; exact hs⟩

/-- A kernel call that neither mints nor copies adds no capability. -/
theorem fewer_invoke (hcaps : CapSpace sel4 badge) (k : K) {inv : Invocation}
    (hmint : ∀ d s b, inv ≠ .cnodeMint d s b) (hcopy : ∀ d s, inv ≠ .cnodeCopy d s) :
    Fewer badge k (sel4.invoke k inv).2 :=
  fun _ _ _ hs => hcaps.other _ _ _ _ hmint hcopy hs

/-- A plain invocation makes no capability of a pipe. -/
theorem fewer_plain (hcaps : CapSpace sel4 badge) {r : Root K} (hr : RootClean badge r)
    {inv : Invocation} (hplain : inv.Plain) : Fewer badge r.kernel (sel4.invoke r.kernel inv).2 := by
  intro s b hb hs
  by_cases hmint : ∃ d src x, inv = .cnodeMint d src x
  · obtain ⟨d, src, x, rfl⟩ := hmint
    rcases hcaps.mint _ _ _ _ _ _ hs with hold | ⟨-, -, rfl⟩
    · exact hold
    · exact absurd hb hplain
  · by_cases hcopy : ∃ d src, inv = .cnodeCopy d src
    · obtain ⟨d, src, rfl⟩ := hcopy
      rcases hcaps.copy _ _ _ _ _ hs with hold | hsrc
      · exact hold
      · exact absurd hb (hr src b hplain hsrc)
    · refine hcaps.other _ _ _ _ (fun d src x h => ?_) (fun d src h => ?_) hs
      · exact hmint ⟨d, src, x, h⟩
      · exact hcopy ⟨d, src, h⟩

/-- No message but `SYS_PIPE` and `SYS_PIPE_CLOSE` adds a capability of a pipe. -/
theorem steady_shrinks (hcaps : CapSpace sel4 badge) : Steady sel4 (Shrinks badge) where
  refl r := shrinks_of_kernel rfl fun _ => rfl
  trans r t u h h' := ⟨fun i => (h'.1 i).trans (h.1 i),
    fun hr => (h.2 hr).trans (h'.2 ((h.2 hr).rootClean hr))⟩
  mute r inv hplain _ := ⟨fun _ => rfl, fun hr => fewer_plain hcaps hr hplain⟩
  humble _ _ _ _ := shrinks_of_kernel rfl fun _ => rfl
  invoke r inv hplain := ⟨fun _ => rfl, fun hr => fewer_plain hcaps hr hplain⟩
  callBlk r _ _ _ _ hcall :=
    ⟨fun _ => rfl, fun _ _ _ _ hs => hcaps.callBlk _ _ _ _ _ _ _ hcall hs⟩
  alloc _ _ := shrinks_of_kernel rfl fun _ => rfl
  elfWindow _ _ := shrinks_of_kernel rfl fun _ => rfl
  ipcWindow _ _ := shrinks_of_kernel rfl fun _ => rfl
  cloneWindow _ _ := shrinks_of_kernel rfl fun _ => rfl
  pcb _ _ _ _ := shrinks_of_kernel rfl fun _ => rfl
  process _ _ _ := shrinks_of_kernel rfl fun _ => rfl
  drivers _ _ _ := shrinks_of_kernel rfl fun _ => rfl
  sleeper _ _ := shrinks_of_kernel rfl fun _ => rfl
  pipe r i f hf := by
    refine shrinks_of_kernel rfl fun j => ?_
    by_cases hj : j = i
    · subst hj
      rw [Root.setPipe_self, hf]
    · rw [Root.setPipe_of_ne r f hj]

/-! ## `SYS_PIPE` and `SYS_PIPE_CLOSE` -/

/-- `SYS_PIPE` makes one capability of a pipe at most: that of the pipe it sets up, in the slot it is
given. -/
theorem caps_sysPipe (hcaps : CapSpace sel4 badge) (sender : ℕ) (m : Message) (r : Root K) :
    Ends (sysPipe sel4 boot sender m) r fun _ t =>
      ∀ s b, isPipeCall b → badge t.kernel s = some b → badge r.kernel s = some b ∨
        ∃ i, r.freePipe = some i ∧ r.Grants sel4 boot sender m i ∧ b = pipeBaseBadge + i ∧
          s.slot = (childSlot (r.pcbs sender).cspace (m.mr 1)).slot := by
  have hreply (mrs : List ℤ) (u : Root K) : Ends (reply sel4 mrs) u fun _ t =>
      Fewer badge u.kernel t.kernel := by
    intro _ t hrun
    rw [run_reply] at hrun
    cases hrun
    exact fewer_invoke hcaps _ (fun _ _ _ h => by cases h) fun _ _ h => by cases h
  refine .bind (.get ?_)
  cases hfree : r.freePipe with
  | none => exact (hreply _ r).mono fun _ t ht s b hb hs => .inl (ht s b hb hs)
  | some i =>
    refine .bind fun _ t ht => .bind fun _ u hu => .bind fun err v hv => ?_
    cases ht
    cases hu
    cases hv
    have hmint (w : Root K) (hw : Fewer badge (sel4.invoke
        (sel4.invoke r.kernel (.cnodeDelete (childSlot (r.pcbs sender).cspace (m.mr 1)))).2
        (.cnodeMint (childSlot (r.pcbs sender).cspace (m.mr 1)) (boot.rootSlot boot.ep)
          (pipeBaseBadge + i))).2 w.kernel) (s : Place) (b : ℕ) (hb : isPipeCall b)
        (hs : badge w.kernel s = some b) : badge r.kernel s = some b ∨
          ∃ j, some i = some j ∧ r.Grants sel4 boot sender m j ∧ b = pipeBaseBadge + j ∧
            s.slot = (childSlot (r.pcbs sender).cspace (m.mr 1)).slot := by
      rcases hcaps.mint _ _ _ _ _ _ (hw s b hb hs) with hold | ⟨hok, hslot, rfl⟩
      · refine .inl (hcaps.other _ _ _ _ ?_ ?_ hold)
        · exact fun _ _ _ h => by cases h
        · exact fun _ _ h => by cases h
      · exact .inr ⟨i, rfl, hok, rfl, hslot⟩
    refine .ite (fun _ => (hreply _ _).mono fun _ w hw => hmint w hw) fun _ => ?_
    refine .seq (ends_setPipe i _ _) fun _ w hw => (hreply _ w).mono fun _ x hx => hmint x ?_
    rw [hw] at hx
    exact hx

/-- `SYS_PIPE_CLOSE` through pipe `i` marks it unused, makes no capability and empties the slot of
its owner, if there is one. -/
theorem caps_sysPipeClose (hcaps : CapSpace sel4 badge) {m : Message} {i : ℕ} (hi : i < maxPipes)
    (hbadge : m.badge = pipeBaseBadge + i) (r : Root K) :
    Ends (sysPipeClose sel4 m) r fun _ t =>
      t.pipes = (r.setPipe i fun p => { p with active := false }).pipes ∧
        Fewer badge r.kernel t.kernel ∧
        (r.table.Alive (r.pipes i).ownerPid → ∀ s, s.slot = (r.closedSlot i).slot →
          badge t.kernel s = none) := by
  have hfew (k : K) {inv : Invocation} (hmint : ∀ d s b, inv ≠ .cnodeMint d s b)
      (hcopy : ∀ d s, inv ≠ .cnodeCopy d s) (s : Place) (h : badge k s = none) :
      badge (sel4.invoke k inv).2 s = none := by
    by_contra hsome
    obtain ⟨x, hx⟩ := Option.ne_none_iff_exists'.mp hsome
    rw [hcaps.other _ _ _ _ hmint hcopy hx] at h
    cases h
  have hcall : isPipeCall m.badge := by
    rw [hbadge]
    exact ⟨Nat.le_add_right _ _, Nat.add_lt_add_left hi _⟩
  have hindex : m.badge - pipeBaseBadge = i := by omega
  rw [sysPipeClose, onlyIf, if_pos hcall, hindex]
  refine .seq (Q := fun _ t => t.pipes = (r.setPipe i fun p => { p with active := false }).pipes ∧
      Fewer badge r.kernel t.kernel ∧
      (r.table.Alive (r.pipes i).ownerPid → ∀ s, s.slot = (r.closedSlot i).slot →
        badge t.kernel s = none)) ?_ fun _ u hu => ?_
  · refine .seq (ends_setPipe i _ r) fun _ t ht => ?_
    subst ht
    refine .bind (.get ?_)
    rw [Root.setPipe_self, Root.setPipe_pcbs]
    refine .onlyIf (fun halive => ?_) fun hdead => ⟨rfl, fun _ _ _ hs => hs, fun halive => ?_⟩
    · refine .bind fun _ t ht => .pure ?_
      cases ht
      refine ⟨rfl, ?_, fun _ s hs => hcaps.delete _ _ _ hs⟩
      exact fewer_invoke hcaps _ (fun _ _ _ h => by cases h) fun _ _ h => by cases h
    · exact absurd ⟨halive.2.1, halive.2.2, halive.1⟩ hdead
  · intro _ t hrun
    rw [run_reply] at hrun
    cases hrun
    refine ⟨hu.1, hu.2.1.trans ?_, fun halive s hs => ?_⟩
    · exact fewer_invoke hcaps _ (fun _ _ _ h => by cases h) fun _ _ h => by cases h
    · refine hfew _ ?_ ?_ s (hu.2.2 halive s hs)
      · exact fun _ _ _ h => by cases h
      · exact fun _ _ h => by cases h

/-! ## Whole runs -/

/-- What every state keeps. -/
structure CapInv (badge : K → Place → Option ℕ) (x : Root K × Places) : Prop where
  clean : RootClean badge x.1
  place : ∀ i < maxPipes, ∀ s, badge x.1.kernel s = some (pipeBaseBadge + i) →
    (x.1.pipes i).active = true ∧ s.slot = (x.2 i).slot

/-- What the invariant says of the capabilities. -/
theorem confined_of_inv {x : Root K × Places} (h : CapInv badge x) : Confined badge x := by
  refine fun i hi => ⟨fun _ s hs => (h.place i hi s hs).2, fun hno s hs => ?_⟩
  have hactive := (h.place i hi s hs).1
  rw [hno] at hactive
  cases hactive

/-- The badge of a pipe is that of a pipe call. -/
theorem isPipeCall_base {i : ℕ} (hi : i < maxPipes) : isPipeCall (pipeBaseBadge + i) :=
  ⟨Nat.le_add_right _ _, Nat.add_lt_add_left hi _⟩

section
variable {r r' : Root K} {v : Places} {m : Message}

/-- Where no pipe was made the places are as before. -/
theorem after_of_not_made {i : ℕ} (h : ¬ Made r r' i) : v.after r m r' i = v i := if_neg h

/-- The pipes in use and the capabilities of pipes only become fewer. -/
theorem capInv_shrinks (h : CapInv badge (r, v)) (hstep : Shrinks badge r r') :
    CapInv badge (r', v.after r m r') := by
  have hfewer := hstep.2 h.clean
  refine ⟨hfewer.rootClean h.clean, fun i hi s hs => ?_⟩
  obtain ⟨hactive, hslot⟩ := h.place i hi s (hfewer s _ (isPipeCall_base hi) hs)
  refine ⟨by rw [hstep.1]; exact hactive, ?_⟩
  rw [show (r', v.after r m r').2 i = v i from after_of_not_made (not_made fun _ => hactive)]
  exact hslot

/-- `SYS_PIPE`. -/
theorem capInv_pipe (hcaps : CapSpace sel4 badge) (h : CapInv badge (r, v))
    (hstep : Step sel4 boot r m r') (hm : m.label = .other ∧ m.mr 0 = 20) :
    CapInv badge (r', v.after r m r') := by
  cases hsender : r.table.senderPid m.badge with
  | none =>
    rw [step_ignored hstep hsender]
    exact capInv_shrinks h ((steady_shrinks hcaps).refl r)
  | some sender =>
    have hrun := step_syscall hstep hsender hm.1
    rw [syscall, run_bind, run_get, hm.2] at hrun
    have hnew := caps_sysPipe hcaps sender m r _ _ hrun
    have hs : r.sender m = sender := by rw [Root.sender, hsender]; rfl
    refine ⟨fun s b hdepth hb hcall => ?_, fun i hi s hb => ?_⟩
    · rcases hnew s b hcall hb with hold | ⟨j, -, -, -, hslot⟩
      · exact h.clean s b hdepth hold hcall
      -- the CNode of a process is looked up with 8 bits
      · have hd : s.depth = 8 := congrArg Place.depth hslot
        omega
    · rcases pipes_sysPipe sender m r _ _ hrun with ⟨hfree, hpipes⟩ | ⟨j, hfree, hpipes⟩
      · rcases hnew s _ (isPipeCall_base hi) hb with hold | ⟨j, hfree', -⟩
        · obtain ⟨hactive, hslot⟩ := h.place i hi s hold
          refine ⟨by rw [hpipes]; exact hactive, ?_⟩
          rw [show (r', v.after r m r').2 i = v i from
            after_of_not_made (not_made fun _ => hactive)]
          exact hslot
        · rw [hfree] at hfree'
          cases hfree'
      · have hinactive := (freePipe_eq_some hfree).1
        rcases hnew s _ (isPipeCall_base hi) hb with hold | ⟨j', hfree', hgrant, heq, hslot⟩
        -- the capability of another pipe
        · obtain ⟨hactive, hslot⟩ := h.place i hi s hold
          have hij : i ≠ j := by
            rintro rfl
            rw [hinactive] at hactive
            cases hactive
          refine ⟨?_, ?_⟩
          · rw [hpipes, Function.update_of_ne hij]
            exact hactive
          · rw [show (r', v.after r m r').2 i = v i from
              after_of_not_made (not_made fun _ => hactive)]
            exact hslot
        -- the capability of the pipe that is set up
        · obtain rfl : j = j' := Option.some.inj (hfree.symm.trans hfree')
          obtain rfl : i = j := by omega
          have hactive : (r'.pipes i).active = true := by
            rw [hpipes, Function.update_self]
            exact decide_eq_true hgrant
          refine ⟨hactive, hslot.trans ?_⟩
          rw [show (r', v.after r m r').2 i = childSlot (r.pcbs (r.sender m)).cspace (m.mr 1) from
            if_pos ⟨hinactive, hactive⟩, hs]

/-- `SYS_PIPE_CLOSE` through the capability of a pipe. -/
theorem capInv_close (hcaps : CapSpace sel4 badge) (h : CapInv badge (r, v))
    (hstep : Step sel4 boot r m r') {i : ℕ} (hm : m.Closes i) (hno : ¬ Leaks (r, v) m) :
    CapInv badge (r', v.after r m r') ∧ (r'.pipes i).active = false := by
  obtain ⟨hl, hnumber, hi, hbadge⟩ := hm
  have hcall : isPipeCall m.badge := hbadge ▸ isPipeCall_base hi
  have hsender : r.table.senderPid m.badge = some 0 := if_neg fun hno => hno.2 hcall
  have hrun := step_syscall hstep hsender hl
  rw [syscall, run_bind, run_get, hnumber] at hrun
  obtain ⟨hpipes, hfewer, hempty⟩ := caps_sysPipeClose hcaps hi hbadge r _ _ hrun
  have hclosed : (r'.pipes i).active = false := by rw [hpipes, Root.setPipe_self]
  refine ⟨⟨hfewer.rootClean h.clean, fun j hj s hs => ?_⟩, hclosed⟩
  obtain ⟨hactive, hslot⟩ := h.place j hj s (hfewer s _ (isPipeCall_base hj) hs)
  by_cases hji : j = i
  · subst hji
    have hkept : r.table.Alive (r.pipes j).ownerPid ∧ (v j).slot = (r.closedSlot j).slot := by
      by_contra hleak
      exact hno ⟨j, ⟨hl, hnumber, hi, hbadge⟩, hactive, hleak⟩
    rw [hempty hkept.1 s (hslot.trans hkept.2)] at hs
    cases hs
  · refine ⟨?_, ?_⟩
    · rw [hpipes, Root.setPipe_of_ne r _ hji]
      exact hactive
    · rw [show (r', v.after r m r').2 j = v j from after_of_not_made (not_made fun _ => hactive)]
      exact hslot

/-- A `SYS_PIPE_CLOSE` that does not come through a pipe changes nothing. -/
theorem shrinks_close (hcaps : CapSpace sel4 badge) (hstep : Step sel4 boot r m r')
    (hm : m.label = .other ∧ m.mr 0 = 25) (hno : ∀ i, ¬ m.Closes i) : Shrinks badge r r' := by
  have hR := steady_shrinks hcaps
  have hcall : ¬ isPipeCall m.badge := by
    intro hcall
    have hlt : m.badge < pipeBaseBadge + maxPipes := hcall.2
    have hle : pipeBaseBadge ≤ m.badge := hcall.1
    exact hno (m.badge - pipeBaseBadge) ⟨hm.1, hm.2, by omega, by omega⟩
  cases hsender : r.table.senderPid m.badge with
  | none =>
    rw [step_ignored hstep hsender]
    exact hR.refl r
  | some sender =>
    have hrun := step_syscall hstep hsender hm.1
    rw [syscall, run_bind, run_get, hm.2] at hrun
    have hends : Ends (sysPipeClose sel4 m) r fun _ t => Shrinks badge r t := by
      rw [sysPipeClose, onlyIf, if_neg hcall]
      exact Keeps.bind hR.toFrame (.pure hR.toFrame _) (fun _ => hR.reply _) r
    exact hends _ _ hrun

/-- Every step that leaks nothing keeps the invariant. -/
theorem capInv_step (hcaps : CapSpace sel4 badge) {x y : Root K × Places} (h : CapInv badge x)
    (hstep : PlacedStep sel4 boot x m y) (hno : ¬ Leaks x m) : CapInv badge y := by
  obtain ⟨hrun, hplaces⟩ := hstep
  rw [show y = (y.1, x.2.after x.1 m y.1) from Prod.ext rfl hplaces]
  by_cases hpipe : m.label = .other ∧ m.mr 0 = 20
  · exact capInv_pipe hcaps h hrun hpipe
  · by_cases hclose : ∃ i, m.Closes i
    · obtain ⟨i, hi⟩ := hclose
      exact (capInv_close hcaps h hrun hi hno).1
    · refine capInv_shrinks h ?_
      by_cases hm : m.label = .other ∧ m.mr 0 = 25
      · exact shrinks_close hcaps hrun hm (not_exists.mp hclose)
      · refine (steady_shrinks hcaps).step hrun fun hno => ?_
        rcases hno with ⟨hl, hnumber | hnumber⟩
        · exact hpipe ⟨hl, hnumber⟩
        · exact hm ⟨hl, hnumber⟩

end

/-- After boot no pipe has a capability. -/
theorem capInv_booted (hcaps : CapSpace sel4 badge) {dev : Devices} {k : K} {r : Root K}
    (hboot : BootedFrom sel4 boot dev k r) (hclean : ∀ s b, badge k s = some b → ¬ isPipeCall b)
    (v : Places) : CapInv badge (r, v) := by
  obtain ⟨alloc, -, -, hrun⟩ := hboot
  have hshrinks := (steady_shrinks hcaps).bootProcesses dev _ _ _ hrun
  have hfewer : Fewer badge k r.kernel := hshrinks.2 fun s b _ hs => hclean s b hs
  refine ⟨fun s b _ hs hb => hclean s b (hfewer s b hb hs) hb, fun i hi s hs => ?_⟩
  have hcall := isPipeCall_base hi
  exact absurd hcall (hclean s _ (hfewer s _ hcall hs))

/-- In every run from a boot without capabilities of pipes in which no close leaks, such a capability
is only in the slot that the creator of its pipe named, for as long as the pipe is in use; and when
one more `SYS_PIPE_CLOSE` is handled, no slot holds a capability of the pipe it closes. -/
theorem pipeCaps_of_run (hcaps : CapSpace sel4 badge) {dev : Devices} {k : K} {r : Root K}
    (hboot : BootedFrom sel4 boot dev k r) (hclean : ∀ s b, badge k s = some b → ¬ isPipeCall b)
    {v v' : Places} {es : List Message} {r' : Root K}
    (hrun : Run (guarded (PlacedStep sel4 boot) fun x m => ¬ Leaks x m) (r, v) es (r', v')) :
    Confined badge (r', v') ∧ ∀ m t i, Step sel4 boot r' m t → ¬ Leaks (r', v') m → m.Closes i →
      (t.pipes i).active = false ∧ NoCap badge t i := by
  have hinv : CapInv badge (r', v') :=
    Run.invariant (fun x m z hx hstep => capInv_step hcaps hx hstep.2 hstep.1) hrun
      (capInv_booted hcaps hboot hclean v)
  refine ⟨confined_of_inv hinv, fun m t i hstep hno hm => ?_⟩
  obtain ⟨hinv', hclosed⟩ := capInv_close hcaps hinv hstep hm hno
  exact ⟨hclosed, (confined_of_inv hinv' i hm.2.2.1).2 hclosed⟩

/-! The shell sets up a pipe and closes it again. -/

/-- A kernel that keeps the badges of capabilities and grants every request, except that a mint and a
copy need an empty slot. -/
def keeping : SeL4 (Place → Option ℕ) where
  invoke k
    | .cnodeMint d _ b =>
      if k d.slot = none then (.noError, Function.update k d.slot (some b)) else (.deleteFirst, k)
    | .cnodeCopy d s =>
      if k d.slot = none then (.noError, Function.update k d.slot (k s.slot)) else (.deleteFirst, k)
    | .cnodeDelete s => (.noError, Function.update k s.slot none)
    | _ => (.noError, k)
  callBlk _ _ _ := none
  pageAddress _ _ := 0
  rtc _ := 0

/-- The badge such a kernel keeps for a slot. -/
def keptBadge (k : Place → Option ℕ) (s : Place) : Option ℕ := k s.slot

/-- The CNodes of the small kernel behave. -/
theorem capSpace_keeping : CapSpace keeping keptBadge where
  delete k s t h := by
    change Function.update k s.slot none t.slot = none
    rw [h, Function.update_self]
  mint k d s b t x h := by
    by_cases hempty : k d.slot = none
    · have hmint : keeping.invoke k (.cnodeMint d s b) =
          (.noError, Function.update k d.slot (some b)) := if_pos hempty
      rw [hmint] at h ⊢
      by_cases ht : t.slot = d.slot
      · simp only [keptBadge, ht, Function.update_self] at h
        exact .inr ⟨rfl, ht, (Option.some.inj h).symm⟩
      · simp only [keptBadge, Function.update_of_ne ht] at h
        exact .inl h
    · have hmint : keeping.invoke k (.cnodeMint d s b) = (.deleteFirst, k) := if_neg hempty
      rw [hmint] at h
      exact .inl h
  copy k d s t x h := by
    by_cases hempty : k d.slot = none
    · have hcopy : keeping.invoke k (.cnodeCopy d s) =
          (.noError, Function.update k d.slot (k s.slot)) := if_pos hempty
      rw [hcopy] at h
      by_cases ht : t.slot = d.slot
      · simp only [keptBadge, ht, Function.update_self] at h
        exact .inr h
      · simp only [keptBadge, Function.update_of_ne ht] at h
        exact .inl h
    · have hcopy : keeping.invoke k (.cnodeCopy d s) = (.deleteFirst, k) := if_neg hempty
      rw [hcopy] at h
      exact .inl h
  other k inv t x hmint hcopy h := by
    cases inv with
    | cnodeMint d s b => exact absurd rfl (hmint d s b)
    | cnodeCopy d s => exact absurd rfl (hcopy d s)
    | cnodeDelete s =>
      change Function.update k s.slot none t.slot = some x at h
      by_cases ht : t.slot = s.slot
      · rw [ht, Function.update_self] at h
        cases h
      · rw [Function.update_of_ne ht] at h
        exact h
    | _ => exact h
  callBlk _ _ _ _ _ _ _ hcall _ := by cases hcall

/-- The small system over this kernel. -/
def keptRoot : Root (Place → Option ℕ) :=
  (bootFrom keeping someBoot someDevices (fun _ => none) ⟨1000, 4000, []⟩).get (by decide +kernel)

/-- `SYS_PIPE` of the shell for a slot. -/
def pipeCallAt (slot : ℕ) : Message := { badge := 5, mr := fun n => if n = 0 then 20 else slot }

/-- `SYS_PIPE_CLOSE` through pipe 0. -/
def closeCall : Message := { badge := 1000, mr := fun _ => 25 }

/-- The pipe is set up with its capability in a slot. -/
def setUp20 : Root (Place → Option ℕ) :=
  (next keeping someBoot keptRoot (pipeCallAt 20)).get (by decide +kernel)

/-- The state after `SYS_PIPE` with slot 21. -/
def setUp21 : Root (Place → Option ℕ) :=
  (next keeping someBoot keptRoot (pipeCallAt 21)).get (by decide +kernel)

/-- The pipe is closed. -/
def closed20 : Root (Place → Option ℕ) :=
  (next keeping someBoot setUp20 closeCall).get (by decide +kernel)

/-- The pipe of slot 21 has been closed. -/
def closed21 : Root (Place → Option ℕ) :=
  (next keeping someBoot setUp21 closeCall).get (by decide +kernel)

theorem step_setUp20 : Step keeping someBoot keptRoot (pipeCallAt 20) setUp20 := step_get _ _ _

theorem step_setUp21 : Step keeping someBoot keptRoot (pipeCallAt 21) setUp21 := step_get _ _ _

theorem step_closed20 : Step keeping someBoot setUp20 closeCall closed20 := step_get _ _ _

theorem step_closed21 : Step keeping someBoot setUp21 closeCall closed21 := step_get _ _ _

/-- A step with its history. -/
theorem placedStep_of {r r' : Root K} {m : Message} (h : Step sel4 boot r m r') (v : Places) :
    PlacedStep sel4 boot (r, v) m (r', v.after r m r') := ⟨h, rfl⟩

/-- The system has booted. -/
theorem bootedFrom_keptRoot : BootedFrom keeping someBoot someDevices (fun _ => none) keptRoot :=
  bootedFrom_get _ _ _ rfl (by decide)

/-- The call closes pipe 0. -/
theorem closes_closeCall : closeCall.Closes 0 := ⟨rfl, rfl, by decide, rfl⟩

/-- The close of a pipe whose owner has its capability in slot 20. -/
theorem not_leaks_of {r : Root K} {v : Places} {m : Message} {i : ℕ} (hm : m.Closes i)
    (halive : r.table.Alive (r.pipes i).ownerPid) (hslot : v i = r.closedSlot i) :
    ¬ Leaks (r, v) m := by
  rintro ⟨j, hj, -, hleak⟩
  obtain rfl : j = i := Nat.add_left_cancel (hj.2.2.2.symm.trans hm.2.2.2)
  exact hleak ⟨halive, congrArg Place.slot hslot⟩

/-- The owner of the pipe is alive. -/
theorem alive_setUp20 : setUp20.table.Alive (setUp20.pipes 0).ownerPid := by decide +kernel

/-- The history after `SYS_PIPE`; nothing has been placed before. -/
def places20 : Places :=
  Places.after (fun _ => ⟨0, 0, 0⟩) keptRoot (pipeCallAt 20) setUp20

/-- The capability lies in the slot that will be cleared. -/
theorem places20_zero : places20 0 = setUp20.closedSlot 0 := by decide +kernel

/-- So closing leaks nothing. -/
theorem not_leaks_setUp20 : ¬ Leaks (setUp20, places20) closeCall :=
  not_leaks_of closes_closeCall alive_setUp20 places20_zero

/-- Nor does `SYS_PIPE`. -/
theorem not_leaks_pipe {x : Root K × Places} {slot : ℕ} : ¬ Leaks x (pipeCallAt slot) := by
  rintro ⟨i, ⟨-, hnumber, -⟩, -⟩
  cases hnumber

/-- The run that makes the pipe. -/
theorem run_setUp20 :
    Run (guarded (PlacedStep keeping someBoot) fun x m => ¬ Leaks x m)
      (keptRoot, fun _ => ⟨0, 0, 0⟩) [pipeCallAt 20] (setUp20, places20) :=
  .single ⟨not_leaks_pipe, placedStep_of step_setUp20 _⟩

/-- Empty CNodes have no capability of a pipe. -/
theorem clean_none : ∀ s b, keptBadge (fun _ => none) s = some b → ¬ isPipeCall b :=
  fun _ _ h => by cases h

/-- The pipe is in use. -/
theorem active_setUp20 : (setUp20.pipes 0).active = true := by decide +kernel

/-- With its capability in slot 20 the pipe is closed without a trace. -/
theorem pipeCaps_of_run_closed20 :
    (setUp20.pipes 0).active = true ∧ (closed20.pipes 0).active = false ∧
      NoCap keptBadge closed20 0 := by
  have h := pipeCaps_of_run capSpace_keeping bootedFrom_keptRoot clean_none run_setUp20
  exact ⟨active_setUp20, h.2 closeCall closed20 0 step_closed20 not_leaks_setUp20
    closes_closeCall⟩

/-- The capability in slot 21 outlives its pipe. -/
theorem cap_closed21 :
    keptBadge closed21.kernel (childSlot (closed21.pcbs 5).cspace 21) = some 1000 := by
  decide +kernel

/-- With its capability in slot 21 the shell keeps it after the close. -/
theorem not_noCap_closed21 :
    CapSpace keeping keptBadge ∧
    BootedFrom keeping someBoot someDevices (fun _ => none) keptRoot ∧
    Run (Step keeping someBoot) keptRoot [pipeCallAt 21, closeCall] closed21 ∧
    closeCall.Closes 0 ∧ ¬ NoCap keptBadge closed21 0 :=
  ⟨capSpace_keeping, bootedFrom_keptRoot, .cons step_setUp21 (.single step_closed21),
    closes_closeCall, fun h => h _ cap_closed21⟩

end PsychWard.Rootserver
