import PsychWard.Rootserver.Dealings
import PsychWard.Rootserver.OneHolder
import Mathlib.Algebra.Order.BigOperators.Group.Finset

/-!
# Who is answered

`Serving` lists what a message can do for the callers that are parked, with the fields that are
answered and the slots that are emptied. `step_serving` says that the rootserver does nothing else,
but for a call that blocks (`step_parks`) and for `SYS_PIPE` (`step_opens`). Where every slot has one
holder at most, no message empties the slot of a parked caller without answering it, but the end of a
thread whose creator is gone (`Serving.spares`).
-/

namespace PsychWard.Rootserver

open Program

/-- The field of a pipe, of a process that runs, or of the rootserver itself. -/
def Root.Live {K : Type} (r : Root K) : Field → Prop
  | .reader i => i < maxPipes
  | .waiter p => p < 256 ∧ (r.pcbs p).active = true
  | .drivers => True

/-- What a message means to the callers that are parked: the fields that are answered and with what,
the slots that are emptied beside theirs, the PID at which a process has been started, and the
process table after it. -/
inductive Serving {K : Type} (boot : Boot) (r : Root K) (m : Message) :
    List (Field × List ℤ) → List ℕ → Option ℕ → Table → Prop
  | silent : Serving boot r m [] [] none r.table
  /-- `SYS_EXEC` or `SYS_CLONE`. -/
  | start (p : ℕ) (name : CString) (isDriver : ℤ)
      (hm : m.label = .other ∧ (m.mr 0 = 100 ∨ m.mr 0 = 101)) (hfree : r.table.freePid = some p) :
      Serving boot r m [] [] (some p) (r.table.start p name isDriver)
  /-- A write into a pipe, or `SYS_PIPE_WR_CLOSE`. -/
  | reader (i : ℕ) (value : ℤ) (hm : m.label = .other ∧ (m.mr 0 = 8 ∨ m.mr 0 = 24))
      (hi : i < maxPipes) (hcap : (r.pipes i).readerReplyCap ≠ 0) :
      Serving boot r m [(.reader i, [value])] [] none r.table
  /-- The report of the last driver. -/
  | drivers (hm : m.label = .other ∧ m.mr 0 = 109) (hcap : r.driverReadyWaitReply ≠ 0) :
      Serving boot r m [(.drivers, [])] [] none r.table
  /-- `SYS_SHM_GET`, which may have to put copies back. -/
  | window (D : List ℕ) (hm : m.label = .other ∧ m.mr 0 = 107)
      (hspare : Balanced allPids [] r → ¬ r.Repeats m →
        ∀ f, r.Live f → r.saved f ≠ 0 → r.saved f ∉ D) :
      Serving boot r m [] D none r.table
  | exit (p : ℕ) (hm : (m.label = .other ∧ m.mr 0 = 103) ∧ r.table.senderPid m.badge = some p)
      (hp : r.table.Alive p) :
      Serving boot r m (r.readersOf p (List.range maxPipes) ++ r.table.waitersOf p pids)
        ((r.pcbs p).objects boot) none ((r.table.wakeAll p).stop p)
  /-- The end of a process that is not started again. -/
  | recover (p : ℕ) (hm : r.table.Recovers m p) (hp : r.table.Alive p) :
      Serving boot r m (r.table.waitersOf p pids) (r.pcbs p).spoils none ((r.table.wakeAll p).stop p)
  /-- The recovery of a critical component. -/
  | respawn (p n : ℕ) (name : CString) (isDriver : ℤ) (hm : r.table.Recovers m p)
      (hp : r.table.Alive p) (hcrit : 0 < (r.table p).isDriver ∨ (r.table p).name = shellName)
      (hfree : r.table.freePid = some n) :
      Serving boot r m (r.table.waitersOf p pids) (r.pcbs p).spoils (some n)
        (((r.table.wakeAll p).start n name isDriver).stop p)
  /-- `SYS_KILL` of a process that is not critical. -/
  | kill (p : ℕ) (hm : m.label = .other ∧ m.mr 0 = 102) (harg : toInt32 (m.mr 1) = p)
      (hp : r.table.Alive p) (hrole : ¬ 0 < (r.table p).isDriver ∧ (r.table p).name ≠ shellName) :
      Serving boot r m [] ((r.pcbs p).objects boot) none (r.table.stop p)
  /-- `SYS_THREAD_EXIT` of a thread: its creator is answered, if it waits. -/
  | threadExit (p q : ℕ) (hm : m.label = .other ∧ m.mr 0 = 105) (hp : r.table.Alive p)
      (hbadge : p = m.badge % 2 ^ 16 ∧ q = m.badge / 2 ^ 16 % 2 ^ 16)
      (hname : (r.table p).name.take 12 = shellThreadName) :
      Serving boot r m (r.readersOf p (List.range maxPipes) ++
          r.table.waitersOf p (if 0 < q ∧ q < 256 then [q] else []))
        (r.pcbs p).capTracker none ((r.table.wakeOne p q).stop p)
  /-- `SYS_THREAD_EXIT` of something else. -/
  | threadWake (p q : ℕ) (hm : m.label = .other ∧ m.mr 0 = 105) (hp : r.table.Alive p)
      (hbadge : p = m.badge % 2 ^ 16 ∧ q = m.badge / 2 ^ 16 % 2 ^ 16) :
      Serving boot r m (r.readersOf p (List.range maxPipes) ++
          r.table.waitersOf p (if 0 < q ∧ q < 256 then [q] else [])) [] none (r.table.wakeOne p q)

variable {K : Type} {sel4 : SeL4 K} {boot : Boot} {r t : Root (K × List Invocation)}

/-! ## One holder for every slot -/

section
variable {K : Type} {r : Root K} {f g : Field} {p : ℕ}

/-- Two terms of a sum that are at least 1. -/
theorem two_le_sum {P : Finset ℕ} (g : ℕ → ℕ) {i j : ℕ} (hi : i ∈ P) (hj : j ∈ P) (hne : i ≠ j)
    (hgi : 1 ≤ g i) (hgj : 1 ≤ g j) : 2 ≤ ∑ x ∈ P, g x := by
  have hle : ∑ x ∈ {i, j}, g x ≤ ∑ x ∈ P, g x :=
    Finset.sum_le_sum_of_subset (by simp [Finset.insert_subset_iff, hi, hj])
  rw [Finset.sum_pair hne] at hle
  omega

/-- One term of a sum that is at least 1. -/
theorem one_le_sum {P : Finset ℕ} (g : ℕ → ℕ) {i : ℕ} (hi : i ∈ P) (hg : 1 ≤ g i) :
    1 ≤ ∑ x ∈ P, g x :=
  hg.trans (Finset.single_le_sum (fun _ _ => Nat.zero_le _) hi)

/-- An element of a list is counted. -/
theorem one_le_count {l : List ℕ} {s : ℕ} (h : s ∈ l) : 1 ≤ l.count s := List.count_pos_iff.mpr h

/-- The places of a slot that the blocks, the pipes and the wait for the drivers make up. -/
theorem Balanced.places (h : Balanced allPids [] r) {s : ℕ} (hs : s ≠ 0) :
    ∑ p ∈ allPids, (r.pcbs p).held.count s + (∑ i ∈ Finset.range maxPipes,
      [(r.pipes i).readerReplyCap].count s + [r.driverReadyWaitReply].count s) ≤ 1 := by
  have honce := h.once s hs
  rw [Root.inUse] at honce
  split at honce <;> omega

/-- The capability saved for a live waiter is among the slots that its PCB holds. -/
theorem mem_held_of_saved {p : ℕ} (h : (r.pcbs p).active = true) :
    r.saved (.waiter p) ∈ (r.pcbs p).held := by
  rw [Pcb.held, if_pos h]
  exact List.mem_append_right _ List.mem_cons_self

/-- How often the slot is in the places of the field's kind. -/
def Root.kindCount (r : Root K) (s : ℕ) : Field → ℕ
  | .reader _ => ∑ i ∈ Finset.range maxPipes, [(r.pipes i).readerReplyCap].count s
  | .waiter _ => ∑ p ∈ allPids, (r.pcbs p).held.count s
  | .drivers => [r.driverReadyWaitReply].count s

/-- A field that is live counts its own slot. -/
theorem one_le_kindCount (hf : r.Live f) : 1 ≤ r.kindCount (r.saved f) f := by
  cases f with
  | reader i =>
    exact one_le_sum _ (Finset.mem_range.mpr hf) (one_le_count (List.mem_singleton_self _))
  | waiter p =>
    exact one_le_sum _ (Finset.mem_range.mpr hf.1) (one_le_count (mem_held_of_saved hf.2))
  | drivers => exact one_le_count (List.mem_singleton_self _)

/-- Two fields do not have the same slot. -/
theorem Balanced.saved_injOn (h : Balanced allPids [] r) (hf : r.Live f) (hg : r.Live g)
    (hs : r.saved f ≠ 0) (heq : r.saved g = r.saved f) : g = f := by
  have hplaces := h.places hs
  have hfone := one_le_kindCount hf
  have hgone := one_le_kindCount hg
  rw [heq] at hgone
  by_contra hne
  -- two fields of one kind are two places of the same sum
  cases f with
  | reader i =>
    cases g with
    | reader j =>
      have htwo := two_le_sum (fun i' => [(r.pipes i').readerReplyCap].count (r.saved (.reader i)))
        (Finset.mem_range.mpr hg) (Finset.mem_range.mpr hf)
        (fun hij => hne (congrArg Field.reader hij)) (one_le_count (List.mem_singleton.mpr heq.symm))
        (one_le_count (List.mem_singleton_self _))
      omega
    | waiter q => simp only [Root.kindCount] at hfone hgone; omega
    | drivers => simp only [Root.kindCount] at hfone hgone; omega
  | waiter p =>
    cases g with
    | reader j => simp only [Root.kindCount] at hfone hgone; omega
    | waiter q =>
      have hq : q ∈ allPids := Finset.mem_range.mpr hg.1
      have htwo := two_le_sum (fun p' => (r.pcbs p').held.count (r.saved (.waiter p))) hq
        (Finset.mem_range.mpr hf.1)
        (fun hij => hne (congrArg Field.waiter hij)) (one_le_count (heq ▸ mem_held_of_saved hg.2))
        (one_le_count (mem_held_of_saved hf.2))
      omega
    | drivers => simp only [Root.kindCount] at hfone hgone; omega
  | drivers =>
    cases g with
    | reader j => simp only [Root.kindCount] at hfone hgone; omega
    | waiter q => simp only [Root.kindCount] at hfone hgone; omega
    | drivers => exact hne rfl

/-- A field does not have a slot that a process tracks, or maps the shared window through. -/
theorem Balanced.saved_notMem (h : Balanced allPids [] r) (hf : r.Live f) (hs : r.saved f ≠ 0)
    (hp : p < 256) (hactive : (r.pcbs p).active = true) :
    r.saved f ∉ (r.pcbs p).capTracker ++ (r.pcbs p).window := by
  intro hmem
  have hplaces := h.places hs
  have hfone := one_le_kindCount hf
  have hcount := one_le_count hmem
  have hheld := Pcb.count_held hactive (r.saved f)
  rw [List.count_append] at hcount
  have hpall : p ∈ allPids := Finset.mem_range.mpr hp
  have hone := one_le_sum (fun q => (r.pcbs q).held.count (r.saved f)) hpall (by omega)
  cases f with
  | reader i => simp only [Root.kindCount] at hfone; omega
  | drivers => simp only [Root.kindCount] at hfone; omega
  | waiter q =>
    rcases eq_or_ne q p with rfl | hqp
    · -- the block has the slot twice
      have hown := one_le_count (List.mem_singleton_self (r.saved (.waiter q)))
      have hle := Finset.single_le_sum (f := fun q' => (r.pcbs q').held.count (r.saved (.waiter q)))
        (fun _ _ => Nat.zero_le _) hpall
      simp only [Root.saved] at hown hheld hle hplaces hcount
      omega
    · have htwo := two_le_sum (fun q' => (r.pcbs q').held.count (r.saved (.waiter q))) hpall
        (Finset.mem_range.mpr hf.1) hqp.symm (by omega) (one_le_count (mem_held_of_saved hf.2))
      omega

end

/-! ## The handlers -/

/-- The message has done one of the things of `Serving`. -/
def Handled (boot : Boot) (r : Root (K × List Invocation)) (m : Message)
    (t : Root (K × List Invocation)) : Prop :=
  ∃ L D started, Serving boot r m L D started t.table ∧ Clears boot L D started t.table r t

section
variable {m : Message} {sender : ℕ}

/-- What a handler did in one piece is what its message is served by. -/
theorem Serving.handled {L : List (Field × List ℤ)} {D : List ℕ} {started : Option ℕ} {T : Table}
    (h : Serving boot r m L D started T) (h' : Clears boot L D started T r t) :
    Handled boot r m t := by
  obtain rfl := h'.table
  exact ⟨L, D, started, h, h'⟩

/-- A call that neither answers a saved capability nor deletes one. -/
theorem Unmoved.handled (h : Unmoved boot r t) : Handled boot r m t :=
  Serving.silent.handled h.clears

/-- A handler that moves no saved capability serves its message. -/
theorem handled_of_unmoved {p : RootM (K × List Invocation) PUnit} (h : Keeps (Unmoved boot) p) :
    Ends p r fun _ t => Handled boot r m t :=
  (h r).mono fun _ _ ht => ht.handled

/-- An answer to the caller uses no saved capability. -/
theorem handled_reply (mrs : List ℤ) :
    Ends (reply (recorded sel4) mrs) r fun _ t => Handled boot r m t :=
  handled_of_unmoved ((hushed_unmoved sel4 boot).reply mrs)

/-- A handler that is followed by the answer to its caller. -/
theorem handled_thenReply {α : Type} {p : RootM (K × List Invocation) α} {mrs : α → List ℤ}
    (h : Ends p r fun _ t => Handled boot r m t) :
    Ends (p >>= fun a => reply (recorded sel4) (mrs a)) r fun _ t => Handled boot r m t := by
  refine .seq h fun a t ⟨L, D, started, hserving, hclears⟩ => ?_
  refine ((hushed_unmoved sel4 boot).reply (mrs a) t).mono fun _ u hu => ?_
  exact hserving.handled (hclears.unmoved hu)

/-- `generic_recover_process` answers the waiters of a process and ends it, and may start it
again. -/
theorem handled_genericRecoverProcess {p : ℕ} (hm : r.table.Recovers m p) :
    Ends (genericRecoverProcess (recorded sel4) boot p) r fun _ t => Handled boot r m t := by
  refine .bind (.get (.ite (fun _ => .pure (Serving.silent.handled (.refl boot r))) fun h => ?_))
  have hp : r.table.Alive p := by
    refine ⟨?_, by omega, by omega⟩
    have hactive : ¬ (r.pcbs p).active = false := (not_or.mp (not_or.mp h).2).2
    exact Bool.not_eq_false _ ▸ hactive
  refine .seq (clears_tearDown p _ r) fun _ t ht => ?_
  -- what the respawn, if any, has made of the state
  refine .seq (Q := fun _ u => u = t ∨ ∃ n, ((r.pcbs p).Critical ∧ r.table.freePid = some n) ∧
    Clears boot [] [] (some n) (t.table.start n ((r.table p).name.take 31) (r.table p).isDriver)
      t u) ?_ ?_
  · refine .onlyIf (fun hcrit => ?_) fun _ => .inl rfl
    refine .seq (clears_spawnProcess _ _ _ t) fun pid u hu => .pure ?_
    refine hu.imp And.right fun ⟨n, hfree, _, hclears⟩ => ⟨n, ⟨hcrit, ?_⟩, hclears⟩
    rwa [ht.table, Table.freePid_wakeAll] at hfree
  · intro _ u hu
    refine (clears_stop boot p u).mono fun _ v hv => ?_
    rcases hu with rfl | ⟨n, ⟨hcrit, hfree⟩, hu⟩
    · refine (Serving.recover p hm hp).handled ?_
      have hstop := ht.mum hv.toMum
      rwa [hv.table, ht.table] at hstop
    · have hstart := ht.append hu (.inr rfl) fun a ha => absurd ha List.not_mem_nil
      have hstop := hstart.mum hv.toMum
      rw [hv.table, hu.table, ht.table, List.append_nil, List.append_nil] at hstop
      exact (Serving.respawn p n _ _ hm hp hcrit hfree).handled hstop

/-- A fatal fault answers those who wait for the sender, and deletes its objects. -/
theorem handled_fatalFault (hm : r.table.Recovers m sender) :
    Ends (fatalFault (recorded sel4) boot sender) r fun _ t => Handled boot r m t :=
  .onlyIf (fun _ => handled_genericRecoverProcess hm) fun _ => Serving.silent.handled (.refl boot r)

/-- So does `SYS_RECOVER`. -/
theorem handled_sysRecover (hm : m.label = .other ∧ m.mr 0 = 117) :
    Ends (sysRecover (recorded sel4) boot m) r fun _ t => Handled boot r m t := by
  refine .bind (.get ?_)
  cases hfind : pids.find? fun i => (r.pcbs i).active && (r.pcbs i).name = m.driverName with
  | none => exact handled_reply _
  | some p => exact handled_thenReply (handled_genericRecoverProcess (.recover hm hfind))

/-- `SYS_KILL` recovers a critical target, which answers those who wait for it. Of any other it deletes
the objects and answers nobody. -/
theorem handled_sysKill (hm : m.label = .other ∧ m.mr 0 = 102) :
    Ends (sysKill (recorded sel4) boot m) r fun _ t => Handled boot r m t := by
  refine .bind (.get ?_)
  dsimp only
  generalize hx : toInt32 (m.mr 1) = x
  refine .ite (fun h => ?_) fun _ => handled_reply _
  obtain ⟨p, rfl⟩ : ∃ p : ℕ, x = p := ⟨x.toNat, (Int.toNat_of_nonneg h.1.le).symm⟩
  have halive : r.table.Alive p := ⟨h.2.2, by omega, by omega⟩
  refine .ite (fun _ => ?_) fun hcrit => ?_
  · exact handled_thenReply (handled_genericRecoverProcess (.kill hm hx))
  · refine .seq ((hushed_unmoved sel4 boot).stopThread _ r) fun _ t ht => ?_
    refine .seq (clears_deleteProcess p (r.pcbs p) t) fun _ u hu => ?_
    refine ((hushed_unmoved sel4 boot).reply _ u).mono fun _ v hv => ?_
    rw [ht.table] at hu
    exact (Serving.kill p hm hx halive (not_or.mp hcrit)).handled ((ht.then hu).unmoved hv)

/-! The slots that a block holds are read after the waiters have been answered. -/

/-- The blocks hold the same slots. -/
def SameSlots (boot : Boot) (r t : Root K) : Prop := ∀ p,
  (t.pcbs p).objects boot = (r.pcbs p).objects boot ∧ (t.pcbs p).capTracker = (r.pcbs p).capTracker

/-- That all objects and tracked slots are the same composes. -/
theorem frame_sameSlots (boot : Boot) : Frame (SameSlots (K := K) boot) where
  refl _ _ := ⟨rfl, rfl⟩
  trans _ _ _ h h' p := ⟨(h' p).1.trans (h p).1, (h' p).2.trans (h p).2⟩

/-- The slots stand in the PCBs. -/
theorem sameSlots_of_pcbs {r t : Root K} (h : t.pcbs = r.pcbs) : SameSlots boot r t :=
  fun p => by rw [h]; exact ⟨rfl, rfl⟩

/-- The kernel changes no PCB. -/
theorem sameSlots_sys {sel4 : SeL4 K} (inv : Invocation) : Keeps (SameSlots boot) (sys sel4 inv) := by
  intro r _ t hrun
  cases hrun
  exact sameSlots_of_pcbs rfl

/-- An answer changes no slot. -/
theorem sameSlots_answer {sel4 : SeL4 K} (cap : ℕ) (mrs : List ℤ) :
    Keeps (SameSlots boot) (answer sel4 boot cap mrs) :=
  have hF := frame_sameSlots (K := K) boot
  .bind hF (sameSlots_sys _) fun _ => .bind hF (sameSlots_sys _) fun _ => .pure hF _

/-- A slot goes back to the pool; the PCBs stay. -/
theorem sameSlots_freeSlot (slot : ℕ) : Keeps (SameSlots boot) (freeSlot slot : RootM K PUnit) :=
  .modify fun _ => sameSlots_of_pcbs rfl

/-- Pipes hold no slots of a process. -/
theorem sameSlots_setPipe (i : ℕ) (f : Pipe → Pipe) :
    Keeps (SameSlots boot) (setPipe i f : RootM K PUnit) :=
  .modify fun _ => sameSlots_of_pcbs rfl

/-- A change of a PCB that leaves its objects and tracked slots alone. -/
theorem sameSlots_setPcb (p : ℕ) {f : Pcb → Pcb}
    (hf : ∀ x, (f x).objects boot = x.objects boot ∧ (f x).capTracker = x.capTracker) :
    Keeps (SameSlots boot) (setPcb p f : RootM K PUnit) := by
  refine .modify fun r q => ?_
  by_cases hq : q = p
  · subst hq
    rw [Root.setPcb_self]
    exact hf _
  · rw [Root.setPcb_of_ne r f hq]
    exact ⟨rfl, rfl⟩

/-- Waking changes whom a process waits for, no slot. -/
theorem sameSlots_wake {sel4 : SeL4 K} (p i : ℕ) :
    Keeps (SameSlots boot) (wake sel4 boot p i) := by
  have hF := frame_sameSlots (K := K) boot
  refine .bind hF (.get hF) fun r => .onlyIf hF ?_
  refine .bind hF (sameSlots_setPcb i fun _ => ⟨rfl, rfl⟩) fun _ => ?_
  refine .bind hF (sameSlots_answer _ _) fun _ => .bind hF (sameSlots_freeSlot _) fun _ => ?_
  exact sameSlots_setPcb i fun _ => ⟨rfl, rfl⟩

/-- Closing the pipes of a process changes no PCB. -/
theorem sameSlots_closePipesOf {sel4 : SeL4 K} (p : ℕ) :
    Keeps (SameSlots boot) (closePipesOf sel4 boot p) := by
  have hF := frame_sameSlots (K := K) boot
  refine .forM hF fun i _ => .bind hF (.get hF) fun r => .onlyIf hF ?_
  refine .bind hF (sameSlots_setPipe i _) fun _ => .bind hF (.get hF) fun t => .onlyIf hF ?_
  refine .bind hF (.get hF) fun u => .bind hF (sameSlots_answer _ _) fun _ => ?_
  exact .bind hF (sameSlots_freeSlot _) fun _ => sameSlots_setPipe i _

/-- The readers of pipes are other callers than the processes that wait. -/
theorem disjoint_readers_waiters {r : Root K} {T : Table} {p : ℕ} {l l' : List ℕ} :
    ∀ a ∈ T.waitersOf p l, a.1 ∉ (r.readersOf p l').map Prod.fst := by
  intro a ha hmem
  obtain ⟨q, -, -, rfl⟩ := mem_waitersOf.mp ha
  obtain ⟨b, hb, heq⟩ := List.mem_map.mp hmem
  obtain ⟨i, -, -, rfl⟩ := mem_readersOf.mp hb
  cases heq

/-- `SYS_EXIT` tells EOF to the readers of its sender and 0 to those who wait for it. -/
theorem handled_sysExit (hm : m.label = .other ∧ m.mr 0 = 103)
    (hsender : r.table.senderPid m.badge = some sender) :
    Ends (sysExit (recorded sel4) boot sender) r fun _ t => Handled boot r m t := by
  refine .onlyIf (fun hpos => ?_) fun _ => Serving.silent.handled (.refl boot r)
  refine .seq ((clears_closePipesOf sender r).and (sameSlots_closePipesOf sender r))
    fun _ t ⟨ht, hslots⟩ => ?_
  refine .seq ((clears_wakes (clears_wake sender) nodup_pids t).and
    (Keeps.forM (frame_sameSlots boot) (fun i _ => sameSlots_wake sender i) t))
    fun _ u ⟨hu, hslots'⟩ => .bind (.get ?_)
  rw [ht.table] at hu
  have hanswered := ht.append hu (.inl rfl) disjoint_readers_waiters
  refine .seq ((hushed_unmoved sel4 boot).stopThread _ u) fun _ v hv => ?_
  refine (clears_deleteProcess sender (u.pcbs sender) v).mono fun _ w hw => ?_
  rw [hv.table, hu.table, (hslots' sender).1, (hslots sender).1] at hw
  refine (Serving.exit sender ⟨hm, hsender⟩ (Table.alive_of_senderPid hsender hpos)).handled ?_
  exact (hanswered.unmoved hv).empty hw

/-- Releasing a thread deletes what it tracked and answers nobody. -/
theorem clears_releaseThread (p : ℕ) (pcb : Pcb) (r : Root (K × List Invocation)) :
    Ends (releaseThread (recorded sel4) boot p pcb) r fun _ t =>
      Clears boot [] pcb.capTracker none (r.table.stop p) r t := by
  have hq := hushed_unmoved sel4 boot
  have hunmap : Keeps (Unmoved boot)
      (sys (recorded sel4) (.pageUnmap pcb.threadIpcFrame) : RootM (K × List Invocation) _) :=
    hq.sys _ trivial trivial
  refine .seq (hq.sys (.tcbSuspend pcb.tcb) trivial trivial r) fun _ t ht => ?_
  refine .seq (Keeps.onlyIf hq.toFrame (.bind hq.toFrame hunmap fun _ => .pure hq.toFrame _) t)
    fun _ u hu => ?_
  refine .seq (clears_forM clears_releaseCap pcb.capTracker u) fun _ v hv => ?_
  rw [List.flatMap_singleton', hu.table, ht.table] at hv
  refine (clears_setPcb boot p _ v ?_).mono fun _ w hw => ?_
  · rfl
  · have hstop := (ht.then (hu.then hv)).mum hw.toMum
    rw [hw.table] at hstop
    rw [← hv.table]
    exact hstop

/-- `SYS_THREAD_EXIT` looks at one waiter. -/
theorem clears_wakeOne (p q : ℕ) (r : Root (K × List Invocation)) :
    Ends (onlyIf (0 < q ∧ q < 256) (wake (recorded sel4) boot p q)) r fun _ t =>
      Clears boot (r.table.waitersOf p (if 0 < q ∧ q < 256 then [q] else [])) [] none
        (r.table.wakeOne p q) r t := by
  refine .onlyIf (fun h => ?_) fun h => ?_
  · rw [if_pos h, Table.wakeOne, if_pos h]
    exact clears_wake p q r
  · rw [if_neg h, Table.wakeOne, if_neg h]
    exact .refl boot r

/-- `SYS_THREAD_EXIT` answers the parent of the thread, if that waits for it, and the readers of its
pipes. -/
theorem handled_sysThreadExit (hm : m.label = .other ∧ m.mr 0 = 105) :
    Ends (sysThreadExit (recorded sel4) boot m) r fun _ t => Handled boot r m t := by
  refine .bind (.get (.onlyIf (fun h => ?_) fun _ => Serving.silent.handled (.refl boot r)))
  have halive : r.table.Alive (m.badge % 2 ^ 16) := ⟨h.2.2, h.1, h.2.1⟩
  refine .seq ((clears_closePipesOf _ r).and (sameSlots_closePipesOf _ r)) fun _ t ⟨ht, hslots⟩ => ?_
  refine .seq ((clears_wakeOne _ _ t).and
    (Keeps.onlyIf (frame_sameSlots boot) (sameSlots_wake _ _) t)) fun _ u ⟨hu, hslots'⟩ =>
      .bind (.get ?_)
  rw [ht.table] at hu
  have hanswered := ht.append hu (.inl rfl) disjoint_readers_waiters
  refine .onlyIf (fun hthread => ?_) fun _ => ?_
  · refine (clears_releaseThread _ _ u).mono fun _ v hv => ?_
    rw [hu.table, (hslots' _).2, (hslots _).2] at hv
    refine (Serving.threadExit _ _ hm halive ⟨rfl, rfl⟩ ?_).handled (hanswered.empty hv)
    have hname : (u.table (m.badge % 2 ^ 16)).name.take 12 = shellThreadName := hthread
    rwa [hu.table, Table.wakeOne_name] at hname
  · exact (Serving.threadWake _ _ hm halive ⟨rfl, rfl⟩).handled hanswered

/-! Pipes. -/

/-- The badge of a pipe call names a pipe of the table. -/
theorem lt_maxPipes {badge : ℕ} (h : isPipeCall badge) : badge - pipeBaseBadge < maxPipes := by
  have hlt := h.2
  have hle := h.1
  omega

/-- `SYS_PUTS` to a pipe answers its parked reader, and no one else. -/
theorem handled_sysPuts (hm : m.label = .other ∧ m.mr 0 = 8) :
    Ends (sysPuts (recorded sel4) boot m) r fun _ t => Handled boot r m t := by
  refine handled_thenReply (.onlyIf (fun hpipe => ?_) fun _ => Serving.silent.handled (.refl boot r))
  have hput (x : Pipe) : (m.bytes.foldl Pipe.put x).readerReplyCap = x.readerReplyCap := by
    rw [Flow.foldl_put]
  refine .seq (unmoved_setPipe boot _ hput r) fun _ t ht => .bind (.get ?_)
  cases (t.pipes (m.badge - pipeBaseBadge)).buffer with
  | nil => exact .pure ht.handled
  | cons byte rest =>
    refine .onlyIf (fun hcap => ?_) fun _ => ht.handled
    refine .seq (unmoved_setPipe boot _ ?hf t) fun _ u hu => ?_
    case hf => exact fun _ => rfl
    refine (clears_answerReader _ _ u).mono fun _ v hv => ?_
    have hru := (hushed_unmoved sel4 boot).trans _ _ _ ht hu
    rw [hru.table] at hv
    refine (Serving.reader _ _ ⟨hm.1, .inl hm.2⟩ (lt_maxPipes hpipe) ?_).handled (hru.then hv)
    exact fun hzero => hcap ((congrFun ht.saved (.reader _)).trans hzero)

/-- `SYS_PIPE_WR_CLOSE` answers the parked reader of the pipe. -/
theorem handled_sysPipeWrClose (hm : m.label = .other ∧ m.mr 0 = 24) :
    Ends (sysPipeWrClose (recorded sel4) boot m) r fun _ t => Handled boot r m t := by
  refine handled_thenReply (.onlyIf (fun hpipe => ?_) fun _ => Serving.silent.handled (.refl boot r))
  refine (clears_closeWriter _ r).mono fun _ t ht => ?_
  by_cases hcap : (r.pipes (m.badge - pipeBaseBadge)).readerReplyCap ≠ 0
  · rw [if_pos hcap] at ht
    exact (Serving.reader _ 0 ⟨hm.1, .inr hm.2⟩ (lt_maxPipes hpipe) hcap).handled ht
  · rw [if_neg hcap] at ht
    exact Serving.silent.handled ht

/-- A read of a pipe that has a byte or is at its end. -/
theorem handled_sysRead
    (hno : isPipeCall m.badge → ¬ r.Delays m (.reader (m.badge - pipeBaseBadge))) :
    Ends (sysRead (recorded sel4) boot m) r fun _ t => Handled boot r m t := by
  refine .ite (fun hpipe => .bind (.get ?_)) fun _ => handled_reply _
  cases hb : (r.pipes (m.badge - pipeBaseBadge)).buffer with
  | cons byte rest =>
    refine handled_thenReply (Ends.mono (unmoved_setPipe boot _ ?hf r) fun _ t ht => ht.handled)
    case hf => exact fun _ => rfl
  | nil =>
    refine .ite (fun _ => handled_reply _) fun heof => absurd ⟨hb, ?_⟩ (hno hpipe)
    simpa using heof

/-- `SYS_PIPE` without a free pipe does nothing. -/
theorem handled_sysPipe (hno : r.freePipe = none) :
    Ends (sysPipe (recorded sel4) boot sender m) r fun _ t => Handled boot r m t := by
  refine .bind (.get ?_)
  rw [hno]
  exact handled_reply _

/-- `SYS_PIPE_CLOSE` answers nobody: a parked reader stays parked. -/
theorem handled_sysPipeClose :
    Ends (sysPipeClose (recorded sel4) m) r fun _ t => Handled boot r m t := by
  have hq := hushed_unmoved sel4 boot
  refine handled_thenReply (handled_of_unmoved (.onlyIf hq.toFrame ?_))
  refine .bind hq.toFrame (unmoved_setPipe boot _ ?hf) fun _ => ?_
  case hf => exact fun _ => rfl
  refine .bind hq.toFrame (.get hq.toFrame) fun _ => .onlyIf hq.toFrame ?_
  exact .bind hq.toFrame (hq.sys (.cnodeDelete (childSlot _ pipeFdSlot)) trivial rfl)
    fun _ => .pure hq.toFrame _

/-! Processes and drivers. -/

/-- A change of what no field and no process has. -/
theorem unmoved_modify (boot : Boot) {f : Root (K × List Invocation) → Root (K × List Invocation)}
    (hf : ∀ r, f r = { r with
      driverReady := (f r).driverReady, sleeperWaiting := (f r).sleeperWaiting }) :
    Keeps (Unmoved boot) (modify f : RootM (K × List Invocation) PUnit) := by
  refine .modify fun r => ?_
  rw [hf]
  refine ⟨⟨.refl boot r, funext fun g => ?_⟩, rfl⟩
  cases g <;> rfl

/-- `SYS_SLEEP` moves no saved capability that is modelled. -/
theorem handled_sysSleep :
    Ends (sysSleep (recorded sel4) boot) r fun _ t => Handled boot r m t := by
  have hq := hushed_unmoved sel4 boot
  refine handled_of_unmoved (.bind hq.toFrame (.get hq.toFrame) fun _ => .ite (hq.reply _) ?_)
  refine .bind hq.toFrame (hq.sys (.cnodeSaveCaller _) trivial trivial) fun _ => ?_
  exact .ite (unmoved_modify boot fun _ => rfl) (hq.reply _)

/-- A wait that is answered at once. -/
theorem handled_sysWait (hno : ¬ r.Delays m (.waiter sender)) :
    Ends (sysWait (recorded sel4) boot sender m) r fun _ t => Handled boot r m t :=
  .bind (.get (.ite (fun h => absurd h hno) fun _ => handled_reply _))

/-- `SYS_EXEC` starts a process or reports that it did not. -/
theorem handled_sysExec (hm : m.label = .other ∧ m.mr 0 = 100) :
    Ends (sysExec (recorded sel4) boot m) r fun _ t => Handled boot r m t := by
  have hq := hushed_unmoved sel4 boot
  refine .seq (hq.loadLoop _ _ _ r) fun loaded t ht => ?_
  have hreply (mrs : List ℤ) : Ends (reply (recorded sel4) mrs) t fun _ u => Handled boot r m u :=
    (hq.reply mrs t).mono fun _ u hu => (hq.trans _ _ _ ht hu).handled
  match loaded with
  | none => exact hreply _
  | some [] => exact hreply _
  | some (b :: bs) =>
    refine .ite (fun _ => ?_) fun _ => hreply _
    refine .seq (clears_spawnProcess _ _ _ t) fun pid u hu => ?_
    refine (hq.reply _ u).mono fun _ v hv => ?_
    rcases hu with ⟨-, rfl⟩ | ⟨p, hfree, -, hu⟩
    · exact (hq.trans _ _ _ ht hv).handled
    · rw [ht.table] at hfree hu
      exact (Serving.start p _ _ ⟨hm.1, .inl hm.2⟩ hfree).handled ((ht.then hu).unmoved hv)

/-- `SYS_CLONE` starts a thread or reports that it did not. -/
theorem handled_sysClone (hm : m.label = .other ∧ m.mr 0 = 101) :
    Ends (sysClone (recorded sel4) boot sender m) r fun _ t => Handled boot r m t := by
  refine .bind (.get ?_)
  cases hfree : r.freePid with
  | none => exact handled_reply _
  | some p =>
    have hq := hushed_unmoved sel4 boot
    refine .seq (clears_renew boot p rfl r) fun _ t ht => ?_
    refine .seq (hq.cloneBody sender (Root.freePid_eq_some hfree).2.2 m t) fun _ u hu => ?_
    refine .seq (Keeps.onlyIf hq.toFrame (unmoved_setPipe boot _ ?hf) u) fun _ v hv => .bind (.get ?_)
    case hf => exact fun _ => rfl
    refine .seq (hq.sys (.tcbResume _) trivial trivial v) fun _ w hw => ?_
    refine (hq.reply _ w).mono fun _ x hx => ?_
    refine (Serving.start p shellThreadName 0 ⟨hm.1, .inr hm.2⟩ hfree).handled ?_
    exact (((ht.unmoved hu).unmoved hv).unmoved hw).unmoved hx

/-- The copies that a refused `SYS_SHM_GET` puts back are in no field. -/
theorem spare_window {u : Root (K × List Invocation)} {pid : ℕ}
    (hu : Balanced allPids [] u) (hpid : pid < 256) (hactive : (u.pcbs pid).active = true)
    (hshm : (u.pcbs pid).hasShm = true) {f : Field} (hf : u.Live f) (hs : u.saved f ≠ 0) :
    u.saved f ∉ (List.range 4).flatMap fun i => [(u.pcbs pid).shmCopies i].filter (· ≠ 0) := by
  intro hmem
  refine hu.saved_notMem hf hs hpid hactive (List.mem_append_right _ ?_)
  obtain ⟨i, hi, hcopy⟩ := List.mem_flatMap.mp hmem
  rw [Pcb.window, if_pos hshm]
  exact List.mem_map.mpr ⟨i, hi, (List.mem_singleton.mp (List.mem_of_mem_filter hcopy)).symm⟩

/-- `SYS_SHM_GET` deletes the copies of a window that was not opened. -/
theorem handled_sysShmGet (hm : m.label = .other ∧ m.mr 0 = 107) :
    Ends (sysShmGet (recorded sel4) boot m) r fun _ t => Handled boot r m t := by
  have hq := hushed_unmoved sel4 boot
  refine .bind (.get (.ite (fun _ => handled_reply _) fun hpid => ?_))
  have hfirst := Balanced.first_of_not_repeats (r := r) (m := m)
  generalize (toInt32 m.badge).toNat = pid at hpid hfirst ⊢
  have hp : pid < 256 := by omega
  refine .seq ((hq.setPcb pid ?hf r).and (ends_setPcb pid _ r)) fun _ t ⟨ht, hset⟩ => ?_
  case hf => exact fun _ => ⟨rfl, rfl⟩
  have hbalanced (vaddr : ℕ) : Ends (shareFrames (recorded sel4) boot pid vaddr [0, 1, 2, 3]) t
      fun _ u => Balanced allPids [] t → Balanced allPids [] u :=
    fun _ _ hrun hbal => Neutral.shareFrames pid vaddr _ [] t hbal _ _ hrun
  refine .seq (((hq.shareFrames pid _ _ t).and (sameShm_shareFrames pid _ _ t)).and (hbalanced _))
    fun _ u ⟨⟨hu, hshm⟩, hbal⟩ => ?_
  have hru := hq.trans _ _ _ ht hu
  refine .ite (fun _ => .bind (.get ?_)) fun _ => .bind (.get ?_)
  · refine .seq (hq.sys (.pageGetAddress _) trivial trivial u) fun _ v hv => ?_
    exact (hq.reply _ v).mono fun _ w hw => (hq.trans _ _ _ hru (hq.trans _ _ _ hv hw)).handled
  · refine .seq (clears_forM (fun i => clears_dropCopy _) _ u) fun _ v hv => ?_
    refine .seq (hq.setPcb _ ?hg v) fun _ w hw => ?_
    case hg => exact fun _ => ⟨rfl, rfl⟩
    refine (hq.reply _ w).mono fun _ x hx => ?_
    rw [hru.table] at hv
    refine (Serving.window _ hm ?_).handled (hru.then ((hv.unmoved hw).unmoved hx))
    intro hr hrepeat f hf hs
    have hopen := hbal (hset ▸ hr.openWindow (Finset.mem_range.mpr hp) (hfirst hrepeat hm) _)
    have hblock : (t.pcbs pid).active = true ∧ (t.pcbs pid).hasShm = true := by
      rw [hset, Root.setPcb_self]
      exact ⟨Bool.not_eq_false _ ▸ (not_or.mp (not_or.mp hpid).2).2, rfl⟩
    have hlive : u.Live f := by
      cases f with
      | waiter q => exact ⟨hf.1, (congrArg (fun T => (T q).active) hru.table).trans hf.2⟩
      | reader i => exact hf
      | drivers => exact hf
    rw [← hru.saved] at hs ⊢
    exact spare_window hopen hp ((hshm pid).1.trans hblock.1) ((hshm pid).2.trans hblock.2) hlive hs

/-- `SYS_DRIVER_READY` answers the waiter for the drivers when the last one is ready. -/
theorem handled_sysDriverReady (hm : m.label = .other ∧ m.mr 0 = 109) :
    Ends (sysDriverReady (recorded sel4) boot sender) r fun _ t => Handled boot r m t := by
  refine .bind (.get (handled_thenReply ?_))
  refine .onlyIf (fun _ => ?_) fun _ => Serving.silent.handled (.refl boot r)
  refine .seq (unmoved_modify boot (fun _ => rfl) r) fun _ t ht => .bind (.get ?_)
  refine .onlyIf (fun hready => ?_) fun _ => ht.handled
  refine .seq (deals_answer _ _ t) fun _ u ⟨hdeals, hsaved, hsame⟩ => ?_
  refine .seq ((hushed_unmoved sel4 boot).freeSlot _ u) fun _ v hv => .modify ?_
  have hcap : r.saved .drivers ≠ 0 := by
    rw [← ht.saved]
    exact hready.2
  refine (Serving.drivers hm hcap).handled (ht.then (clears_one ?_ ?_ ?_))
  · have hall := hdeals.trans hv.deals
    rwa [List.append_nil] at hall
  · funext f
    cases f with
    | drivers => rfl
    | reader i => exact congrFun (hv.saved.trans hsaved) (.reader i)
    | waiter q => exact congrFun (hv.saved.trans hsaved) (.waiter q)
  · exact hv.table.trans (hsame.trans ht.table)

/-- A wait for drivers that are all ready. -/
theorem handled_sysWaitAllDriversReady (hno : ¬ r.Delays m .drivers) :
    Ends (sysWaitAllDriversReady (recorded sel4) boot) r fun _ t => Handled boot r m t := by
  refine .bind (.get (.ite (fun _ => handled_reply _) fun hready => absurd ?_ hno))
  exact Bool.eq_false_iff.mpr hready

end

/-! ## Every message -/

section
variable {r : Root K} {m : Message} {f : Field} {sender : ℕ}

/-- A caller is parked where its call uses a field and is not answered at once. -/
theorem parks_eq_some : r.parks m = some f ↔ r.uses m = some f ∧ r.Delays m f := by
  rw [Root.parks, Option.filter_eq_some_iff, decide_eq_true_eq]

/-- A call that uses a field and does not park is answered at once. -/
theorem not_delays_of_parks (h : r.parks m = none) (huses : r.uses m = some f) :
    ¬ r.Delays m f := by
  intro hdelays
  rw [parks_eq_some.mpr ⟨huses, hdelays⟩] at h
  cases h

/-- A read of a pipe uses the field of its reader. -/
theorem uses_read (hsender : r.senderPid m.badge = some sender) (hm : m.label = .other ∧ m.mr 0 = 6)
    (hpipe : isPipeCall m.badge) : r.uses m = some (.reader (m.badge - pipeBaseBadge)) := by
  simp [Root.uses, hsender, hm, hpipe]

/-- A wait uses the field of its sender. -/
theorem uses_wait (hsender : r.senderPid m.badge = some sender)
    (hm : m.label = .other ∧ m.mr 0 = 106) : r.uses m = some (.waiter sender) := by
  simp [Root.uses, hsender, hm]

/-- A wait for the drivers uses the one field for it. -/
theorem uses_drivers (hsender : r.senderPid m.badge = some sender)
    (hm : m.label = .other ∧ m.mr 0 = 110) : r.uses m = some .drivers := by
  simp [Root.uses, hsender, hm]

/-- A message about a field is one of the three system calls. -/
theorem uses_cases (h : r.uses m = some f) :
    ∃ sender, r.senderPid m.badge = some sender ∧ m.label = .other ∧
      (m.mr 0 = 6 ∧ isPipeCall m.badge ∧ f = .reader (m.badge - pipeBaseBadge) ∨
        m.mr 0 = 106 ∧ f = .waiter sender ∨ m.mr 0 = 110 ∧ f = .drivers) := by
  rw [Root.uses] at h
  cases hsender : r.senderPid m.badge with
  | none => rw [hsender] at h; cases h
  | some sender =>
    rw [hsender] at h
    refine ⟨sender, rfl, ?_⟩
    by_cases hl : m.label = .other
    · simp only [hl, ne_eq, not_true_eq_false, if_false] at h
      split at h
      · rename_i hread
        cases h
        exact ⟨hl, .inl ⟨hread.1, hread.2, rfl⟩⟩
      · split at h
        · cases h
          exact ⟨hl, .inr (.inl ⟨‹_›, rfl⟩)⟩
        · split at h
          · cases h
            exact ⟨hl, .inr (.inr ⟨‹_›, rfl⟩)⟩
          · cases h
    · simp only [ne_eq, hl, not_false_eq_true, if_true] at h
      cases h

/-- `SYS_PIPE` clears the field of a pipe. -/
theorem reader_of_opens (h : r.opens m = some f) : ∃ i, f = .reader i := by
  rw [Root.opens] at h
  split at h
  · obtain ⟨i, -, rfl⟩ := Option.map_eq_some_iff.mp h
    exact ⟨i, rfl⟩
  · cases h

/-- `SYS_PIPE` that opens nothing found no free pipe. -/
theorem freePipe_of_opens (h : r.opens m = none) (hsender : r.senderPid m.badge = some sender)
    (hm : m.label = .other ∧ m.mr 0 = 20) : r.freePipe = none := by
  rw [Root.opens, if_pos ⟨by rw [hsender]; rfl, hm⟩] at h
  exact Option.map_eq_none_iff.mp h

end

section
variable {m : Message} {sender : ℕ} {f : Field}

/-- Every system call that neither parks nor opens a pipe is served. -/
theorem handled_syscall (hl : m.label = .other) (hsender : r.table.senderPid m.badge = some sender)
    (hparks : r.parks m = none) (hopens : r.opens m = none) :
    Ends (syscall (recorded sel4) boot sender m) r fun _ t => Handled boot r m t := by
  refine .bind (.get ?_)
  split
  · exact handled_reply _
  · exact handled_reply _
  · exact handled_sysSleep
  · exact handled_reply _
  · exact handled_sysRead fun hpipe => not_delays_of_parks hparks (uses_read hsender ⟨hl, ‹_›⟩ hpipe)
  · exact handled_reply _
  · exact handled_sysPuts ⟨hl, ‹_›⟩
  · exact handled_sysPipe (freePipe_of_opens hopens hsender ⟨hl, ‹_›⟩)
  · exact handled_sysPipeWrClose ⟨hl, ‹_›⟩
  · exact handled_sysPipeClose
  · exact handled_reply _
  · exact handled_sysExec ⟨hl, ‹_›⟩
  · exact handled_sysClone ⟨hl, ‹_›⟩
  · exact handled_sysKill ⟨hl, ‹_›⟩
  · exact handled_sysExit ⟨hl, ‹_›⟩ hsender
  · exact handled_reply _
  · exact handled_sysThreadExit ⟨hl, ‹_›⟩
  · exact handled_sysWait (not_delays_of_parks hparks (uses_wait hsender ⟨hl, ‹_›⟩))
  · exact handled_sysShmGet ⟨hl, ‹_›⟩
  · exact handled_reply _
  · exact handled_sysDriverReady ⟨hl, ‹_›⟩
  · exact handled_sysWaitAllDriversReady
      (not_delays_of_parks hparks (uses_drivers hsender ⟨hl, ‹_›⟩))
  · exact handled_sysRecover ⟨hl, ‹_›⟩
  · exact handled_reply _

/-- A message that parks nobody and opens no pipe is one of those of `Serving`. -/
theorem step_serving (h : Step (recorded sel4) boot r m t) (hparks : r.parks m = none)
    (hopens : r.opens m = none) : Handled boot r m t := by
  suffices hends : Ends (handle (recorded sel4) boot m) r fun _ t => Handled boot r m t from
    hends _ _ h
  refine .bind (.get ?_)
  rw [senderPid_table]
  cases hsender : r.table.senderPid m.badge with
  | none => exact .pure (Serving.silent.handled (.refl boot r))
  | some sender =>
    cases hl : m.label with
    | vmFault =>
      have hq := hushed_unmoved sel4 boot
      refine .ite (fun _ => handled_of_unmoved (hq.pageFault _ _)) fun hpager => ?_
      refine .ite (fun _ => .throw) fun _ => handled_fatalFault ?_
      exact .fault hsender (by rw [hl]; decide) fun _ => hpager
    | capFault =>
      refine handled_fatalFault ?_
      exact .fault hsender (by rw [hl]; decide) fun h => by rw [hl] at h; cases h
    | other => exact handled_syscall hl hsender hparks hopens

/-- The slot that is allocated next is in the field `f`, and the kernel has been told to save the
capability of the caller there. -/
def Parking (boot : Boot) (f : Field) (r t : Root (K × List Invocation)) : Prop :=
  t.saved = Function.update r.saved f r.alloc.allocSlot.1 ∧
    t.log = r.log ++ [.cnodeSaveCaller (boot.rootSlot r.alloc.allocSlot.1)]

/-- A read of an empty pipe with a writer parks. -/
theorem parking_readPipe {i : ℕ} (h : r.Delays m (.reader i)) :
    Ends (readPipe (recorded sel4) boot i) r fun _ t => Parking boot (.reader i) r t := by
  obtain ⟨hb, heof⟩ : (r.pipes i).buffer = [] ∧ (r.pipes i).eof = false := h
  refine .bind (.get ?_)
  simp only [hb, heof]
  refine .bind fun cap u hu => .bind fun _ v hv => .bind fun _ w hw => .pure ?_
  cases hu
  cases hv
  cases hw
  refine ⟨?_, rfl⟩
  exact saved_setPipe { r with alloc := r.alloc.allocSlot.2 } i fun p =>
    { p with readerReplyCap := r.alloc.allocSlot.1 }

/-- A wait for a live process parks. -/
theorem parking_sysWait (h : r.Delays m (.waiter sender)) :
    Ends (sysWait (recorded sel4) boot sender m) r fun _ t =>
      Parking boot (.waiter sender) r t := by
  refine .bind (.get (.ite (fun _ => ?_) fun hno => absurd h hno))
  refine .bind fun _ u hu => .bind fun cap v hv => .bind fun _ w hw => ?_
  cases hv
  cases hw
  refine (ends_setPcb sender _ _).mono fun _ x hx => ?_
  have hmark : u.saved = r.saved := by
    cases hu
    exact (saved_setPcb r sender _).trans (Function.update_eq_self _ _)
  have halloc : u.alloc = r.alloc := by
    cases hu
    rfl
  have hlog : u.log = r.log := by
    cases hu
    rfl
  rw [hx, Parking, saved_setPcb, ← hmark, ← halloc, ← hlog]
  exact ⟨rfl, rfl⟩

/-- A wait for drivers that are not ready parks. -/
theorem parking_sysWaitAllDriversReady (h : r.Delays m .drivers) :
    Ends (sysWaitAllDriversReady (recorded sel4) boot) r fun _ t => Parking boot .drivers r t := by
  have hready : r.allDriversReady = false := h
  refine .bind (.get ?_)
  simp only [hready]
  refine .bind fun cap u hu => .bind fun _ v hv => .bind fun _ w hw => .pure ?_
  cases hu
  cases hv
  cases hw
  refine ⟨funext fun g => ?_, rfl⟩
  cases g <;> rfl

/-- A call that blocks saves the capability of its caller. -/
theorem step_parks (h : Step (recorded sel4) boot r m t) (hparks : r.parks m = some f) :
    Parking boot f r t := by
  obtain ⟨huses, hdelays⟩ := parks_eq_some.mp hparks
  obtain ⟨sender, hsender, hl, hcall⟩ := uses_cases huses
  have hrun := step_syscall h hsender hl
  rw [syscall, run_bind, run_get] at hrun
  rcases hcall with ⟨h6, hpipe, rfl⟩ | ⟨h106, rfl⟩ | ⟨h110, rfl⟩
  · rw [h6] at hrun
    have hread : (sysRead (recorded sel4) boot m).run r = .ok (⟨⟩, t) := hrun
    rw [sysRead, if_pos hpipe] at hread
    exact parking_readPipe hdelays _ _ hread
  · rw [h106] at hrun
    exact parking_sysWait hdelays _ _ hrun
  · rw [h110] at hrun
    exact parking_sysWaitAllDriversReady hdelays _ _ hrun

/-- A call that blocks changes the table only where it is `SYS_WAIT`. -/
theorem table_of_parks (h : Step (recorded sel4) boot r m t) (hparks : r.parks m = some f) :
    (∀ p, (t.table p).active = (r.table p).active) ∧
      ∀ p, f ≠ .waiter p → t.table p = r.table p := by
  obtain ⟨sender, hsender, hl, hcall⟩ := uses_cases (parks_eq_some.mp hparks).1
  have hno {n : ℕ} (hn : n ≠ 6 ∧ n ≠ 106 ∧ n ≠ 110) : m.mr 0 ≠ n := by
    rcases hcall with ⟨h, -⟩ | ⟨h, -⟩ | ⟨h, -⟩ <;> omega
  have hrecover (p : ℕ) : ¬ r.table.Recovers m p := by
    rintro (⟨-, hl', -⟩ | ⟨hm, -⟩ | ⟨hm, -⟩)
    · exact hl' hl
    · exact hno (by decide) hm.2
    · exact hno (by decide) hm.2
  have hmove := step_moves h
  generalize t.table = T' at hmove ⊢
  -- the three calls that block change nothing but the wait of the caller
  cases hmove with
  | same => exact ⟨fun _ => rfl, fun _ _ => rfl⟩
  | wait s target hm hs harg htarget =>
    rcases hcall with ⟨h6, -⟩ | ⟨-, rfl⟩ | ⟨h110, -⟩
    · exact absurd (h6.symm.trans hm.2) (by decide)
    · obtain rfl : sender = s := Option.some.inj (hsender.symm.trans hs)
      refine ⟨fun p => ?_, fun p hp =>
        Function.update_of_ne (fun h : p = sender => hp (congrArg Field.waiter h.symm)) _ _⟩
      by_cases hp : p = sender
      · rw [hp, Function.update_self]
      · rw [Function.update_of_ne hp]
    · exact absurd (h110.symm.trans hm.2) (by decide)
  | create p name isDriver hm => exact (hm.2.elim (hno (by decide)) (hno (by decide))).elim
  | exit p hm => exact (hm.elim (fun hm => hno (by decide) hm.1.2) (hrecover p)).elim
  | respawn p n hm => exact (hrecover p hm).elim
  | kill p hm => exact (hno (by decide) hm.2).elim
  | threadExit hm => exact (hno (by decide) hm.2).elim
  | threadWake hm => exact (hno (by decide) hm.2).elim

/-- The caller has been answered at once. -/
def Replied (r t : Root (K × List Invocation)) : Prop :=
  t.saved = r.saved ∧ ∃ mrs, t.log = r.log ++ [.reply mrs]

/-- `reply` is the one answer to a caller. -/
theorem replied_reply (mrs : List ℤ) (r : Root (K × List Invocation)) :
    Ends (reply (recorded sel4) mrs) r fun _ t => Replied r t := by
  intro _ t hrun
  rw [run_reply] at hrun
  cases hrun
  exact ⟨rfl, mrs, rfl⟩

/-- A read that does not park is answered. -/
theorem replied_readPipe {i : ℕ} (hno : ¬ r.Delays m (.reader i)) :
    Ends (readPipe (recorded sel4) boot i) r fun _ t => Replied r t := by
  refine .bind (.get ?_)
  cases hb : (r.pipes i).buffer with
  | cons byte rest =>
    refine .bind fun _ u hu => (replied_reply _ u).mono fun _ t ⟨hsaved, mrs, hlog⟩ => ?_
    cases hu
    refine ⟨hsaved.trans ?_, mrs, hlog⟩
    exact (saved_setPipe r i _).trans (Function.update_eq_self _ _)
  | nil =>
    refine .ite (fun _ => replied_reply _ r) fun heof => absurd ⟨hb, ?_⟩ hno
    simpa using heof

/-- A wait that does not park is answered. -/
theorem replied_sysWait (hno : ¬ r.Delays m (.waiter sender)) :
    Ends (sysWait (recorded sel4) boot sender m) r fun _ t => Replied r t :=
  .bind (.get (.ite (fun h => absurd h hno) fun _ => replied_reply _ r))

/-- A wait for the drivers that does not park is answered. -/
theorem replied_sysWaitAllDriversReady (hno : ¬ r.Delays m .drivers) :
    Ends (sysWaitAllDriversReady (recorded sel4) boot) r fun _ t => Replied r t := by
  refine .bind (.get (.ite (fun _ => replied_reply _ r) fun hready => absurd ?_ hno))
  exact Bool.eq_false_iff.mpr hready

/-- A call about a field that does not block is answered at once. -/
theorem step_replied (h : Step (recorded sel4) boot r m t) (huses : r.uses m = some f)
    (hparks : r.parks m = none) : Replied r t := by
  have hno := not_delays_of_parks hparks huses
  obtain ⟨sender, hsender, hl, hcall⟩ := uses_cases huses
  have hrun := step_syscall h hsender hl
  rw [syscall, run_bind, run_get] at hrun
  rcases hcall with ⟨h6, hpipe, rfl⟩ | ⟨h106, rfl⟩ | ⟨h110, rfl⟩
  · rw [h6] at hrun
    have hread : (sysRead (recorded sel4) boot m).run r = .ok (⟨⟩, t) := hrun
    rw [sysRead, if_pos hpipe] at hread
    exact replied_readPipe hno _ _ hread
  · rw [h106] at hrun
    exact replied_sysWait hno _ _ hrun
  · rw [h110] at hrun
    exact replied_sysWaitAllDriversReady hno _ _ hrun

/-- The kernel makes a capability, whatever its badge. -/
theorem unmoved_mint (boot : Boot) (dest src : Place) (badge : ℕ) :
    Keeps (Unmoved boot)
      (sys (recorded sel4) (.cnodeMint dest src badge) : RootM (K × List Invocation) _) := by
  intro r _ t hrun
  cases hrun
  exact ⟨⟨⟨[.cnodeMint dest src badge], rfl, rfl⟩, rfl⟩, rfl⟩

/-- `SYS_PIPE` answers nobody, and the field of its pipe is 0 afterwards. -/
theorem opened_sysPipe {i : ℕ} (hfree : r.freePipe = some i) :
    Ends (sysPipe (recorded sel4) boot sender m) r fun _ t =>
      Deals boot [] r t ∧ t.saved = Function.update r.saved (.reader i) 0 ∧ t.table = r.table := by
  have hq := hushed_unmoved sel4 boot
  refine .bind (.get ?_)
  simp only [hfree]
  refine .seq (ends_setPipe i _ r) fun _ t ht => ?_
  -- everything after this leaves the fields alone
  refine Ends.mono (Q := fun _ u => Unmoved boot t u) ?_ fun _ u hu => ?_
  · refine .seq (hq.sys (.cnodeDelete (childSlot _ _)) trivial rfl t) fun _ u hu => ?_
    refine .seq (unmoved_mint boot _ _ _ u) fun err v hv => ?_
    have htv := hq.trans _ _ _ hu hv
    refine .ite (fun _ => (hq.reply _ v).mono fun _ w hw => hq.trans _ _ _ htv hw) fun _ => ?_
    refine .seq (unmoved_setPipe boot i ?hf v) fun _ w hw => ?_
    case hf => exact fun _ => rfl
    exact (hq.reply _ w).mono fun _ x hx => hq.trans _ _ _ htv (hq.trans _ _ _ hw hx)
  · obtain rfl := ht
    exact ⟨hu.deals, hu.saved.trans (saved_setPipe r i _), hu.table⟩

/-- The step that opens a pipe clears the capability of its reader, answered or not. -/
theorem step_opens (h : Step (recorded sel4) boot r m t) (hopens : r.opens m = some f) :
    Deals boot [] r t ∧ t.saved = Function.update r.saved f 0 ∧ t.table = r.table := by
  rw [Root.opens] at hopens
  split at hopens
  · rename_i hm
    obtain ⟨sender, hsender⟩ := Option.isSome_iff_exists.mp hm.1
    obtain ⟨i, hfree, rfl⟩ := Option.map_eq_some_iff.mp hopens
    have hrun := step_syscall h hsender hm.2.1
    rw [syscall, run_bind, run_get, hm.2.2] at hrun
    exact opened_sysPipe hfree _ _ hrun
  · cases hopens

end

/-! ## Whom the rules concern -/

/-- The message ends `p` with `SYS_EXIT`, or as the target of a `SYS_KILL` that is no recovery. -/
def Table.Removes (T : Table) (m : Message) (p : ℕ) : Prop :=
  m.label = .other ∧ T.Alive p ∧ (m.mr 0 = 103 ∧ T.senderPid m.badge = some p ∨
    m.mr 0 = 102 ∧ toInt32 (m.mr 1) = p ∧ ¬ 0 < (T p).isDriver ∧ (T p).name ≠ shellName)

section
variable {K : Type} {r : Root K} {m : Message} {L : List (Field × List ℤ)} {D : List ℕ}
  {started : Option ℕ} {T : Table} {f : Field}

/-- Those who wait for a process are live fields. -/
theorem live_of_waitersOf {p : ℕ} {l : List ℕ} (hl : ∀ q ∈ l, q < 256) :
    ∀ a ∈ r.table.waitersOf p l, r.Live a.1 := by
  intro a ha
  obtain ⟨q, hq, hwaits, rfl⟩ := mem_waitersOf.mp ha
  exact ⟨hl q hq, hwaits.1⟩

/-- So are the parked readers of its pipes. -/
theorem live_of_readersOf {p : ℕ} : ∀ a ∈ r.readersOf p (List.range maxPipes), r.Live a.1 := by
  intro a ha
  obtain ⟨i, hi, -, rfl⟩ := mem_readersOf.mp ha
  exact List.mem_range.mp hi

/-- Only parked callers of live fields are answered. -/
theorem Serving.live (h : Serving boot r m L D started T) : ∀ a ∈ L, r.Live a.1 := by
  have hpids : ∀ q ∈ pids, q < 256 := fun q hq => (mem_pids.mp hq).2
  have hone (q : ℕ) : ∀ i ∈ (if 0 < q ∧ q < 256 then [q] else []), i < 256 := by
    intro i hi
    split at hi
    · rename_i hq
      rw [List.mem_singleton.mp hi]
      exact hq.2
    · cases hi
  cases h with
  | silent | start | window | kill => exact fun a ha => absurd ha List.not_mem_nil
  | reader i value hm hi hcap => exact List.forall_mem_singleton.mpr hi
  | drivers => exact List.forall_mem_singleton.mpr trivial
  | recover | respawn => exact live_of_waitersOf hpids
  | exit =>
    exact List.forall_mem_append.mpr ⟨live_of_readersOf, live_of_waitersOf hpids⟩
  | threadExit | threadWake =>
    exact List.forall_mem_append.mpr ⟨live_of_readersOf, live_of_waitersOf (hone _)⟩

/-- A process is started at the first free PID. -/
theorem Serving.freePid (h : Serving boot r m L D started T) {n : ℕ} (hn : started = some n) :
    r.table.freePid = some n := by
  cases h with
  | start p _ _ _ hfree => rwa [← Option.some.inj hn]
  | respawn p n' _ _ _ _ _ hfree => rwa [← Option.some.inj hn]
  | silent | reader | drivers | window | exit | recover | kill | threadExit | threadWake => cases hn

/-- Those who wait for a process are told 0. -/
theorem Serving.told (h : Serving boot r m L D started T) {q : ℕ} {mrs : List ℤ}
    (ha : (.waiter q, mrs) ∈ L) : mrs = [0] := by
  have hwaits {p : ℕ} {l : List ℕ} (ha : (.waiter q, mrs) ∈ r.table.waitersOf p l) : mrs = [0] := by
    obtain ⟨q', -, -, heq⟩ := mem_waitersOf.mp ha
    exact congrArg Prod.snd heq
  have hreads {p : ℕ} {l : List ℕ} (ha : (.waiter q, mrs) ∈ r.readersOf p l) : False := by
    obtain ⟨i, -, -, heq⟩ := mem_readersOf.mp ha
    cases congrArg Prod.fst heq
  cases h with
  | silent | start | window | kill => cases ha
  | reader | drivers => cases congrArg Prod.fst (List.mem_singleton.mp ha)
  | recover | respawn => exact hwaits ha
  | exit | threadExit | threadWake =>
    exact (List.mem_append.mp ha).elim (fun hmem => (hreads hmem).elim) hwaits

/-- What a process is taken apart into are slots of its own, but for the address space. -/
theorem Balanced.saved_objects (hr : Balanced allPids [] r) (hf : r.Live f) (hs : r.saved f ≠ 0)
    {p : ℕ} (hp : r.table.Alive p) (hmem : r.saved f ∈ (r.pcbs p).objects boot) :
    (r.pcbs p).vspace = r.saved f ∧ (r.pcbs p).vspace ≠ boot.rootVspace := by
  have hactive : (r.pcbs p).active = true := hp.1
  have hown {s : ℕ} (hname : s ∈ (r.pcbs p).names) (heq : r.saved f = s) : False := by
    have htracked := hr.owns p (Finset.mem_range.mpr hp.2.2) hactive s hname (heq ▸ hs)
    exact hr.saved_notMem hf hs hp.2.2 hactive (heq ▸ List.mem_append_left _ htracked)
  rcases List.mem_append.mp hmem with hmem | hmem
  · rcases List.mem_pair.mp hmem with heq | heq
    · exact (hown (Pcb.mem_names.mpr (.inr (.inl rfl))) heq).elim
    · exact (hown (Pcb.mem_names.mpr (.inl rfl)) heq).elim
  · split at hmem
    · exact ⟨(List.mem_singleton.mp hmem).symm, ‹_›⟩
    · cases hmem

/-- No message empties the slot of a parked caller that it does not answer, but the end of a process
whose address space has its number. -/
theorem Serving.spares (h : Serving boot r m L D started T) (hr : Balanced allPids [] r)
    (hm : ¬ r.Repeats m) (hf : r.Live f) (hs : r.saved f ≠ 0) (hD : r.saved f ∈ D) :
    ∃ p, (r.table.Removes m p ∧ (T p).active = false) ∧ (r.pcbs p).vspace = r.saved f ∧
      (r.pcbs p).vspace ≠ boot.rootVspace := by
  have htracked {p : ℕ} (hp : r.table.Alive p)
      (hmem : r.saved f ∈ (r.pcbs p).capTracker ++ (r.pcbs p).window) : False :=
    hr.saved_notMem hf hs hp.2.2 hp.1 hmem
  have hspoils {p : ℕ} (hp : r.table.Alive p) (hmem : r.saved f ∈ (r.pcbs p).spoils) : False := by
    refine htracked hp (List.mem_append.mpr ?_)
    exact (List.mem_append.mp hmem).imp List.mem_of_mem_filter List.mem_of_mem_filter
  have hstop {p : ℕ} (T' : Table) : (T'.stop p p).active = false :=
    congrArg Life.active (Function.update_self p _ T')
  cases h with
  | silent | start | reader | drivers | threadWake => cases hD
  | window D hcall hspare => exact absurd hD (hspare hr hm f hf hs)
  | recover p _ hp | respawn p _ _ _ _ hp => exact (hspoils hp hD).elim
  | threadExit p q _ hp => exact (htracked hp (List.mem_append_left _ hD)).elim
  | exit p hcall hp =>
    refine ⟨p, ⟨⟨hcall.1.1, hp, .inl ⟨hcall.1.2, hcall.2⟩⟩, hstop _⟩, hr.saved_objects hf hs hp hD⟩
  | kill p hcall harg hp hrole =>
    exact ⟨p, ⟨⟨hcall.1, hp, .inr ⟨hcall.2, harg, hrole⟩⟩, hstop _⟩, hr.saved_objects hf hs hp hD⟩

end

/-! ## The small system -/

/-- The small system after boot, with its kernel calls. -/
def loggedRoot : Root (Unit × List Invocation) :=
  (bootFrom (recorded granting) someBoot someDevices ((), []) ⟨1000, 4000, []⟩).get
    (by decide +kernel)

/-- The start-up with a kernel that grants every request ends there. -/
theorem booted_loggedRoot : Booted (recorded granting) someBoot someDevices loggedRoot :=
  booted_get _ _ _ rfl (by decide)

end PsychWard.Rootserver
