import PsychWard.Rootserver.Quiet

/-!
# The lives of processes

The process table seen from outside: which PIDs are active, under which name and role, and who waits
for whom. `Moves` is the abstract machine of process life, with one rule for each way a message can
change the table, and `step_moves` says that the rootserver does nothing else: every message it
handles moves the table by one of these rules.
-/

namespace PsychWard.Rootserver

open Program

variable {K : Type} {sel4 : SeL4 K} {boot : Boot}

/-- The lives of all processes, by PID. -/
abbrev Table := ℕ → Life

/-- The process table of a state. -/
def Root.table (r : Root K) : Table := fun p => (r.pcbs p).life

namespace Table

/-- A PID that the loops over the table visit and that is in use. -/
def Alive (T : Table) (p : ℕ) : Prop := (T p).active = true ∧ 0 < p ∧ p < 256

instance (T : Table) (p : ℕ) : Decidable (T.Alive p) := inferInstanceAs (Decidable (_ ∧ _))

/-- The first PID that is not in use. -/
def freePid (T : Table) : Option ℕ := pids.find? fun i => !(T i).active

/-- The process a badge stands for; 0 for a call through a pipe. -/
def senderPid (T : Table) (badge : ℕ) : Option ℕ :=
  if badge ≠ 0 ∧ ¬ isPipeCall badge then
    if 0 < badge % 2 ^ 16 ∧ badge % 2 ^ 16 < 256 ∧ (T (badge % 2 ^ 16)).active then
      some (badge % 2 ^ 16)
    else none
  else some 0

/-- The life of a process after the waiters of `p` have been woken. -/
def woken (p : ℕ) (x : Life) : Life :=
  if x.active ∧ x.waitingFor = p then { x with waitingFor := 0 } else x

/-- Wake every waiter of `p`. -/
def wakeAll (p : ℕ) (T : Table) : Table := fun q => if q ∈ pids then woken p (T q) else T q

/-- Wake one process if it waits for `p`. -/
def wakeOne (p q : ℕ) (T : Table) : Table :=
  if 0 < q ∧ q < 256 then Function.update T q (woken p (T q)) else T

/-- End a process. -/
def stop (p : ℕ) (T : Table) : Table := Function.update T p { T p with active := false }

/-- Start a process. -/
def start (p : ℕ) (name : CString) (isDriver : ℤ) (T : Table) : Table :=
  Function.update T p ⟨name, isDriver, true, 0⟩

/-- A waiter is woken once: afterwards it waits for nobody. -/
theorem woken_woken {p : ℕ} (hp : 0 < p) (x : Life) : woken p (woken p x) = woken p x := by
  unfold woken
  by_cases h : x.active = true ∧ x.waitingFor = p
  · simp only [if_pos h]
    rw [if_neg]
    rintro ⟨-, h0⟩
    change (0 : ℤ) = p at h0
    omega
  · simp only [if_neg h]

/-- Waking stops no process. -/
@[simp] theorem woken_active (p : ℕ) (x : Life) : (woken p x).active = x.active := by
  unfold woken
  split <;> rfl

/-- Waking renames no process. -/
@[simp] theorem woken_name (p : ℕ) (x : Life) : (woken p x).name = x.name := by
  unfold woken
  split <;> rfl

/-- Waking changes no role. -/
@[simp] theorem woken_isDriver (p : ℕ) (x : Life) : (woken p x).isDriver = x.isDriver := by
  unfold woken
  split <;> rfl

/-- The end of a process wakes others and stops none. -/
@[simp] theorem wakeAll_active (p q : ℕ) (T : Table) : (wakeAll p T q).active = (T q).active := by
  unfold wakeAll
  split <;> simp

/-- Nor does it rename any. -/
@[simp] theorem wakeAll_name (p q : ℕ) (T : Table) : (wakeAll p T q).name = (T q).name := by
  unfold wakeAll
  split <;> simp

/-- Nor does it change a role. -/
@[simp] theorem wakeAll_isDriver (p q : ℕ) (T : Table) :
    (wakeAll p T q).isDriver = (T q).isDriver := by
  unfold wakeAll
  split <;> simp

/-- One turn of the loop that wakes the waiters renames nobody. -/
@[simp] theorem wakeOne_name (p q i : ℕ) (T : Table) : (wakeOne p q T i).name = (T i).name := by
  unfold wakeOne
  split
  · by_cases hi : i = q
    · subst hi
      simp
    · rw [Function.update_of_ne hi]
  · rfl

/-- A waiter that is woken keeps its PID, so the next free one is the same. -/
@[simp] theorem freePid_wakeAll (p : ℕ) (T : Table) : freePid (wakeAll p T) = freePid T := by
  simp [freePid]

/-- One turn of the loop stops nobody. -/
@[simp] theorem wakeOne_active (p q i : ℕ) : (wakeOne p q T i).active = (T i).active := by
  unfold wakeOne
  split
  · by_cases hi : i = q
    · subst hi
      simp
    · rw [Function.update_of_ne hi]
  · rfl

/-- One turn of the loop changes no role. -/
@[simp] theorem wakeOne_isDriver (p q i : ℕ) (T : Table) :
    (wakeOne p q T i).isDriver = (T i).isDriver := by
  unfold wakeOne
  split
  · by_cases hi : i = q
    · subst hi
      simp
    · rw [Function.update_of_ne hi]
  · rfl

/-- The other processes run on. -/
theorem stop_active {T : Table} {p q : ℕ} :
    ((T.stop p) q).active = true ↔ q ≠ p ∧ (T q).active = true := by
  by_cases hq : q = p
  · subst hq
    simp [stop]
  · simp [stop, hq]

/-- Whom a process waits for outlives its end. -/
theorem stop_waitingFor {T : Table} {p q : ℕ} : ((T.stop p) q).waitingFor = (T q).waitingFor := by
  by_cases hq : q = p
  · subst hq
    simp [stop]
  · simp [stop, hq]

/-- A start touches one PID. -/
theorem start_of_ne {T : Table} {p q : ℕ} {name : CString} {isDriver : ℤ} (h : q ≠ p) :
    (T.start p name isDriver) q = T q := Function.update_of_ne h ..

/-- A process starts alive and waits for nobody. -/
theorem start_self {T : Table} {p : ℕ} {name : CString} {isDriver : ℤ} :
    (T.start p name isDriver) p = ⟨name, isDriver, true, 0⟩ := Function.update_self ..

/-- The role of a process outlives its end. -/
theorem stop_isDriver {T : Table} {p q : ℕ} : ((T.stop p) q).isDriver = (T q).isDriver := by
  by_cases hq : q = p
  · subst hq
    simp [stop]
  · simp [stop, hq]

/-- A free PID is in the table, is not 0 and belongs to no live process. -/
theorem freePid_eq_some {T : Table} {p : ℕ} (h : T.freePid = some p) :
    (T p).active = false ∧ 0 < p ∧ p < 256 := by
  have hp := List.find?_some h
  exact ⟨by simpa using hp, mem_pids.mp (List.mem_of_find?_eq_some h)⟩

/-- A sender other than the console is alive. -/
theorem alive_of_senderPid {T : Table} {badge sender : ℕ} (h : T.senderPid badge = some sender)
    (hpos : 0 < sender) : T.Alive sender := by
  unfold senderPid at h
  split at h
  · split at h
    · rename_i hbadge
      obtain rfl := Option.some.inj h
      exact ⟨hbadge.2.2, hbadge.1, hbadge.2.1⟩
    · cases h
  · obtain rfl := Option.some.inj h
    omega

/-- The badge of a live process names it. -/
theorem senderPid_of_alive {T : Table} {badge : ℕ} (h : T.Alive (badge % 2 ^ 16)) :
    T.senderPid badge = some (badge % 2 ^ 16) := by
  have hbadge : badge ≠ 0 ∧ ¬ isPipeCall badge := by
    refine ⟨fun h0 => ?_, fun hpipe => ?_⟩
    · have hpos := h.2.1
      rw [h0] at hpos
      exact absurd hpos (by decide)
    · have hlt : badge < 1000 + 16 := hpipe.2
      have hle : 1000 ≤ badge := hpipe.1
      have hsmall := h.2.2
      omega
  exact (if_pos hbadge).trans (if_pos ⟨h.2.1, h.2.2, h.1⟩)

/-- The message starts a recovery of `p`: `p` has a fault the pager does not handle, or it is the
target of `SYS_KILL` or the first process with the name that `SYS_RECOVER` carries. -/
inductive Recovers (T : Table) (m : Message) (p : ℕ) : Prop
  | fault (h : T.senderPid m.badge = some p) (hl : m.label ≠ .other)
      (hpager : m.label = .vmFault → ¬ (0x510000 ≤ m.mr 1 ∧ m.mr 1 < 0x600000 ∧ p ≠ 0))
  | kill (hm : m.label = .other ∧ m.mr 0 = 102) (h : toInt32 (m.mr 1) = p)
  | recover (hm : m.label = .other ∧ m.mr 0 = 117)
      (h : (pids.find? fun i => (T i).active && (T i).name = m.driverName) = some p)

/-- What one message can do to the process table. -/
inductive Moves (T : Table) (m : Message) : Table → Prop
  | same : Moves T m T
  /-- `SYS_WAIT` on a process that is alive. -/
  | wait (sender target : ℕ) (hm : m.label = .other ∧ m.mr 0 = 106)
      (hsender : T.senderPid m.badge = some sender) (harg : toInt32 (m.mr 1) = target)
      (htarget : T.Alive target) :
      Moves T m (Function.update T sender { T sender with waitingFor := target })
  /-- `SYS_EXEC` or `SYS_CLONE`. -/
  | create (p : ℕ) (name : CString) (isDriver : ℤ)
      (hm : m.label = .other ∧ (m.mr 0 = 100 ∨ m.mr 0 = 101)) (hfree : T.freePid = some p)
      (hrole : isDriver = 254 ∨ isDriver = 0 ∧ name = shellThreadName) :
      Moves T m (T.start p name isDriver)
  /-- `SYS_EXIT`, or the end of a process that is not started again. -/
  | exit (p : ℕ)
      (hm : (m.label = .other ∧ m.mr 0 = 103) ∧ T.senderPid m.badge = some p ∨ T.Recovers m p)
      (hp : T.Alive p) : Moves T m ((T.wakeAll p).stop p)
  /-- The recovery of a critical component. -/
  | respawn (p n : ℕ) (hm : T.Recovers m p) (hp : T.Alive p)
      (hcrit : 0 < (T p).isDriver ∨ (T p).name = shellName) (hfree : T.freePid = some n) :
      Moves T m (((T.wakeAll p).start n ((T p).name.take 31) (T p).isDriver).stop p)
  /-- `SYS_KILL` of a process that is not critical. -/
  | kill (p : ℕ) (hm : m.label = .other ∧ m.mr 0 = 102) (harg : toInt32 (m.mr 1) = p)
      (hp : T.Alive p) (hrole : ¬ 0 < (T p).isDriver ∧ (T p).name ≠ shellName) :
      Moves T m (T.stop p)
  /-- `SYS_THREAD_EXIT` of a thread. -/
  | threadExit (hm : m.label = .other ∧ m.mr 0 = 105) (hp : T.Alive (m.badge % 2 ^ 16))
      (hname : (T (m.badge % 2 ^ 16)).name.take 12 = shellThreadName) :
      Moves T m ((T.wakeOne (m.badge % 2 ^ 16) (m.badge / 2 ^ 16 % 2 ^ 16)).stop
        (m.badge % 2 ^ 16))
  /-- `SYS_THREAD_EXIT` of something else: only the waiting parent is woken. -/
  | threadWake (hm : m.label = .other ∧ m.mr 0 = 105) (hp : T.Alive (m.badge % 2 ^ 16)) :
      Moves T m (T.wakeOne (m.badge % 2 ^ 16) (m.badge / 2 ^ 16 % 2 ^ 16))

end Table

/-! ## Programs that leave the table alone -/

/-- The two states have the same process table. -/
def SameTable (r t : Root K) : Prop := t.table = r.table

/-- Bookkeeping in a PCB is no event of its life. -/
theorem sameTable_setPcb (r : Root K) (p : ℕ) (f : Pcb → Pcb) (hf : Pcb.Bookkeeping f) :
    SameTable r (r.setPcb p f) := by
  funext q
  by_cases hq : q = p
  · subst hq
    exact (congrArg Pcb.life (r.setPcb_self q f)).trans (hf _)
  · exact congrArg Pcb.life (r.setPcb_of_ne f hq)

/-- The table is left alone by whatever spawning does outside the PCB. -/
theorem quiet_sameTable (sel4 : SeL4 K) : Quiet sel4 SameTable where
  refl _ := rfl
  trans _ _ _ h h' := h'.trans h
  mute _ _ _ _ := rfl
  callBlk _ _ _ _ _ _ := rfl
  alloc _ _ := rfl
  elfWindow _ _ := rfl
  ipcWindow _ _ := rfl
  cloneWindow _ _ := rfl
  humble r p f hf := sameTable_setPcb r p f fun x => (hf x).1
  invoke _ _ _ := rfl
  pcb := sameTable_setPcb

/-- The kernel keeps no table of processes. -/
theorem sameTable_sys (inv : Invocation) : Keeps SameTable (sys sel4 inv) := by
  intro r _ t hrun
  cases hrun
  rfl

/-- A change of one PCB is the change of one line of the table. -/
theorem table_setPcb (r : Root K) (p : ℕ) (f : Pcb → Pcb) :
    (r.setPcb p f).table = Function.update r.table p (f (r.pcbs p)).life := by
  funext q
  by_cases hq : q = p
  · subst hq
    rw [Function.update_self]
    exact congrArg Pcb.life (r.setPcb_self q f)
  · rw [Function.update_of_ne hq]
    exact congrArg Pcb.life (r.setPcb_of_ne f hq)

/-! ## Programs that start, wake and end processes -/

/-- One turn of the loop: a waiter of `p` waits no more. -/
theorem table_wake (p i : ℕ) (r : Root K) : Ends (wake sel4 boot p i) r fun _ t =>
    t.table = Function.update r.table i (Table.woken p (r.table i)) := by
  have hlife : ((r.pcbs i).active = true ∧ (r.pcbs i).waitingFor = p) =
      ((r.table i).active = true ∧ (r.table i).waitingFor = p) := rfl
  refine .bind (.get (.onlyIf (fun h => ?_) fun h => ?_))
  · refine .seq (ends_setPcb i _ r) fun _ t ht => ?_
    refine .seq ((quiet_sameTable sel4).answer _ _ t) fun _ u hu => ?_
    refine .seq ((quiet_sameTable sel4).freeSlot _ u) fun _ v hv => ?_
    refine ((quiet_sameTable sel4).setPcb i ?hf v).mono fun _ w hw => ?_
    case hf => exact fun _ => rfl
    rw [hw, hv, hu, ht, table_setPcb, Table.woken, if_pos (hlife ▸ h)]
    rfl
  · rw [Table.woken, if_neg (hlife ▸ h), Function.update_eq_self]

/-- The same where the saved capability is given up as well. -/
theorem table_wakeAndDrop (p i : ℕ) (r : Root K) : Ends (wakeAndDrop sel4 boot p i) r fun _ t =>
    t.table = Function.update r.table i (Table.woken p (r.table i)) := by
  have hlife : ((r.pcbs i).active = true ∧ (r.pcbs i).waitingFor = p) =
      ((r.table i).active = true ∧ (r.table i).waitingFor = p) := rfl
  refine .bind (.get (.onlyIf (fun h => ?_) fun h => ?_))
  · refine .seq (ends_setPcb i _ r) fun _ t ht => ?_
    refine .seq ((quiet_sameTable sel4).answer _ _ t) fun _ u hu => ?_
    refine ((quiet_sameTable sel4).setPcb i ?hf u).mono fun _ w hw => ?_
    case hf => exact fun _ => rfl
    rw [hw, hu, ht, table_setPcb, Table.woken, if_pos (hlife ▸ h)]
    rfl
  · rw [Table.woken, if_neg (hlife ▸ h), Function.update_eq_self]

/-- The loop over the table wakes every waiter. -/
theorem table_forM_wake {p : ℕ} (hp : 0 < p) {g : ℕ → RootM K PUnit}
    (hg : ∀ i r, Ends (g i) r fun _ t =>
      t.table = Function.update r.table i (Table.woken p (r.table i))) (l : List ℕ) (r : Root K) :
    Ends (forM l g) r fun _ t =>
      t.table = fun q => if q ∈ l then Table.woken p (r.table q) else r.table q := by
  induction l generalizing r with
  | nil => exact .pure (by simp)
  | cons i l ih =>
    rw [List.forM_cons]
    refine .seq (hg i r) fun _ t ht => (ih t).mono fun _ u hu => ?_
    rw [hu, ht]
    funext q
    -- a waiter the loop meets twice is woken once
    by_cases hq : q = i
    · subst hq
      simp [Table.woken_woken hp]
    · simp [hq]

/-- The CSpace of a child is built after its role is written down. -/
theorem table_spawnCSpace {pid : ℕ} (hp : pid < 256) (role : Role) (r : Root K) :
    Ends (spawnCSpace sel4 boot pid role) r fun _ t =>
      t.table = Function.update r.table pid { r.table pid with isDriver := role.isDriver } := by
  refine .seq ((quiet_sameTable sel4).allocAndTrackCap pid r) fun _ t ht => ?_
  refine .seq (sameTable_sys _ t) fun _ u hu => ?_
  refine .seq ((quiet_sameTable sel4).allocAndTrackCap pid u) fun _ v hv => ?_
  refine .seq (sameTable_sys _ v) fun _ w hw => ?_
  refine .seq ((quiet_sameTable sel4).giveCaps hp _ _ _ w) fun _ x hx => ?_
  have htable : x.table = r.table := hx.trans (hw.trans (hv.trans (hu.trans ht)))
  refine (ends_setPcb _ _ x).mono fun _ y hy => ?_
  rw [hy, table_setPcb, ← htable]
  rfl

/-- The table after a process has been started in the block of `pid`. -/
theorem table_spawnBody {pid : ℕ} (hp : pid < 256) (image : List ℕ) (role : Role) (r : Root K) :
    Ends (spawnBody sel4 boot pid image role) r fun _ t =>
      t.table = Function.update r.table pid { r.table pid with isDriver := role.isDriver } := by
  refine .seq (table_spawnCSpace hp role r) fun _ t ht => ?_
  refine .seq ((quiet_sameTable sel4).spawnVSpace _ t) fun _ u hu => ?_
  refine .seq ((quiet_sameTable sel4).spawnSegments _ _ _ u) fun _ v hv => ?_
  refine ((quiet_sameTable sel4).spawnThread _ _ _ _ _ v).mono fun _ w hw => ?_
  exact hw.trans (hv.trans (hu.trans ht))

/-- `spawn_process` starts a process at the first free PID, or none. -/
theorem table_spawnProcess (name : CString) (data : Option (List ℕ)) (role : Role) (r : Root K) :
    Ends (spawnProcess sel4 boot name data role) r fun pid t =>
      pid = -1 ∧ t = r ∨
      ∃ p, r.table.freePid = some p ∧ pid = p ∧
        t.table = r.table.start p (name.take 31) role.isDriver := by
  unfold spawnProcess
  cases data.orElse fun _ => boot.cpioGetFile name with
  | none => exact .pure (.inl ⟨rfl, rfl⟩)
  | some image =>
    refine .bind (.get ?_)
    cases hfree : r.freePid with
    | none => exact .pure (.inl ⟨rfl, rfl⟩)
    | some p =>
      refine .seq (ends_setPcb p _ r) fun _ t ht => ?_
      have hp := (Root.freePid_eq_some hfree).2.2
      refine .seq (table_spawnBody hp image role t) fun _ u hu => .pure ?_
      refine .inr ⟨p, hfree, rfl, ?_⟩
      rw [hu, ht, table_setPcb, Function.update_self, Function.update_idem]
      rfl

/-- Tearing down a process wakes those who wait for it. -/
theorem table_tearDown {p : ℕ} (hp : 0 < p) (old : Pcb) (r : Root K) :
    Ends (tearDown sel4 boot p old) r fun _ t => t.table = r.table.wakeAll p := by
  refine .seq (table_forM_wake hp (table_wakeAndDrop p) pids r) fun _ t ht => ?_
  have hR := quiet_sameTable sel4
  refine .seq (Keeps.onlyIf hR.toFrame (hR.stopThread _) t) fun _ u hu => ?_
  refine .seq (Keeps.forM hR.toFrame (fun _ _ => hR.releaseCap _) u) fun _ v hv => ?_
  refine .seq ((quiet_sameTable sel4).setPcb p ?hf v) fun _ w hw => ?_
  case hf => exact fun _ => rfl
  refine (Keeps.onlyIf (quiet_sameTable sel4).toFrame (Keeps.forM (quiet_sameTable sel4).toFrame
    fun _ _ => (quiet_sameTable sel4).dropCopy _) w).mono fun _ x hx => ?_
  exact hx.trans (hw.trans (hv.trans (hu.trans ht)))

/-- `generic_recover_process` ends a process after waking its waiters, and may start it again. -/
theorem table_genericRecoverProcess (p : ℕ) (m : Message) (r : Root K)
    (hm : r.table.Recovers m p) :
    Ends (genericRecoverProcess sel4 boot p) r fun _ t => r.table.Moves m t.table := by
  refine .bind (.get (.ite (fun _ => .pure .same) fun h => ?_))
  have hp : r.table.Alive p := by
    refine ⟨?_, by omega, by omega⟩
    have hactive : ¬ (r.pcbs p).active = false := (not_or.mp (not_or.mp h).2).2
    exact Bool.not_eq_false _ ▸ hactive
  refine .seq (table_tearDown hp.2.1 _ r) fun _ t ht => ?_
  -- what the respawn, if any, has made of the table
  refine .seq (Q := fun _ u => u.table = t.table ∨ ∃ n, r.table.freePid = some n ∧
    (0 < (r.table p).isDriver ∨ (r.table p).name = shellName) ∧
    u.table = t.table.start n ((r.table p).name.take 31) (r.table p).isDriver) ?_ ?_
  · refine .onlyIf (fun hcrit => ?_) fun _ => .inl rfl
    refine .seq (table_spawnProcess _ _ _ t) fun pid u hu => .pure ?_
    rcases hu with ⟨-, rfl⟩ | ⟨n, hfree, -, hu⟩
    · exact .inl rfl
    · rw [ht, Table.freePid_wakeAll] at hfree
      exact .inr ⟨n, hfree, hcrit, hu⟩
  · intro _ u hu
    refine (ends_setPcb p _ u).mono fun _ v hv => ?_
    have hstop : v.table = u.table.stop p := by rw [hv, table_setPcb]; rfl
    rw [hstop]
    rcases hu with hu | ⟨n, hfree, hcrit, hu⟩
    · rw [hu, ht]
      exact .exit p (.inr hm) hp
    · rw [hu, ht]
      exact .respawn p n hm hp hcrit hfree

/-! ## Programs on pipes -/

/-- Pipes are no processes. -/
theorem sameTable_setPipe (i : ℕ) (f : Pipe → Pipe) :
    Keeps SameTable (setPipe i f : RootM K PUnit) :=
  .modify fun _ => rfl

/-- A reader that is answered is no event of a life. -/
theorem sameTable_answerReader (i : ℕ) (value : ℤ) :
    Keeps SameTable (answerReader sel4 boot i value) := by
  have hR := (quiet_sameTable sel4).toFrame
  refine .bind hR (.get hR) fun r => .bind hR ((quiet_sameTable sel4).answer _ _) fun _ => ?_
  exact .bind hR ((quiet_sameTable sel4).freeSlot _) fun _ => sameTable_setPipe _ _

/-- So is a reader that is told EOF. -/
theorem sameTable_closeWriter (i : ℕ) : Keeps SameTable (closeWriter sel4 boot i) := by
  have hR := (quiet_sameTable sel4).toFrame
  refine .bind hR (sameTable_setPipe _ _) fun _ => .bind hR (.get hR) fun r => ?_
  exact .onlyIf hR (sameTable_answerReader _ _)

/-- So are all readers of a process that ends. -/
theorem sameTable_closePipesOf (pid : ℕ) : Keeps SameTable (closePipesOf sel4 boot pid) := by
  have hR := (quiet_sameTable sel4).toFrame
  refine .forM hR fun i _ => .bind hR (.get hR) fun r => ?_
  exact .onlyIf hR (sameTable_closeWriter _)

/-- `SYS_PIPE` starts and stops nobody. -/
theorem sameTable_sysPipe (sender : ℕ) (m : Message) :
    Keeps SameTable (sysPipe sel4 boot sender m) := by
  have hR := (quiet_sameTable sel4).toFrame
  refine .bind hR (.get hR) fun r => ?_
  cases r.freePipe with
  | none => exact (quiet_sameTable sel4).reply _
  | some i =>
    refine .bind hR (sameTable_setPipe _ _) fun _ => .bind hR (sameTable_sys _) fun _ => ?_
    refine .bind hR (sameTable_sys _) fun _ => .ite ((quiet_sameTable sel4).reply _) ?_
    exact .bind hR (sameTable_setPipe _ _) fun _ => (quiet_sameTable sel4).reply _

/-- `SYS_PUTS` neither. -/
theorem sameTable_sysPuts (m : Message) : Keeps SameTable (sysPuts sel4 boot m) := by
  have hR := (quiet_sameTable sel4).toFrame
  refine .bind hR (.onlyIf hR ?_) fun _ => (quiet_sameTable sel4).reply _
  refine .bind hR (sameTable_setPipe _ _) fun _ => .bind hR (.get hR) fun r => ?_
  cases (r.pipes (m.badge - pipeBaseBadge)).buffer with
  | nil => exact .pure hR _
  | cons byte rest =>
    exact .onlyIf hR (.bind hR (sameTable_setPipe _ _) fun _ => sameTable_answerReader _ _)

/-- `SYS_READ` neither: a reader parked in a pipe waits for no process. -/
theorem sameTable_sysRead (m : Message) : Keeps SameTable (sysRead sel4 boot m) := by
  have hR := (quiet_sameTable sel4).toFrame
  refine .ite (.bind hR (.get hR) fun r => ?_) ((quiet_sameTable sel4).reply _)
  cases (r.pipes (m.badge - pipeBaseBadge)).buffer with
  | nil =>
    refine .ite ((quiet_sameTable sel4).reply _) ?_
    refine .bind hR (quiet_sameTable sel4).allocSlot fun cap => ?_
    refine .bind hR (sameTable_setPipe _ _) fun _ => ?_
    exact .bind hR (sameTable_sys _) fun _ => .pure hR _
  | cons byte rest => exact .bind hR (sameTable_setPipe _ _) fun _ => (quiet_sameTable sel4).reply _

/-- `SYS_PIPE_WR_CLOSE` neither. -/
theorem sameTable_sysPipeWrClose (m : Message) : Keeps SameTable (sysPipeWrClose sel4 boot m) := by
  have hR := (quiet_sameTable sel4).toFrame
  exact .bind hR (.onlyIf hR (sameTable_closeWriter _)) fun _ => (quiet_sameTable sel4).reply _

/-- `SYS_PIPE_CLOSE` neither. -/
theorem sameTable_sysPipeClose (m : Message) : Keeps SameTable (sysPipeClose sel4 m) := by
  have hR := (quiet_sameTable sel4).toFrame
  refine .bind hR (.onlyIf hR (.bind hR (sameTable_setPipe _ _) fun _ => ?_))
    fun _ => (quiet_sameTable sel4).reply _
  refine .bind hR (.get hR) fun r => .onlyIf hR ?_
  exact .bind hR (sameTable_sys _) fun _ => .pure hR _

/-- `SYS_SLEEP` neither. -/
theorem sameTable_sysSleep : Keeps SameTable (sysSleep sel4 boot) := by
  have hR := (quiet_sameTable sel4).toFrame
  refine .bind hR (.get hR) fun r => .ite ((quiet_sameTable sel4).reply _) ?_
  refine .bind hR (sameTable_sys _) fun _ => .ite (.modify fun _ => rfl) ?_
  exact (quiet_sameTable sel4).reply _

/-- `SYS_DRIVER_READY` neither: the waiter for the drivers is kept outside the table. -/
theorem sameTable_sysDriverReady (sender : ℕ) :
    Keeps SameTable (sysDriverReady sel4 boot sender) := by
  have hR := (quiet_sameTable sel4).toFrame
  refine .bind hR (.get hR) fun r => .bind hR (.onlyIf hR ?_) fun _ => (quiet_sameTable sel4).reply _
  refine .bind hR (.modify fun _ => rfl) fun _ => .bind hR (.get hR) fun r => .onlyIf hR ?_
  refine .bind hR ((quiet_sameTable sel4).answer _ _) fun _ => ?_
  exact .bind hR ((quiet_sameTable sel4).freeSlot _) fun _ => .modify fun _ => rfl

/-- `SYS_WAIT_ALL_DRIVERS_READY` neither. -/
theorem sameTable_sysWaitAllDriversReady :
    Keeps SameTable (sysWaitAllDriversReady sel4 boot) := by
  have hR := (quiet_sameTable sel4).toFrame
  refine .bind hR (.get hR) fun r => .ite ((quiet_sameTable sel4).reply _) ?_
  refine .bind hR (quiet_sameTable sel4).allocSlot fun cap => ?_
  refine .bind hR (.modify fun _ => rfl) fun _ => ?_
  exact .bind hR (sameTable_sys _) fun _ => .pure hR _

/-! ## Every message moves the table by one of the rules -/

section
variable {r : Root K} {m : Message} {sender : ℕ}

/-- A handler that leaves the table alone makes the move that does nothing. -/
theorem moves_of_sameTable {p : RootM K PUnit} (h : Keeps SameTable p) :
    Ends p r fun _ t => r.table.Moves m t.table :=
  (h r).mono fun _ t ht => by rw [show t.table = r.table from ht]; exact .same

/-- `SYS_WAIT` on a process that is alive parks the sender. -/
theorem table_sysWait {target : ℕ} (hx : toInt32 (m.mr 1) = target) (h : r.table.Alive target) :
    Ends (sysWait sel4 boot sender m) r fun _ t => t.table =
      Function.update r.table sender { r.table sender with waitingFor := target } := by
  refine .bind (.get ?_)
  dsimp only
  rw [hx]
  have hpark : (0 : ℤ) < target ∧ (target : ℤ) < 256 ∧ (r.pcbs (target : ℤ).toNat).active = true :=
    ⟨by have := h.2.1; omega, by have := h.2.2; omega, h.1⟩
  refine .ite (fun _ => ?_) fun hno => absurd hpark hno
  refine .seq (ends_setPcb _ _ r) fun _ t ht => ?_
  refine .seq ((quiet_sameTable sel4).allocSlot t) fun cap u hu => ?_
  refine .seq (sameTable_sys _ u) fun _ v hv => ?_
  refine Ends.mono ((quiet_sameTable sel4).setPcb sender ?hf v) fun _ w hw => ?_
  case hf => exact fun _ => rfl
  obtain rfl := ht
  rw [show w.table = _ from hw.trans (hv.trans hu), table_setPcb]
  rfl

/-- `SYS_WAIT`: the caller waits for a live target, or nothing happens. -/
theorem moves_sysWait (hm : m.label = .other ∧ m.mr 0 = 106)
    (hsender : r.table.senderPid m.badge = some sender) :
    Ends (sysWait sel4 boot sender m) r fun _ t => r.table.Moves m t.table := by
  by_cases h : ∃ target : ℕ, toInt32 (m.mr 1) = target ∧ r.table.Alive target
  · obtain ⟨target, hx, halive⟩ := h
    refine (table_sysWait hx halive).mono fun _ t ht => ?_
    rw [ht]
    exact .wait sender target hm hsender hx halive
  · refine .bind (.get (.ite (fun hpark => absurd ?_ h) fun _ => ?_))
    · exact ⟨_, (Int.toNat_of_nonneg hpark.1.le).symm, hpark.2.2, by omega, by omega⟩
    · exact moves_of_sameTable ((quiet_sameTable sel4).reply _)

/-- A spawn takes the first free PID, or nothing happens. -/
theorem moves_spawn {name : CString} {data : Option (List ℕ)} {role : Role}
    (hm : m.label = .other ∧ (m.mr 0 = 100 ∨ m.mr 0 = 101))
    (hrole : role.isDriver = 254) :
    Ends (spawnProcess sel4 boot name data role) r fun _ t => r.table.Moves m t.table := by
  refine (table_spawnProcess name data role r).mono fun _ t ht => ?_
  rcases ht with ⟨-, rfl⟩ | ⟨p, hfree, -, ht⟩
  · exact .same
  · rw [ht]
    exact .create p _ _ hm hfree (.inl hrole)

/-- `SYS_EXEC` spawns what it loaded. -/
theorem moves_sysExec (hm : m.label = .other ∧ m.mr 0 = 100) :
    Ends (sysExec sel4 boot m) r fun _ t => r.table.Moves m t.table := by
  refine .seq ((quiet_sameTable sel4).loadLoop _ _ _ r) fun loaded t ht => ?_
  have hreply (mrs : List ℤ) : Ends (reply sel4 mrs) t fun _ u => r.table.Moves m u.table :=
    ((quiet_sameTable sel4).reply mrs t).mono fun _ u hu => by
      rw [show u.table = r.table from hu.trans ht]
      exact .same
  match loaded with
  | none => exact hreply _
  | some [] => exact hreply _
  | some (b :: bs) =>
    refine .ite (fun _ => ?_) fun _ => hreply _
    refine .seq (moves_spawn ⟨hm.1, .inl hm.2⟩ rfl) fun pid u hu => ?_
    refine ((quiet_sameTable sel4).reply _ u).mono fun _ v hv => ?_
    rw [show v.table = u.table from hv, ← show t.table = r.table from ht]
    exact hu

/-- `SYS_CLONE` starts a thread under the first free PID. -/
theorem moves_sysClone (hm : m.label = .other ∧ m.mr 0 = 101) :
    Ends (sysClone sel4 boot sender m) r fun _ t => r.table.Moves m t.table := by
  refine .bind (.get ?_)
  cases hfree : r.freePid with
  | none => exact moves_of_sameTable ((quiet_sameTable sel4).reply _)
  | some p =>
    have hR := (quiet_sameTable sel4).toFrame
    refine .seq (ends_setPcb p _ r) fun _ t ht => ?_
    have hp := (Root.freePid_eq_some hfree).2.2
    refine .seq ((quiet_sameTable sel4).cloneBody sender hp m t) fun _ u hu => ?_
    refine .seq (Keeps.onlyIf hR (sameTable_setPipe _ _) u) fun _ v hv => .bind (.get ?_)
    refine .seq (sameTable_sys _ v) fun _ w hw => ?_
    refine ((quiet_sameTable sel4).reply _ w).mono fun _ x hx => ?_
    obtain rfl := ht
    have htable : x.table = (r.setPcb p fun _ => Pcb.freshThread (r.pcbs sender)).table :=
      hx.trans (hw.trans (hv.trans hu))
    rw [htable, table_setPcb]
    exact .create p shellThreadName 0 ⟨hm.1, .inr hm.2⟩ hfree (.inr ⟨rfl, rfl⟩)

/-- A fatal fault recovers its sender. -/
theorem moves_fatalFault (hm : r.table.Recovers m sender) :
    Ends (fatalFault sel4 boot sender) r fun _ t => r.table.Moves m t.table :=
  .onlyIf (fun _ => table_genericRecoverProcess sender m r hm) fun _ => .same

/-- `SYS_RECOVER` does so on request. -/
theorem moves_sysRecover (hm : m.label = .other ∧ m.mr 0 = 117) :
    Ends (sysRecover sel4 boot m) r fun _ t => r.table.Moves m t.table := by
  refine .bind (.get ?_)
  cases hfind : pids.find? fun i => (r.pcbs i).active && (r.pcbs i).name = m.driverName with
  | none => exact moves_of_sameTable ((quiet_sameTable sel4).reply _)
  | some p =>
    refine .seq (table_genericRecoverProcess p m r (.recover hm hfind)) fun _ t ht => ?_
    exact ((quiet_sameTable sel4).reply _ t).mono fun _ u hu => by
      rw [show u.table = t.table from hu]
      exact ht

/-- `SYS_KILL` and `SYS_EXIT` end the process. -/
theorem table_deleteProcess (p : ℕ) (pcb : Pcb) :
    Ends (deleteProcess sel4 boot p pcb) r fun _ t => t.table = r.table.stop p := by
  have hR := (quiet_sameTable sel4).toFrame
  refine .seq (ends_setPcb p _ r) fun _ t ht => ?_
  refine .seq (sameTable_sys _ t) fun _ u hu => .seq (sameTable_sys _ u) fun _ v hv => ?_
  refine (Keeps.onlyIf hR (.bind hR (sameTable_sys _) fun _ => .pure hR _) v).mono
    fun _ w hw => ?_
  rw [show w.table = t.table from hw.trans (hv.trans hu), ht, table_setPcb]
  rfl

/-- `SYS_KILL` stops its target, or recovers a driver. -/
theorem moves_sysKill (hm : m.label = .other ∧ m.mr 0 = 102) :
    Ends (sysKill sel4 boot m) r fun _ t => r.table.Moves m t.table := by
  refine .bind (.get ?_)
  dsimp only
  generalize hx : toInt32 (m.mr 1) = x
  refine .ite (fun h => ?_) fun _ => moves_of_sameTable ((quiet_sameTable sel4).reply _)
  obtain ⟨p, rfl⟩ : ∃ p : ℕ, x = p := ⟨x.toNat, (Int.toNat_of_nonneg h.1.le).symm⟩
  have halive : r.table.Alive p := ⟨h.2.2, by omega, by omega⟩
  refine .ite (fun _ => ?_) fun hcrit => ?_
  · refine .seq (table_genericRecoverProcess p m r (.kill hm hx)) fun _ t ht => ?_
    refine ((quiet_sameTable sel4).reply _ t).mono fun _ u hu => ?_
    rw [show u.table = t.table from hu]
    exact ht
  · refine .seq ((quiet_sameTable sel4).stopThread _ r) fun _ t ht => ?_
    refine .seq (table_deleteProcess _ _) fun _ u hu => ?_
    refine ((quiet_sameTable sel4).reply _ u).mono fun _ v hv => ?_
    rw [show v.table = u.table from hv, hu, show t.table = r.table from ht]
    exact .kill p hm hx halive (not_or.mp hcrit)

/-- `SYS_EXIT` stops its sender and wakes those who wait for it. -/
theorem moves_sysExit (hm : m.label = .other ∧ m.mr 0 = 103)
    (hsender : r.table.senderPid m.badge = some sender) :
    Ends (sysExit sel4 boot sender) r fun _ t => r.table.Moves m t.table := by
  refine .onlyIf (fun hpos => ?_) fun _ => .same
  refine .seq (sameTable_closePipesOf sender r) fun _ t ht => ?_
  refine .seq (table_forM_wake hpos (table_wake sender) pids t) fun _ u hu => .bind (.get ?_)
  refine .seq ((quiet_sameTable sel4).stopThread _ u) fun _ v hv => ?_
  refine (table_deleteProcess _ _).mono fun _ w hw => ?_
  rw [hw, show v.table = u.table from hv, hu, show t.table = r.table from ht]
  exact .exit sender (.inl ⟨hm, hsender⟩) (Table.alive_of_senderPid hsender hpos)

/-- A thread that is released is stopped. -/
theorem table_releaseThread (p : ℕ) (pcb : Pcb) :
    Ends (releaseThread sel4 boot p pcb) r fun _ t => t.table = r.table.stop p := by
  have hR := (quiet_sameTable sel4).toFrame
  refine .seq (sameTable_sys _ r) fun _ t ht => ?_
  refine .seq (Q := fun _ u => SameTable t u) (.onlyIf (fun _ => ?_) fun _ => rfl) fun _ u hu => ?_
  · exact (sameTable_sys _ t).seq fun _ _ hu => .pure hu
  refine .seq (Keeps.forM hR (fun _ _ => (quiet_sameTable sel4).releaseCap _) u) fun _ v hv => ?_
  refine (ends_setPcb p _ v).mono fun _ w hw => ?_
  have htable : v.table = r.table := hv.trans (hu.trans ht)
  rw [hw, table_setPcb, ← htable]
  rfl

/-- `SYS_THREAD_EXIT` stops the thread that its badge names. -/
theorem moves_sysThreadExit (hm : m.label = .other ∧ m.mr 0 = 105) :
    Ends (sysThreadExit sel4 boot m) r fun _ t => r.table.Moves m t.table := by
  refine .bind (.get (.onlyIf (fun h => ?_) fun _ => .same))
  have halive : r.table.Alive (m.badge % 2 ^ 16) := ⟨h.2.2, h.1, h.2.1⟩
  refine .seq (sameTable_closePipesOf _ r) fun _ t ht => ?_
  refine .seq (Q := fun _ u => u.table =
    r.table.wakeOne (m.badge % 2 ^ 16) (m.badge / 2 ^ 16 % 2 ^ 16)) ?_ fun _ u hu => .bind (.get ?_)
  · refine .onlyIf (fun hpar => ?_) fun hpar => ?_
    · refine (table_wake _ _ t).mono fun _ u hu => ?_
      rw [hu, Table.wakeOne, if_pos hpar, show t.table = r.table from ht]
    · rw [Table.wakeOne, if_neg hpar]
      exact ht
  · refine Ends.onlyIf (fun hthread => ?_) fun _ => ?_
    · refine (table_releaseThread _ _).mono fun _ v hv => ?_
      rw [hv, hu]
      refine .threadExit hm halive ?_
      have hname : (u.table (m.badge % 2 ^ 16)).name.take 12 = shellThreadName := hthread
      rwa [hu, Table.wakeOne_name] at hname
    · rw [hu]
      exact .threadWake hm halive

/-- Every system call makes a move of the table that its message allows. -/
theorem moves_syscall (hl : m.label = .other) (hsender : r.table.senderPid m.badge = some sender) :
    Ends (syscall sel4 boot sender m) r fun _ t => r.table.Moves m t.table := by
  refine .bind (.get ?_)
  have hreply (mrs : List ℤ) : Ends (reply sel4 mrs) r fun _ t => r.table.Moves m t.table :=
    moves_of_sameTable ((quiet_sameTable sel4).reply mrs)
  split
  · exact hreply _
  · exact hreply _
  · exact moves_of_sameTable sameTable_sysSleep
  · exact hreply _
  · exact moves_of_sameTable (sameTable_sysRead m)
  · exact hreply _
  · exact moves_of_sameTable (sameTable_sysPuts m)
  · exact moves_of_sameTable (sameTable_sysPipe sender m)
  · exact moves_of_sameTable (sameTable_sysPipeWrClose m)
  · exact moves_of_sameTable (sameTable_sysPipeClose m)
  · exact hreply _
  · exact moves_sysExec ⟨hl, ‹_›⟩
  · exact moves_sysClone ⟨hl, ‹_›⟩
  · exact moves_sysKill ⟨hl, ‹_›⟩
  · exact moves_sysExit ⟨hl, ‹_›⟩ hsender
  · exact hreply _
  · exact moves_sysThreadExit ⟨hl, ‹_›⟩
  · exact moves_sysWait ⟨hl, ‹_›⟩ hsender
  · exact moves_of_sameTable ((quiet_sameTable sel4).sysShmGet m)
  · exact hreply _
  · exact moves_of_sameTable (sameTable_sysDriverReady sender)
  · exact moves_of_sameTable sameTable_sysWaitAllDriversReady
  · exact moves_sysRecover ⟨hl, ‹_›⟩
  · exact hreply _

/-- Who sent a message is read off the table. -/
theorem senderPid_table (badge : ℕ) : r.senderPid badge = r.table.senderPid badge := rfl

/-- Every message moves the process table by one of the rules. -/
theorem step_moves {r' : Root K} (h : Step sel4 boot r m r') : r.table.Moves m r'.table := by
  suffices hends : Ends (handle sel4 boot m) r fun _ t => r.table.Moves m t.table from
    hends _ _ h
  refine .bind (.get ?_)
  rw [senderPid_table]
  cases hsender : r.table.senderPid m.badge with
  | none => exact .pure .same
  | some sender =>
    cases hl : m.label with
    | vmFault =>
      refine .ite (fun _ => moves_of_sameTable ((quiet_sameTable sel4).pageFault _ _)) fun hpager => ?_
      refine .ite (fun _ => .throw) fun _ => moves_fatalFault ?_
      exact .fault hsender (by rw [hl]; decide) fun _ => hpager
    | capFault =>
      exact moves_fatalFault (.fault hsender (by rw [hl]; decide) fun h => by rw [hl] at h; cases h)
    | other => exact moves_syscall hl hsender

/-- A system call of an accepted sender runs the switch. -/
theorem step_syscall {r' : Root K} (h : Step sel4 boot r m r')
    (hsender : r.table.senderPid m.badge = some sender) (hl : m.label = .other) :
    (syscall sel4 boot sender m).run r = .ok (⟨⟩, r') := by
  rw [Step, handle, run_bind, run_get] at h
  simp only [senderPid_table, hsender, hl] at h
  exact h

/-- A message with a badge nobody has is ignored. -/
theorem step_ignored {r' : Root K} (h : Step sel4 boot r m r')
    (hsender : r.table.senderPid m.badge = none) : r' = r := by
  rw [Step, handle, run_bind, run_get] at h
  simp only [senderPid_table, hsender] at h
  cases h
  rfl

/-- A `SYS_WAIT` on a process that is alive parks the sender. -/
theorem step_wait {r' : Root K} (h : Step sel4 boot r m r')
    (hsender : r.table.senderPid m.badge = some sender) (hm : m.label = .other ∧ m.mr 0 = 106)
    {target : ℕ} (hx : toInt32 (m.mr 1) = target) (halive : r.table.Alive target) :
    r'.table = Function.update r.table sender { r.table sender with waitingFor := target } := by
  have hrun := step_syscall h hsender hm.1
  rw [syscall, run_bind, run_get, hm.2] at hrun
  exact table_sysWait hx halive _ _ hrun

end

/-- The message ends `p` with `SYS_EXIT`, or as a thread with `SYS_THREAD_EXIT`. -/
def Table.Exits (T : Table) (m : Message) (p : ℕ) : Prop :=
  (m.label = .other ∧ m.mr 0 = 103) ∧ T.senderPid m.badge = some p ∨
    ((m.label = .other ∧ m.mr 0 = 105) ∧ p = m.badge % 2 ^ 16) ∧
      (T p).name.take 12 = shellThreadName

/-- A process that is alive survives every message, but for its own exit, its end as a thread and
its recovery or kill. -/
theorem Table.Moves.survives {T T' : Table} {m : Message} (h : T.Moves m T') {w : ℕ}
    (hw : (T w).active = true) : (T' w).active = true ∨ T.Recovers m w ∨ T.Exits m w := by
  cases h with
  | same => exact .inl hw
  | wait sender target =>
    refine .inl ?_
    by_cases hs : w = sender
    · subst hs
      rw [Function.update_self]
      exact hw
    · rw [Function.update_of_ne hs]
      exact hw
  | create p name isDriver hm hfree =>
    refine .inl ?_
    by_cases hp : w = p
    · subst hp
      rw [start_self]
    · rwa [start_of_ne hp]
  | exit p hm hp =>
    by_cases hwp : w = p
    · subst hwp
      exact hm.elim (fun h => .inr (.inr (.inl h))) fun h => .inr (.inl h)
    · exact .inl (stop_active.mpr ⟨hwp, by rwa [wakeAll_active]⟩)
  | respawn p n hm hp hcrit hfree =>
    by_cases hwp : w = p
    · subst hwp
      exact .inr (.inl hm)
    · refine .inl (stop_active.mpr ⟨hwp, ?_⟩)
      by_cases hn : w = n
      · subst hn
        rw [start_self]
      · rwa [start_of_ne hn, wakeAll_active]
  | kill p hm harg hp hrole =>
    by_cases hwp : w = p
    · subst hwp
      exact .inr (.inl (.kill hm harg))
    · exact .inl (stop_active.mpr ⟨hwp, hw⟩)
  -- the badge names the thread that ends, whoever sends it
  | threadExit hm hp hname =>
    by_cases hwp : w = m.badge % 2 ^ 16
    · refine .inr (.inr (.inr ⟨⟨hm, hwp⟩, ?_⟩))
      rwa [hwp]
    · left
      rw [stop_active, wakeOne_active]
      exact ⟨hwp, hw⟩
  | threadWake hm hp =>
    refine .inl ?_
    rw [wakeOne_active]
    exact hw

/-! ## The table after boot -/

/-- No process. -/
def Table.blank : Table := fun _ => ⟨[], 0, false, 0⟩

/-- The processes after boot: the four drivers and the shell, at the PIDs 1 to 5. -/
def Table.booted : Table :=
  ((((Table.blank.start 1 uartDriverName 1).start 2 timerDriverName 2).start 3 blkDriverName 3).start
    4 netDriverName 4).start 5 shellName 0

/-- Behind the five processes of the start the table is empty. -/
theorem Table.booted_of_ne {p : ℕ} (h : ¬ (1 ≤ p ∧ p ≤ 5)) : Table.booted p = ⟨[], 0, false, 0⟩ := by
  obtain ⟨h1, h2, h3, h4, h5⟩ : p ≠ 1 ∧ p ≠ 2 ∧ p ≠ 3 ∧ p ≠ 4 ∧ p ≠ 5 := by omega
  simp [Table.booted, Table.start, Table.blank, h1, h2, h3, h4, h5]

/-- One start at boot takes the first free PID. -/
theorem table_bootProcess (p : CString × Role) (r : Root K) :
    Ends (bootProcess sel4 boot p) r fun _ t => ∃ pid, r.table.freePid = some pid ∧
      t.table = r.table.start pid (p.1.take 31) p.2.isDriver := by
  refine .seq (table_spawnProcess _ _ _ r) fun pid t ht => ?_
  refine .ite (fun _ => .throw) fun hpid => .pure ?_
  rcases ht with ⟨rfl, -⟩ | ⟨p, hfree, -, ht⟩
  · omega
  · exact ⟨p, hfree, ht⟩

/-- The table after starting processes one after the other. -/
def Table.startAll : List (CString × Role) → Table → Table
  | [], T => T
  | p :: ps, T => startAll ps (match T.freePid with
    | some pid => T.start pid (p.1.take 31) p.2.isDriver
    | none => T)

/-- So the processes of the start stand in the order of the list. -/
theorem table_bootAll (ps : List (CString × Role)) (r : Root K) :
    Ends (forM ps (bootProcess sel4 boot)) r fun _ t => t.table = r.table.startAll ps := by
  induction ps generalizing r with
  | nil => exact .pure rfl
  | cons p ps ih =>
    rw [List.forM_cons]
    refine .seq (table_bootProcess p r) fun _ t ht => (ih t).mono fun _ u hu => ?_
    obtain ⟨pid, hfree, ht⟩ := ht
    rw [hu, ht, Table.startAll, hfree]

/-- Boot puts the drivers and the shell at the PIDs 1 to 5. -/
theorem table_of_booted {dev : Devices} {r : Root K} (h : Booted sel4 boot dev r) :
    r.table = Table.booted := by
  obtain ⟨k, alloc, -, -, hrun⟩ := h
  exact table_bootAll _ _ _ _ hrun

end PsychWard.Rootserver
