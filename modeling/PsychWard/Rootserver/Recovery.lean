import PsychWard.Common.Run
import PsychWard.Rootserver.Life

/-!
# Recovery of the system components

The four drivers and the shell exist once each. `generic_recover_process` starts the replacement of
a component while the failed process still has its PID, so it needs another PID that is free;
`SYS_RECOVER` moreover takes the first process that has the name it is given, and an application may
have the name of a driver.

`Table.Roles` is the invariant of runs from boot: a component has the name it was booted with, and
no two processes are the same component. From it, the outcome of a recovery is known exactly.
-/

namespace PsychWard.Rootserver

open Program

variable {K : Type} {sel4 : SeL4 K} {boot : Boot}

/-- A system driver or the shell. -/
def Life.Component (x : Life) : Prop :=
  1 ≤ x.isDriver ∧ x.isDriver ≤ 4 ∨ x.isDriver = 0 ∧ x.name = shellName

instance (x : Life) : Decidable x.Component := inferInstanceAs (Decidable (_ ∨ _))

/-- The name under which a component is booted. -/
def componentName (isDriver : ℤ) : CString :=
  if isDriver = 1 then uartDriverName
  else if isDriver = 2 then timerDriverName
  else if isDriver = 3 then blkDriverName
  else if isDriver = 4 then netDriverName
  else shellName

/-- A component has one of the five roles. -/
theorem Life.Component.role {x : Life} (h : x.Component) : x.isDriver ∈ [0, 1, 2, 3, 4] := by
  rcases h with h | h
  · simp only [List.mem_cons, List.not_mem_nil, or_false]
    omega
  · simp [h.1]

/-- A component is critical. -/
theorem Life.Component.critical {x : Life} (h : x.Component) :
    0 < x.isDriver ∨ x.name = shellName :=
  h.imp (fun h => by omega) fun h => h.2

/-- The name of a component fits into its block. -/
theorem componentName_take : ∀ d ∈ [(0 : ℤ), 1, 2, 3, 4],
    (componentName d).take 31 = componentName d := by decide

theorem shellThreadName_ne : shellThreadName ≠ shellName := by decide

namespace Table

variable {T T' : Table} {m : Message} {p q : ℕ}

/-- The message comes from an accepted sender and asks for the recovery of `q`: `q` has a fault the
pager does not handle, is the target of `SYS_KILL`, or has the name that `SYS_RECOVER` carries. -/
inductive Targets (T : Table) (m : Message) (q : ℕ) : Prop
  | fault (hsender : T.senderPid m.badge = some q) (hl : m.label ≠ .other)
      (hpager : m.label = .vmFault → ¬ (0x510000 ≤ m.mr 1 ∧ m.mr 1 < 0x600000 ∧ q ≠ 0))
  | kill (sender : ℕ) (hsender : T.senderPid m.badge = some sender)
      (hm : m.label = .other ∧ m.mr 0 = 102) (harg : toInt32 (m.mr 1) = q)
  | recover (sender : ℕ) (hsender : T.senderPid m.badge = some sender)
      (hm : m.label = .other ∧ m.mr 0 = 117) (hname : m.driverName = (T q).name)

/-- Exactly one process is now the component that `q` was, and `q` is not in use. -/
def Restored (T T' : Table) (q : ℕ) : Prop :=
  (∃! p, T'.Alive p ∧ (T' p).Component ∧ (T' p).isDriver = (T q).isDriver) ∧
    (T' q).active = false

/-- There is a free PID, and no process with the name in a `SYS_RECOVER` has a lower PID. -/
def Recoverable (T : Table) (m : Message) (q : ℕ) : Prop :=
  (∃ n, 0 < n ∧ n < 256 ∧ (T n).active = false) ∧
    (m.label = .other ∧ m.mr 0 = 117 → ∀ p, p < q → T.Alive p → (T p).name ≠ (T q).name)

/-- The components have their names, and none of them exists twice. -/
structure Roles (T : Table) : Prop where
  name : ∀ p, T.Alive p → (T p).Component → (T p).name = componentName (T p).isDriver
  unique : ∀ p q, T.Alive p → T.Alive q → (T p).Component → (T q).Component →
    (T p).isDriver = (T q).isDriver → p = q

/-- The table after a component has been recovered: the replacement is started at the first free
PID, if there is one, and then the old process ends. -/
def recovery (p : ℕ) (T : Table) : Table :=
  match T.freePid with
  | none => (T.wakeAll p).stop p
  | some n => ((T.wakeAll p).start n ((T p).name.take 31) (T p).isDriver).stop p

/-- Without a free PID the component is gone. -/
theorem recovery_of_full (h : T.freePid = none) : T.recovery p = (T.wakeAll p).stop p := by
  rw [recovery, h]

/-- With one it is started there. -/
theorem recovery_of_free {n : ℕ} (h : T.freePid = some n) : T.recovery p =
    ((T.wakeAll p).start n ((T p).name.take 31) (T p).isDriver).stop p := by
  rw [recovery, h]

/-- Without a free PID all are in use. -/
theorem freePid_eq_none (h : T.freePid = none) (hp : 0 < p ∧ p < 256) : (T p).active = true := by
  have hfree := List.find?_eq_none.mp h p (mem_pids.mpr hp)
  simpa using hfree

/-- A free PID is found if there is one. -/
theorem exists_free_iff : (∃ n, 0 < n ∧ n < 256 ∧ (T n).active = false) ↔
    ∃ n, T.freePid = some n := by
  constructor
  · rintro ⟨n, hpos, hlt, hn⟩
    cases hfree : T.freePid with
    | none => rw [freePid_eq_none hfree ⟨hpos, hlt⟩] at hn; cases hn
    | some n => exact ⟨n, rfl⟩
  · rintro ⟨n, hfree⟩
    obtain ⟨hn, hpos, hlt⟩ := freePid_eq_some hfree
    exact ⟨n, hpos, hlt, hn⟩

/-- The loop of `SYS_RECOVER` finds `q` if no process of its name has a lower PID. -/
theorem find_name_iff (hq : T.Alive q) (hname : m.driverName = (T q).name) :
    (pids.find? fun i => (T i).active && (T i).name = m.driverName) = some q ↔
      ∀ p, p < q → T.Alive p → (T p).name ≠ (T q).name := by
  rw [pids, List.find?_range'_eq_some, hname]
  constructor
  · rintro ⟨-, -, hfirst⟩ p hp halive heq
    have hno := hfirst p halive.2.1 hp
    simp [halive.1, heq] at hno
  · intro hfirst
    refine ⟨by simp [hq.1], mem_pids.mpr hq.2, fun p hpos hp => ?_⟩
    by_cases hactive : (T p).active = true
    · have hne := hfirst p hp ⟨hactive, hpos, hp.trans hq.2.2⟩
      simp [hactive, hne]
    · simp [hactive]

/-! ## What a message does to the components -/

/-- Where every process of the new table is an old one, nothing happens to the components. -/
theorem Roles.of_old (h : T.Roles) (hold : ∀ p, T'.Alive p → T.Alive p ∧
    (T' p).name = (T p).name ∧ (T' p).isDriver = (T p).isDriver) : T'.Roles := by
  have hcomp (p : ℕ) (hp : T'.Alive p) (hc : (T' p).Component) : (T p).Component := by
    obtain ⟨-, hname, hrole⟩ := hold p hp
    rwa [Life.Component, hname, hrole] at hc
  constructor
  · intro p hp hc
    obtain ⟨halive, hname, hrole⟩ := hold p hp
    rw [hname, hrole]
    exact h.name p halive (hcomp p hp hc)
  · intro p q hp hq hcp hcq heq
    apply h.unique p q (hold p hp).1 (hold q hq).1 (hcomp p hp hcp) (hcomp q hq hcq)
    rw [← (hold p hp).2.2, ← (hold q hq).2.2, heq]

/-- Whoever else is alive was so before. -/
theorem alive_start {n x : ℕ} {name : CString} {isDriver : ℤ}
    (hx : (T.start n name isDriver).Alive x) (hne : x ≠ n) : T.Alive x := by
  rw [Alive, start_of_ne hne] at hx
  exact hx

/-- Starting something that is no component adds none. -/
theorem Roles.start_other (h : T.Roles) {n : ℕ} {name : CString} {isDriver : ℤ}
    (hother : ¬ Life.Component ⟨name, isDriver, true, 0⟩) : (T.start n name isDriver).Roles := by
  have hne (x : ℕ) (hx : ((T.start n name isDriver) x).Component) : x ≠ n := by
    rintro rfl
    rw [start_self] at hx
    exact hother hx
  constructor
  · intro x hx hc
    have hx' := alive_start hx (hne x hc)
    have hnex := hne x hc
    rw [start_of_ne hnex] at hc ⊢
    exact h.name x hx' hc
  · intro x y hx hy hcx hcy heq
    have hx' := alive_start hx (hne x hcx)
    have hy' := alive_start hy (hne y hcy)
    have hnex := hne x hcx
    have hney := hne y hcy
    rw [start_of_ne hnex] at hcx heq
    rw [start_of_ne hney] at hcy heq
    exact h.unique x y hx' hy' hcx hcy heq

/-- Stopping ends one life. -/
theorem alive_stop {x : ℕ} : (T.stop p).Alive x ↔ x ≠ p ∧ T.Alive x := by
  rw [Alive, Alive, stop_active, and_assoc]

/-- Waking ends none. -/
theorem alive_wakeAll {x : ℕ} : (T.wakeAll p).Alive x ↔ T.Alive x := by
  rw [Alive, Alive, wakeAll_active]

/-- Stopping changes one PCB. -/
theorem stop_of_ne {x : ℕ} (h : x ≠ p) : (T.stop p) x = T x := Function.update_of_ne h ..

/-- A role without a process is no clash. -/
theorem Roles.stop (h : T.Roles) : (T.stop p).Roles := by
  apply h.of_old
  intro x hx
  obtain ⟨hne, halive⟩ := alive_stop.mp hx
  rw [stop_of_ne hne]
  exact ⟨halive, rfl, rfl⟩

/-- Waking changes no role. -/
theorem Roles.wakeAll (h : T.Roles) : (T.wakeAll p).Roles := by
  apply h.of_old
  intro x hx
  exact ⟨alive_wakeAll.mp hx, wakeAll_name .., wakeAll_isDriver ..⟩

/-- Nor does waking one. -/
theorem Roles.wakeOne (h : T.Roles) : (T.wakeOne p q).Roles := by
  apply h.of_old
  intro x hx
  rw [Alive, wakeOne_active] at hx
  exact ⟨hx, wakeOne_name .., wakeOne_isDriver ..⟩

/-- Replacing a component by itself keeps the components. -/
theorem Roles.replace (h : T.Roles) (hp : T.Alive p) (hc : (T p).Component) (n : ℕ) :
    ((T.start n ((T p).name.take 31) (T p).isDriver).stop p).Roles := by
  have hname : (T p).name.take 31 = (T p).name := by
    rw [h.name p hp hc]
    exact componentName_take _ hc.role
  rw [hname]
  -- a process of the new table is the replacement or an old one
  have hold (x : ℕ) (hne : x ≠ p) : x = n ∨ x ≠ n ∧
      ((T.start n (T p).name (T p).isDriver).stop p) x = T x := by
    rw [stop_of_ne hne]
    exact (eq_or_ne x n).imp_right fun hx => ⟨hx, start_of_ne hx⟩
  have hnew (hne : n ≠ p) : ((T.start n (T p).name (T p).isDriver).stop p) n =
      ⟨(T p).name, (T p).isDriver, true, 0⟩ := by
    rw [stop_of_ne hne, start_self]
  -- an old process with the role of `p` would be `p`
  have hother (x : ℕ) (hx : x ≠ p) (hn : x ≠ n)
      (halive : ((T.start n (T p).name (T p).isDriver).stop p).Alive x)
      (hcx : (T x).Component) : (T x).isDriver ≠ (T p).isDriver := by
    intro heq
    exact hx (h.unique x p (alive_start (alive_stop.mp halive).2 hn) hp hcx hc heq)
  constructor
  · intro x hx hcx
    have hne := (alive_stop.mp hx).1
    rcases hold x hne with rfl | ⟨hn, hx'⟩
    · rw [hnew hne]
      exact h.name p hp hc
    · rw [hx'] at hcx ⊢
      exact h.name x (alive_start (alive_stop.mp hx).2 hn) hcx
  · intro x y hx hy hcx hcy heq
    have hnex := (alive_stop.mp hx).1
    have hney := (alive_stop.mp hy).1
    rcases hold x hnex with rfl | ⟨hxn, hx'⟩ <;> rcases hold y hney with hyn | ⟨hyn, hy'⟩
    · exact hyn.symm
    · rw [hnew hnex, hy'] at heq
      rw [hy'] at hcy
      exact absurd heq.symm (hother y hney hyn hy hcy)
    · subst hyn
      rw [hnew hney, hx'] at heq
      rw [hx'] at hcx
      exact absurd heq (hother x hnex hxn hx hcx)
    · rw [hx', hy'] at heq
      rw [hx'] at hcx
      rw [hy'] at hcy
      exact h.unique x y (alive_start (alive_stop.mp hx).2 hxn)
        (alive_start (alive_stop.mp hy).2 hyn) hcx hcy heq

/-- No message changes which components there are, but to end some. -/
theorem Roles.of_moves (h : T.Roles) (hmove : T.Moves m T') : T'.Roles := by
  cases hmove with
  | same => exact h
  | wait sender target =>
    apply h.of_old
    intro x hx
    by_cases hs : x = sender
    · subst hs
      rw [Alive, Function.update_self] at hx
      rw [Function.update_self]
      exact ⟨hx, rfl, rfl⟩
    · rw [Alive, Function.update_of_ne hs] at hx
      rw [Function.update_of_ne hs]
      exact ⟨hx, rfl, rfl⟩
  | create p name isDriver hm hfree hrole =>
    apply h.start_other
    rintro (hc | hc)
    · have hd : 1 ≤ isDriver ∧ isDriver ≤ 4 := hc
      omega
    · have hd : isDriver = 0 := hc.1
      rcases hrole with hrole | ⟨-, hname⟩
      · omega
      · exact shellThreadName_ne (hname.symm.trans hc.2)
  | exit p => exact h.wakeAll.stop
  | respawn p n hm hp hcrit =>
    rw [← wakeAll_name p p, ← wakeAll_isDriver p p]
    by_cases hc : (T p).Component
    · apply h.wakeAll.replace (alive_wakeAll.mpr hp)
      rwa [Life.Component, wakeAll_name, wakeAll_isDriver]
    · refine (h.wakeAll.start_other fun hnew => hc ?_).stop
      rw [wakeAll_name, wakeAll_isDriver] at hnew
      -- with role 0 only the shell is started again
      have hrole : (T p).isDriver = 0 → (T p).name = shellName :=
        fun h0 => hcrit.resolve_left (by omega)
      exact hnew.imp_right fun hnew => ⟨hnew.1, hrole hnew.1⟩
  | kill p => exact h.stop
  | threadExit => exact h.wakeOne.stop
  | threadWake => exact h.wakeOne

/-- After boot every role is taken once. -/
theorem roles_booted : booted.Roles := by
  have halive (p : ℕ) (hp : booted.Alive p) : p ∈ [1, 2, 3, 4, 5] := by
    by_contra hno
    simp only [List.mem_cons, List.not_mem_nil, or_false, not_or] at hno
    obtain ⟨h1, h2, h3, h4, h5⟩ := hno
    have hactive := hp.1
    rw [booted, start_of_ne h5, start_of_ne h4, start_of_ne h3, start_of_ne h2,
      start_of_ne h1] at hactive
    cases hactive
  have hname : ∀ p ∈ [1, 2, 3, 4, 5], (booted p).name = componentName (booted p).isDriver := by
    decide
  have hrole : ∀ p ∈ [1, 2, 3, 4, 5], ∀ q ∈ [1, 2, 3, 4, 5],
      (booted p).isDriver = (booted q).isDriver → p = q := by decide
  constructor
  · intro p hp _
    exact hname p (halive p hp)
  · intro p q hp hq _ _ heq
    exact hrole p (halive p hp) q (halive q hq) heq

/-! ## The outcome of a recovery -/

/-- With a free PID, the component is there once and the old process is gone. -/
theorem restored_of_free (h : T.Roles) (hq : T.Alive q) (hc : (T q).Component) {n : ℕ}
    (hfree : T.freePid = some n) : T.Restored (T.recovery q) q := by
  obtain ⟨hn, hpos, hlt⟩ := freePid_eq_some hfree
  have hne : n ≠ q := by
    rintro rfl
    rw [hq.1] at hn
    cases hn
  have hname : (T q).name.take 31 = (T q).name := by
    rw [h.name q hq hc]
    exact componentName_take _ hc.role
  have hroles : (T.recovery q).Roles := by
    rw [recovery_of_free hfree, ← wakeAll_name q q, ← wakeAll_isDriver q q]
    apply h.wakeAll.replace (alive_wakeAll.mpr hq)
    rwa [Life.Component, wakeAll_name, wakeAll_isDriver]
  have hself : (T.recovery q) n = ⟨(T q).name, (T q).isDriver, true, 0⟩ := by
    rw [recovery_of_free hfree, stop_of_ne hne, start_self, hname]
  have hcomp : ((T.recovery q) n).Component := by
    rw [hself]
    exact hc
  have halive : (T.recovery q).Alive n := ⟨by rw [hself], hpos, hlt⟩
  refine ⟨⟨n, ⟨halive, hcomp, by rw [hself]⟩, ?_⟩, ?_⟩
  · rintro x ⟨hx, hcx, hrole⟩
    apply hroles.unique x n hx halive hcx hcomp
    rw [hrole, hself]
  · rw [recovery_of_free hfree]
    rw [← Bool.not_eq_true, stop_active]
    exact fun h => h.1 rfl

/-- Without a free PID, the component is gone. -/
theorem not_restored_of_full (h : T.Roles) (hq : T.Alive q) (hc : (T q).Component)
    (hfree : T.freePid = none) : ¬ T.Restored (T.recovery q) q := by
  rintro ⟨⟨x, ⟨hx, hcx, hrole⟩, -⟩, -⟩
  rw [recovery_of_full hfree] at hx hcx hrole
  obtain ⟨hne, halive⟩ := alive_stop.mp hx
  rw [stop_of_ne hne] at hcx hrole
  rw [Life.Component, wakeAll_name, wakeAll_isDriver] at hcx
  rw [wakeAll_isDriver] at hrole
  exact hne (h.unique x q (alive_wakeAll.mp halive) hq hcx hc hrole)

end Table

/-! ## Runs -/

/-- Every name that is booted is in the archive. -/
theorem cpio_of_bootAll (ps : List (CString × Role)) (r : Root K) :
    Ends (forM ps (bootProcess sel4 boot)) r fun _ _ =>
      ∀ p ∈ ps, ∃ image, boot.cpioGetFile p.1 = some image := by
  induction ps generalizing r with
  | nil => exact .pure (by simp)
  | cons p ps ih =>
    rw [List.forM_cons]
    refine .seq (Q := fun _ _ => ∃ image, boot.cpioGetFile p.1 = some image) ?_ ?_
    · cases hfile : boot.cpioGetFile p.1 with
      | some image => exact fun _ _ _ => ⟨image, rfl⟩
      | none =>
        rw [bootProcess, spawnProcess, hfile]
        exact .bind (.pure (.ite (fun _ => .throw) fun hno => absurd (by decide) hno))
    · intro _ t himage
      refine (ih t).mono fun _ _ hrest => ?_
      intro q hq
      rcases List.mem_cons.mp hq with rfl | hq
      · exact himage
      · exact hrest q hq

/-- A boot that comes back has found the images of the components. -/
theorem cpio_of_booted {dev : Devices} {r : Root K} (h : Booted sel4 boot dev r) {d : ℤ}
    (hd : d ∈ [(0 : ℤ), 1, 2, 3, 4]) : ∃ image, boot.cpioGetFile (componentName d) = some image := by
  obtain ⟨k, alloc, -, -, hrun⟩ := h
  have hall := cpio_of_bootAll _ _ _ _ hrun
  have hname : componentName d ∈ (bootProcesses boot dev).map Prod.fst := by
    change componentName d ∈
      [uartDriverName, timerDriverName, blkDriverName, netDriverName, shellName]
    revert d
    decide
  obtain ⟨p, hp, hpd⟩ := List.mem_map.mp hname
  rw [← hpd]
  exact hall p hp

/-- The roles in every state. -/
theorem roles_of_run {dev : Devices} {r r' : Root K} {es : List Message}
    (hboot : Booted sel4 boot dev r) (hrun : Run (Step sel4 boot) r es r') : r'.table.Roles := by
  apply hrun.invariant (I := fun r : Root K => r.table.Roles)
  · intro r m r' h hstep
    exact h.of_moves (step_moves hstep)
  · rw [table_of_booted hboot]
    exact Table.roles_booted

/-- `spawn_process` with an image from the archive fails for want of a PID only. -/
theorem table_spawnImage {name : CString} {image : List ℕ} (role : Role) (r : Root K)
    (himage : boot.cpioGetFile name = some image) :
    Ends (spawnProcess sel4 boot name none role) r fun _ t => t.table =
      match r.table.freePid with
      | none => r.table
      | some n => r.table.start n (name.take 31) role.isDriver := by
  unfold spawnProcess
  rw [show (none.orElse fun _ => boot.cpioGetFile name) = some image from himage]
  refine .bind (.get ?_)
  cases hfree : r.freePid with
  | none =>
    rw [show r.table.freePid = none from hfree]
    exact .pure rfl
  | some n =>
    rw [show r.table.freePid = some n from hfree]
    refine .seq (ends_setPcb n _ r) fun _ t ht => ?_
    refine .seq (table_spawnBody (Root.freePid_eq_some hfree).2.2 image role t) fun _ u hu => .pure ?_
    rw [hu, ht, table_setPcb, Function.update_self, Function.update_idem]
    rfl

/-- `generic_recover_process` on a component whose image is in the archive. -/
theorem table_recovery {r : Root K} {p : ℕ} {image : List ℕ} (hp : r.table.Alive p)
    (hcrit : 0 < (r.table p).isDriver ∨ (r.table p).name = shellName)
    (himage : boot.cpioGetFile (r.table p).name = some image) :
    Ends (genericRecoverProcess sel4 boot p) r fun _ t => t.table = r.table.recovery p := by
  refine .bind (.get (.ite (fun h => ?_) fun _ => ?_))
  · rcases h with h | h | h
    · have := hp.2.1
      omega
    · have := hp.2.2
      omega
    · have hactive : (r.pcbs p).active = true := hp.1
      exact absurd (hactive.symm.trans h) (by decide)
  · refine .seq (table_tearDown hp.2.1 _ r) fun _ t ht => ?_
    refine .seq (Q := fun _ u => u.table = match t.table.freePid with
        | none => t.table
        | some n => t.table.start n ((r.table p).name.take 31) (r.table p).isDriver)
      (.onlyIf (fun _ => ?_) fun h => absurd hcrit h) ?_
    · refine .seq (table_spawnImage _ t himage) fun _ u hu => .pure ?_
      exact hu
    · intro _ u hu
      refine (ends_setPcb p _ u).mono fun _ v hv => ?_
      have hstop : v.table = u.table.stop p := by rw [hv, table_setPcb]; rfl
      rw [hstop, hu, ht, Table.freePid_wakeAll, Table.recovery]
      cases r.table.freePid <;> rfl

/-- The message asks for the recovery of a component, and `SYS_RECOVER` finds no other process of
the same name: the table becomes that of a recovery. -/
theorem step_recovery {r r' : Root K} {m : Message} {q : ℕ} {image : List ℕ}
    (hstep : Step sel4 boot r m r') (hq : r.table.Alive q) (hc : (r.table q).Component)
    (himage : boot.cpioGetFile (r.table q).name = some image) (hm : r.table.Targets m q)
    (hfirst : m.label = .other ∧ m.mr 0 = 117 →
      ∀ p, p < q → r.table.Alive p → (r.table p).name ≠ (r.table q).name) :
    r'.table = r.table.recovery q := by
  have hrecover : Ends (genericRecoverProcess sel4 boot q) r fun _ t =>
      t.table = r.table.recovery q := table_recovery hq hc.critical himage
  -- by the three ways to ask for a recovery
  cases hm with
  | fault hsender hl hpager =>
    have hfatal : Ends (fatalFault sel4 boot q) r fun _ t => t.table = r.table.recovery q :=
      .onlyIf (fun _ => hrecover) fun h => absurd hq.2.1.ne' h
    rw [Step, handle, run_bind, run_get] at hstep
    simp only [senderPid_table, hsender] at hstep
    cases hlabel : m.label with
    | other => exact absurd hlabel hl
    | capFault =>
      simp only [hlabel] at hstep
      exact hfatal _ _ hstep
    | vmFault =>
      simp only [hlabel] at hstep
      have hvm : Ends (vmFault sel4 boot q m) r fun _ t => t.table = r.table.recovery q :=
        .ite (fun h => absurd h (hpager hlabel)) fun _ => .ite (fun _ => .throw) fun _ => hfatal
      exact hvm _ _ hstep
  | kill sender hsender hm harg =>
    have hrun := step_syscall hstep hsender hm.1
    rw [syscall, run_bind, run_get, hm.2] at hrun
    have hkill : Ends (sysKill sel4 boot m) r fun _ t => t.table = r.table.recovery q := by
      refine .bind (.get ?_)
      dsimp only
      rw [harg]
      refine .ite (fun _ => .ite (fun _ => ?_) fun h => absurd hc.critical h) fun h => absurd ?_ h
      · refine .seq hrecover fun _ t ht => ?_
        exact ((quiet_sameTable sel4).reply _ t).mono fun _ u hu => hu.trans ht
      · exact ⟨by have := hq.2.1; omega, by have := hq.2.2; omega, hq.1⟩
    exact hkill _ _ hrun
  | recover sender hsender hm hname =>
    have hrun := step_syscall hstep hsender hm.1
    rw [syscall, run_bind, run_get, hm.2] at hrun
    -- the first process of that name is `q`
    have hfind := (Table.find_name_iff hq hname).mpr (hfirst hm)
    have hrec : Ends (sysRecover sel4 boot m) r fun _ t => t.table = r.table.recovery q := by
      refine .bind (.get ?_)
      rw [show (pids.find? fun i => (r.pcbs i).active && (r.pcbs i).name = m.driverName) = some q
        from hfind]
      refine .seq hrecover fun _ t ht => ?_
      exact ((quiet_sameTable sel4).reply _ t).mono fun _ u hu => hu.trans ht
    exact hrec _ _ hrun

/-- In every state of a run from boot, a message that asks for the recovery of a component restores
it exactly when a PID is free and, for `SYS_RECOVER`, no process of the same name has a lower
PID. -/
theorem restored_of_run {dev : Devices} {r₀ r r' : Root K} {es : List Message} {m : Message} {q : ℕ}
    (hboot : Booted sel4 boot dev r₀) (hrun : Run (Step sel4 boot) r₀ es r)
    (hq : r.table.Alive q) (hc : (r.table q).Component) (hm : r.table.Targets m q)
    (hstep : Step sel4 boot r m r') :
    r.table.Restored r'.table q ↔ r.table.Recoverable m q := by
  have hroles := roles_of_run hboot hrun
  obtain ⟨image, himage⟩ := cpio_of_booted hboot hc.role
  rw [← hroles.name q hq hc] at himage
  constructor
  · intro hrestored
    -- another process of the same name would be recovered, and `q` would stay
    have hfirst : m.label = .other ∧ m.mr 0 = 117 →
        ∀ p, p < q → r.table.Alive p → (r.table p).name ≠ (r.table q).name := by
      intro h117
      by_contra hno
      have hstay := (step_moves hstep).survives hq.1
      rw [hrestored.2] at hstay
      rcases hstay with h | h | ⟨h, -⟩ | ⟨⟨h, -⟩, -⟩
      · cases h
      · cases hm with
        | fault _ hl => exact hl h117.1
        | kill _ _ h102 => exact absurd (h117.2.symm.trans h102.2) (by decide)
        | recover _ _ _ hname =>
          cases h with
          | fault _ hl => exact hl h117.1
          | kill h102 => exact absurd (h117.2.symm.trans h102.2) (by decide)
          | recover _ hfind => exact hno ((Table.find_name_iff hq hname).mp hfind)
      · exact absurd (h117.2.symm.trans h.2) (by decide)
      · exact absurd (h117.2.symm.trans h.2) (by decide)
    refine ⟨?_, hfirst⟩
    rw [step_recovery hstep hq hc himage hm hfirst] at hrestored
    rw [Table.exists_free_iff]
    cases hfree : r.table.freePid with
    | none => exact absurd hrestored (Table.not_restored_of_full hroles hq hc hfree)
    | some n => exact ⟨n, rfl⟩
  · rintro ⟨hfree, hfirst⟩
    obtain ⟨n, hfree⟩ := Table.exists_free_iff.mp hfree
    rw [step_recovery hstep hq hc himage hm hfirst]
    exact Table.restored_of_free hroles hq hc hfree

/-! The UART driver is killed and started again at PID 6, and an application called `net_driver`
takes PID 1. -/

/-- A text in message registers. -/
def CString.words (name : CString) : List ℕ :=
  (List.range 4).map fun i => ((name.drop (8 * i)).take 8).foldr (fun b w => b + 256 * w) 0

/-- A system call of the shell. -/
def shellCall (number : ℕ) (args : List ℕ) : Message :=
  { badge := 5, mr := fun n => ((number :: args)[n]?).getD 0 }

/-- The small system after `SYS_KILL` of the UART driver. -/
def killed : Root ℕ :=
  (next serving someBoot smallDisk (shellCall 102 [1])).get (by decide +kernel)

/-- An application called `net_driver` has been started. -/
def mimicked : Root ℕ :=
  (next serving someBoot killed (shellCall 100 (CString.words netDriverName))).get
    (by decide +kernel)

/-- `SYS_RECOVER` of `net_driver` has been served. -/
def mistaken : Root ℕ :=
  (next serving someBoot mimicked (shellCall 117 (CString.words netDriverName))).get
    (by decide +kernel)

theorem step_killed : Step serving someBoot smallDisk (shellCall 102 [1]) killed := step_get _ _ _

theorem step_mimicked : Step serving someBoot killed
    (shellCall 100 (CString.words netDriverName)) mimicked := step_get _ _ _

theorem step_mistaken : Step serving someBoot mimicked
    (shellCall 117 (CString.words netDriverName)) mistaken := step_get _ _ _

/-- `SYS_KILL` of PID 1 is about the driver. -/
theorem targets_killed : smallDisk.table.Targets (shellCall 102 [1]) 1 :=
  .kill 5 (by decide +kernel) ⟨rfl, rfl⟩ (by decide)

/-- `SYS_RECOVER` is about the process that is found under the driver's name. -/
theorem targets_mistaken :
    mimicked.table.Targets (shellCall 117 (CString.words netDriverName)) 4 :=
  .recover 5 (by decide +kernel) ⟨rfl, rfl⟩ (by decide +kernel)

/-- `SYS_KILL` of the UART driver after boot restores it. -/
theorem restored_of_run_killed : smallDisk.table.Restored killed.table 1 := by
  apply (restored_of_run booted_smallDisk .nil (by decide +kernel) (by decide +kernel)
    targets_killed step_killed).mpr
  refine ⟨⟨6, by decide, by decide, by decide +kernel⟩, ?_⟩
  intro h117
  exact absurd h117.2 (by decide)

/-- `SYS_RECOVER` of the network driver takes the application of the same name, and the driver stays
as it is. -/
theorem not_restored_mistaken : Booted serving someBoot someDevices smallDisk ∧
    Run (Step serving someBoot) smallDisk
      ([shellCall 102 [1]] ++ [shellCall 100 (CString.words netDriverName)]) mimicked ∧
    mimicked.table.Alive 4 ∧ (mimicked.table 4).Component ∧
    mimicked.table.Targets (shellCall 117 (CString.words netDriverName)) 4 ∧
    Step serving someBoot mimicked (shellCall 117 (CString.words netDriverName)) mistaken ∧
    ¬ mimicked.table.Restored mistaken.table 4 := by
  refine ⟨booted_smallDisk, (Run.single step_killed).snoc step_mimicked, by decide +kernel,
    by decide +kernel, targets_mistaken, step_mistaken, fun h => ?_⟩
  have hactive : (mistaken.table 4).active = true := by decide +kernel
  rw [h.2] at hactive
  cases hactive

end PsychWard.Rootserver
