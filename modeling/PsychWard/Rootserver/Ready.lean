import PsychWard.Common.Run
import PsychWard.Rootserver.Pipes
import PsychWard.Rootserver.Slots

/-!
# Waiting for the drivers

Each driver reports with `SYS_DRIVER_READY`, and the shell's `SYS_WAIT_ALL_DRIVERS_READY` is answered
when all four have: at once, or by the last report through the reply capability that was saved.
`Vigil` is what an observer of the kernel calls knows of the shell's call: a saved capability can be
answered once, and it is gone when its slot is deleted.

The capability can only be lost when the slot it is saved in is also named elsewhere. A thread keeps
the slot of its creator's address space after that has been released, so this can happen;
`kept_of_run` says that nothing else goes wrong.
-/

namespace PsychWard.Rootserver

open Program

section
variable {K : Type}

/-- The message is the system call `n` of a process that the rootserver serves. -/
def Root.Calls (r : Root K) (m : Message) (n : ℕ) : Prop :=
  (r.senderPid m.badge).isSome ∧ m.label = .other ∧ m.mr 0 = n

instance (r : Root K) (m : Message) (n : ℕ) : Decidable (r.Calls m n) :=
  inferInstanceAs (Decidable (_ ∧ _))

/-- The role of a process as `SYS_DRIVER_READY` reads it. -/
def Root.role (r : Root K) (sender : ℕ) : ℤ := if 0 < sender then (r.pcbs sender).isDriver else 0

/-- The message is a report of the driver with the role `d`. -/
def Root.Reports (r : Root K) (m : Message) (d : ℕ) : Prop :=
  r.Calls m 109 ∧ r.role ((r.senderPid m.badge).getD 0) = d

instance (r : Root K) (m : Message) (d : ℕ) : Decidable (r.Reports m d) :=
  inferInstanceAs (Decidable (_ ∧ _))

end

variable {K : Type} (sel4 : SeL4 K) (boot : Boot)

/-- The kernel saves the reply capability of the current caller in the slot that is allocated
next. -/
def Root.Saves (r : Root (K × List Invocation)) : Prop :=
  (sel4.invoke r.kernel.1 (.cnodeSaveCaller (boot.rootSlot r.alloc.allocSlot.1))).1 = .noError

instance (r : Root (K × List Invocation)) : Decidable (r.Saves sel4 boot) :=
  inferInstanceAs (Decidable (_ = _))

/-- History variables: whether the shell has called, the roles that have reported, the slot that
holds the reply capability of the shell's call, and the number of answers to it. -/
@[ext] structure Vigil where
  called : Bool
  reported : ℕ → Bool
  held : Option ℕ
  answers : ℕ

namespace Vigil

/-- Before the first message. -/
def start : Vigil := ⟨false, fun _ => false, none, 0⟩

/-- What an invocation does to the shell's call. `waits` says that the shell is the current caller,
`saved` that the kernel saves its capability. -/
def see (waits saved : Bool) (v : Vigil) : Invocation → Vigil
  | .reply _ => if waits then { v with answers := v.answers + 1 } else v
  | .cnodeSaveCaller slot => if waits ∧ saved then { v with held := some slot.index } else v
  | .send cap _ =>
    if v.held = some cap then { v with held := none, answers := v.answers + 1 } else v
  | .cnodeDelete slot =>
    if v.held.map boot.rootSlot = some slot then { v with held := none } else v
  | _ => v

/-- The calls and reports that a message is. -/
def note (v : Vigil) (r : Root (K × List Invocation)) (m : Message) : Vigil :=
  { v with
    called := v.called || decide (r.Calls m 110)
    reported := fun d => v.reported d || decide (r.Reports m d) }

/-- The history after a message. -/
def after (v : Vigil) (r : Root (K × List Invocation)) (m : Message)
    (r' : Root (K × List Invocation)) : Vigil :=
  (r'.log.drop r.log.length).foldl (see boot (r.Calls m 110) (r.Saves sel4 boot)) (v.note r m)

end Vigil

/-- A state of the rootserver with its history. -/
abbrev Watched (K : Type) := Root (K × List Invocation) × Vigil

/-- The shell waits once, and a slot is to be had when it does. -/
def WaitsOnce (x : Watched K) (m : Message) : Prop :=
  x.1.Calls m 110 → x.2.called = false ∧
    (x.1.allDriversReady = false → x.1.alloc.allocSlot.1 ≠ 0 ∧ x.1.Saves sel4 boot)

/-- A step of the rootserver together with its history. -/
def WatchedStep (x : Watched K) (m : Message) (y : Watched K) : Prop :=
  Step (recorded sel4) boot x.1 m y.1 ∧ WaitsOnce sel4 boot x m ∧
    y.2 = x.2.after sel4 boot x.1 m y.1

variable {sel4 boot}

/-- When the shell has to wait, nobody else uses the slot its reply capability is saved in. -/
def Unshared (x : Watched K) (m : Message) : Prop :=
  x.1.Calls m 110 → x.1.allDriversReady = false →
    Root.Avoids (x.1.alloc.allocSlot.1 = ·) (· = 0) { x.1 with alloc := x.1.alloc.allocSlot.2 }

/-- The shell's call is answered at most once, not before every driver has reported, and it has been
answered as soon as both have happened; until then its reply capability is where the rootserver
looks for it. -/
structure Kept (x : Watched K) : Prop where
  once : x.2.answers ≤ 1
  early : 0 < x.2.answers → x.2.called = true ∧ ∀ d, 1 ≤ d → d ≤ 4 → x.2.reported d = true
  served : x.2.called = true → (∀ d, 1 ≤ d → d ≤ 4 → x.2.reported d = true) → x.2.answers = 1
  waiting : x.2.called = true → x.2.answers = 0 → x.2.held = some x.1.driverReadyWaitReply

/-! ## The shell's call through one step -/

namespace Vigil

variable {v : Vigil} {saved : Bool}

theorem see_of_unused {i : Invocation} (h : ¬ i.Uses boot (fun s => v.held = some s)) :
    v.see boot false saved i = v := by
  cases i with
  | send cap mrs => exact if_neg h
  | cnodeDelete slot =>
    refine if_neg fun hheld => h ?_
    obtain ⟨s, hs, rfl⟩ := Option.map_eq_some_iff.mp hheld
    exact ⟨s, hs, rfl⟩
  | reply mrs => rfl
  | cnodeSaveCaller slot => rfl
  | _ => rfl

/-- Invocations that do not use the slot do nothing to the call. -/
theorem foldl_see_of_unused {ext : List Invocation}
    (h : ∀ i ∈ ext, ¬ i.Uses boot (fun s => v.held = some s)) :
    ext.foldl (see boot false saved) v = v := by
  induction ext with
  | nil => rfl
  | cons i ext ih =>
    rw [List.foldl_cons, see_of_unused (h i List.mem_cons_self)]
    exact ih fun j hj => h j (List.mem_cons_of_mem i hj)

variable {r r' : Root (K × List Invocation)} {m : Message} {ext : List Invocation}

theorem after_eq (hlog : r'.log = r.log ++ ext) : v.after sel4 boot r m r' =
    ext.foldl (see boot (r.Calls m 110) (r.Saves sel4 boot)) (v.note r m) := by
  rw [after, hlog, List.drop_left]

theorem note_of_not_calls (h109 : ¬ r.Calls m 109) (h110 : ¬ r.Calls m 110) : v.note r m = v := by
  have hreport : ∀ d, ¬ r.Reports m d := fun d hd => h109 hd.1
  simp [note, h110, hreport]

end Vigil

/-! ## The two handlers -/

/-- The roles 1 to 4, one by one. -/
theorem forall_role {P : ℕ → Prop} :
    (∀ d, 1 ≤ d → d ≤ 4 → P d) ↔ ((P 1 ∧ P 2) ∧ P 3) ∧ P 4 := by
  constructor
  · intro h
    exact ⟨⟨⟨h 1 (by omega) (by omega), h 2 (by omega) (by omega)⟩, h 3 (by omega) (by omega)⟩,
      h 4 (by omega) (by omega)⟩
  · rintro ⟨⟨⟨h1, h2⟩, h3⟩, h4⟩ d hd hd'
    obtain rfl | rfl | rfl | rfl : d = 1 ∨ d = 2 ∨ d = 3 ∨ d = 4 := by omega
    · exact h1
    · exact h2
    · exact h3
    · exact h4

/-- `all_drivers_ready` reads the flags of the roles 1 to 4. -/
theorem allDriversReady_iff (r : Root K) :
    r.allDriversReady = true ↔ ∀ d, 1 ≤ d → d ≤ 4 → r.driverReady d = true := by
  simp only [Root.allDriversReady, Bool.and_eq_true]
  exact (forall_role (P := fun d => r.driverReady d = true)).symm

/-- What `SYS_WAIT_ALL_DRIVERS_READY` does. -/
inductive WaitEffect (boot : Boot) (r t : Root (K × List Invocation)) : Prop
  | answered (hready : r.allDriversReady = true) (ht : t = { r with kernel := t.kernel })
      (hlog : t.log = r.log ++ [.reply []])
  | parked (hready : r.allDriversReady = false)
      (ht : t = { r with
        kernel := t.kernel
        alloc := r.alloc.allocSlot.2
        driverReadyWaitReply := r.alloc.allocSlot.1 })
      (hlog : t.log = r.log ++ [.cnodeSaveCaller (boot.rootSlot r.alloc.allocSlot.1)])

theorem ends_sysWaitAllDriversReady (r : Root (K × List Invocation)) :
    Ends (sysWaitAllDriversReady (recorded sel4) boot) r fun _ t => WaitEffect boot r t := by
  refine .bind (.get (.ite (fun hready => ?_) fun hready => ?_))
  · intro _ t hrun
    rw [run_reply] at hrun
    cases hrun
    exact .answered hready rfl rfl
  · refine .bind fun cap u hu => .bind fun _ w hw => .bind fun _ t ht => .pure ?_
    cases hu
    cases hw
    cases ht
    exact .parked (Bool.not_eq_true _ ▸ hready) rfl rfl

/-- The flags after the report of a driver. -/
def Root.withReady (r : Root K) (d : ℕ) : Root K :=
  { r with driverReady := Function.update r.driverReady d true }

/-- What `SYS_DRIVER_READY` does. -/
inductive ReadyEffect (boot : Boot) (role : ℤ) (r t : Root (K × List Invocation)) : Prop
  | ignored (hrole : ¬ (1 ≤ role ∧ role ≤ 4)) (ht : t = { r with kernel := t.kernel })
      (hlog : t.log = r.log ++ [.reply []])
  | noted (hrole : 1 ≤ role ∧ role ≤ 4)
      (hwait : ¬ ((r.withReady role.toNat).allDriversReady = true ∧ r.driverReadyWaitReply ≠ 0))
      (ht : t = { r.withReady role.toNat with kernel := t.kernel })
      (hlog : t.log = r.log ++ [.reply []])
  | released (hrole : 1 ≤ role ∧ role ≤ 4) (hwait : r.driverReadyWaitReply ≠ 0)
      (hready : (r.withReady role.toNat).allDriversReady = true)
      (ht : t = { r.withReady role.toNat with
        kernel := t.kernel
        alloc := r.alloc.free r.driverReadyWaitReply
        driverReadyWaitReply := 0 })
      (hlog : t.log = r.log ++ [.send r.driverReadyWaitReply [],
        .cnodeDelete (boot.rootSlot r.driverReadyWaitReply), .reply []])

theorem ends_sysDriverReady (sender : ℕ) (r : Root (K × List Invocation)) :
    Ends (sysDriverReady (recorded sel4) boot sender) r fun _ t =>
      ReadyEffect boot (r.role sender) r t := by
  have hreply (u : Root (K × List Invocation)) : Ends (reply (recorded sel4) []) u fun _ t =>
      t = { u with kernel := t.kernel } ∧ t.log = u.log ++ [.reply []] := by
    intro _ t hrun
    rw [run_reply] at hrun
    cases hrun
    exact ⟨rfl, rfl⟩
  refine .bind (.get (.bind (.onlyIf (fun hrole => ?_) fun hrole => ?_)))
  · refine .bind (.modify (.bind (.get (.onlyIf (fun hwait => ?_) fun hwait => ?_))))
    · refine .bind fun _ u hu => .bind fun _ w hw => .modify ((hreply _).mono fun _ t ht => ?_)
      rw [run_answer] at hu
      cases hu
      cases hw
      refine .released hrole hwait.2 hwait.1 ht.1 (ht.2.trans ?_)
      simp only [Root.log, recorded, List.append_assoc, List.cons_append, List.nil_append]
    · exact (hreply _).mono fun _ t ht => .noted hrole hwait ht.1 ht.2
  · exact (hreply _).mono fun _ t ht => .ignored hrole ht.1 ht.2

/-! ## The invariant -/

/-- How far the shell's call has come. -/
inductive Phase (x : Watched K) : Prop
  | before (hcalled : x.2.called = false) (hanswers : x.2.answers = 0) (hheld : x.2.held = none)
      (hwait : x.1.driverReadyWaitReply = 0)
  | parked (hcalled : x.2.called = true) (hanswers : x.2.answers = 0)
      (hheld : x.2.held = some x.1.driverReadyWaitReply) (hready : x.1.allDriversReady = false)
  | answered (hcalled : x.2.called = true) (hanswers : x.2.answers = 1) (hheld : x.2.held = none)
      (hwait : x.1.driverReadyWaitReply = 0) (hready : x.1.allDriversReady = true)

/-- What every state keeps: the flags are the reports that were made, and nobody else uses the slot
of the shell's reply capability. -/
structure VigilInv (x : Watched K) : Prop where
  flags : ∀ d, 1 ≤ d → d ≤ 4 → x.1.driverReady d = x.2.reported d
  avoids : x.1.Avoids (fun s => x.2.held = some s) (· = 0)
  phase : Phase x

theorem VigilInv.reported_iff {x : Watched K} (h : VigilInv x) :
    x.1.allDriversReady = true ↔ ∀ d, 1 ≤ d → d ≤ 4 → x.2.reported d = true := by
  rw [allDriversReady_iff]
  constructor
  · intro hall d hd hd'
    rw [← h.flags d hd hd']
    exact hall d hd hd'
  · intro hall d hd hd'
    rw [h.flags d hd hd']
    exact hall d hd hd'

theorem kept_of_inv {x : Watched K} (h : VigilInv x) : Kept x := by
  have hiff := h.reported_iff
  cases h.phase with
  | before hcalled hanswers =>
    have hno (hc : x.2.called = true) : False := by
      rw [hcalled] at hc
      cases hc
    exact ⟨by omega, fun hpos => by omega, fun hc => (hno hc).elim, fun hc => (hno hc).elim⟩
  | parked hcalled hanswers hheld hready =>
    refine ⟨by omega, fun hpos => by omega, fun _ hall => ?_, fun _ _ => hheld⟩
    rw [hiff.mpr hall] at hready
    cases hready
  | answered hcalled hanswers _ _ hready =>
    exact ⟨hanswers.le, fun _ => ⟨hcalled, hiff.mp hready⟩, fun _ _ => hanswers,
      fun _ h0 => by omega⟩

theorem allDriversReady_congr {r r' : Root K} (h : r'.driverReady = r.driverReady) :
    r'.allDriversReady = r.allDriversReady := by
  rw [Root.allDriversReady, Root.allDriversReady, h]

theorem allDriversReady_withReady {r : Root K} (d : ℕ) (h : r.allDriversReady = true) :
    (r.withReady d).allDriversReady = true := by
  rw [allDriversReady_iff] at h ⊢
  intro e he he'
  by_cases hed : e = d
  · rw [hed]
    exact Function.update_self ..
  · exact (Function.update_of_ne hed ..).trans (h e he he')

section
variable {r r' : Root (K × List Invocation)} {v : Vigil} {m : Message}

/-- Nothing that the call depends on has changed. -/
theorem VigilInv.congr (h : VigilInv (r, v)) (hdrivers : r'.driverReady = r.driverReady)
    (hwait : r'.driverReadyWaitReply = r.driverReadyWaitReply)
    (havoids : r'.Avoids (fun s => v.held = some s) (· = 0)) : VigilInv (r', v) := by
  refine ⟨fun d hd hd' => ?_, havoids, ?_⟩
  · exact (congrFun hdrivers d).trans (h.flags d hd hd')
  · have hready := allDriversReady_congr hdrivers
    cases h.phase with
    | before hcalled hanswers hheld hzero =>
      exact .before hcalled hanswers hheld (hwait.trans hzero)
    | parked hcalled hanswers hheld hno =>
      exact .parked hcalled hanswers (hheld.trans (congrArg some hwait.symm)) (hready.trans hno)
    | answered hcalled hanswers hheld hzero hall =>
      exact .answered hcalled hanswers hheld (hwait.trans hzero) (hready.trans hall)

/-- A message that is neither a report nor the shell's call. -/
theorem inv_other (h : VigilInv (r, v)) (hstep : Step (recorded sel4) boot r m r')
    (h109 : ¬ r.Calls m 109) (h110 : ¬ r.Calls m 110) :
    VigilInv (r', v.after sel4 boot r m r') := by
  obtain ⟨havoids, huntouched⟩ : r'.Avoids (fun s => v.held = some s) (· = 0) ∧
      Untouched boot (fun s => v.held = some s) r r' := by
    cases hsender : r.senderPid m.badge with
    | none =>
      rw [step_ignored hstep hsender]
      exact ⟨h.avoids, .refl r⟩
    | some sender =>
      have hsome : (r.senderPid m.badge).isSome = true := by rw [hsender]; rfl
      refine step_spares hstep h.avoids fun hm => ?_
      rcases hm.2 with hn | hn
      · exact h109 ⟨hsome, hm.1, hn⟩
      · exact h110 ⟨hsome, hm.1, hn⟩
  obtain ⟨ext, hlog, hunused⟩ := huntouched.log
  rw [Vigil.after_eq hlog, Vigil.note_of_not_calls h109 h110, decide_eq_false h110,
    Vigil.foldl_see_of_unused hunused]
  exact h.congr huntouched.drivers huntouched.wait havoids

/-- The shell's call. -/
theorem inv_wait (h : VigilInv (r, v)) (hstep : Step (recorded sel4) boot r m r')
    (hcall : r.Calls m 110) (honce : WaitsOnce sel4 boot (r, v) m) (halone : Unshared (r, v) m) :
    VigilInv (r', v.after sel4 boot r m r') := by
  obtain ⟨hsome, hl, hn⟩ := hcall
  obtain ⟨sender, hsender⟩ := Option.isSome_iff_exists.mp hsome
  have hrun := step_syscall hstep hsender hl
  rw [syscall, run_bind, run_get, hn] at hrun
  have hcall : r.Calls m 110 := ⟨hsome, hl, hn⟩
  have hreport : ∀ d, ¬ r.Reports m d := fun d hd => by
    have := hd.1.2.2
    omega
  have hreported : (v.note r m).reported = v.reported := by
    funext d
    simp [Vigil.note, hreport]
  have hcalled : (v.note r m).called = true := by simp [Vigil.note, hcall]
  obtain ⟨hfirst, hslot⟩ := honce hcall
  -- the shell calls once, so nothing was parked or answered before
  obtain ⟨hanswers, hheld, hzero⟩ : v.answers = 0 ∧ v.held = none ∧ r.driverReadyWaitReply = 0 := by
    cases h.phase with
    | before _ hanswers hheld hzero => exact ⟨hanswers, hheld, hzero⟩
    | parked hc => exact absurd (hfirst.symm.trans hc) (by decide)
    | answered hc => exact absurd (hfirst.symm.trans hc) (by decide)
  cases ends_sysWaitAllDriversReady r _ _ hrun with
  | answered hready ht hlog =>
    rw [Vigil.after_eq hlog, decide_eq_true hcall, ht]
    refine ⟨fun d hd hd' => ?_, avoids_nothing ?_ _ _, .answered hcalled ?_ hheld hzero hready⟩
    · exact (h.flags d hd hd').trans (congrFun hreported d).symm
    · intro s hs
      cases hheld.symm.trans hs
    · exact congrArg (· + 1) hanswers
  | parked hready ht hlog =>
    obtain ⟨-, hsaved⟩ := hslot hready
    have havoids := halone hcall hready
    rw [Vigil.after_eq hlog, decide_eq_true hcall, decide_eq_true hsaved, ht]
    refine ⟨fun d hd hd' => ?_, ?_, .parked hcalled hanswers rfl ?_⟩
    · exact (h.flags d hd hd').trans (congrFun hreported d).symm
    -- nobody answers for the slot that the reply capability is now in
    · have hX : (r.alloc.allocSlot.1 = ·) = fun s => some r.alloc.allocSlot.1 = some s := by
        funext s
        exact propext Option.some_inj.symm
      rw [hX] at havoids
      exact havoids.congr rfl rfl rfl
    · exact (allDriversReady_congr rfl).trans hready

/-- The report of a driver. -/
theorem inv_ready (h : VigilInv (r, v)) (hstep : Step (recorded sel4) boot r m r')
    (hcall : r.Calls m 109) : VigilInv (r', v.after sel4 boot r m r') := by
  obtain ⟨hsome, hl, hn⟩ := hcall
  obtain ⟨sender, hsender⟩ := Option.isSome_iff_exists.mp hsome
  have hrun := step_syscall hstep hsender hl
  rw [syscall, run_bind, run_get, hn] at hrun
  have hcall : r.Calls m 109 := ⟨hsome, hl, hn⟩
  have h110 : ¬ r.Calls m 110 := fun hc => by
    have := hc.2.2
    omega
  have hreport : ∀ d : ℕ, r.Reports m d ↔ r.role sender = d := fun d => by
    rw [Root.Reports, hsender]
    exact and_iff_right hcall
  have hcalled : (v.note r m).called = v.called := by simp [Vigil.note, h110]
  have hreported : ∀ d : ℕ, (v.note r m).reported d = (v.reported d || decide (r.role sender = d)) :=
    fun d => by simp [Vigil.note, hreport]
  -- the flags after a report are the reports made so far
  have hflags (hrole : 1 ≤ r.role sender ∧ r.role sender ≤ 4) (d : ℕ) (hd : 1 ≤ d) (hd' : d ≤ 4) :
      (r.withReady (r.role sender).toNat).driverReady d = (v.note r m).reported d := by
    rw [hreported]
    change Function.update r.driverReady _ true d = _
    by_cases hrd : r.role sender = d
    · rw [hrd, Int.toNat_natCast, Function.update_self, decide_eq_true rfl, Bool.or_true]
    · have hne : d ≠ (r.role sender).toNat := by omega
      rw [Function.update_of_ne hne, decide_eq_false hrd, Bool.or_false]
      exact h.flags d hd hd'
  cases ends_sysDriverReady sender r _ _ hrun with
  | ignored hrole ht hlog =>
    rw [Vigil.after_eq hlog, decide_eq_false h110]
    have hphase : VigilInv (r, v.note r m) := by
      refine ⟨fun d hd hd' => ?_, h.avoids, ?_⟩
      · have hrd : ¬ r.role sender = d := by omega
        rw [hreported, decide_eq_false hrd, Bool.or_false]
        exact h.flags d hd hd'
      · cases h.phase with
        | before hc ha hh hz => exact .before (hcalled.trans hc) ha hh hz
        | parked hc ha hh hno => exact .parked (hcalled.trans hc) ha hh hno
        | answered hc ha hh hz hall => exact .answered (hcalled.trans hc) ha hh hz hall
    rw [ht]
    exact hphase.congr rfl rfl (h.avoids.congr rfl rfl rfl)
  | noted hrole hwait ht hlog =>
    rw [Vigil.after_eq hlog, decide_eq_false h110, ht]
    refine ⟨hflags hrole, h.avoids.congr rfl rfl rfl, ?_⟩
    cases h.phase with
    | before hc ha hh hz => exact .before (hcalled.trans hc) ha hh hz
    | parked hc ha hh _ =>
      have hzero : r.driverReadyWaitReply ≠ 0 := fun h0 => h.avoids.zero (hh.trans (congrArg some h0))
      refine .parked (hcalled.trans hc) ha hh (Bool.not_eq_true _ ▸ fun hall => ?_)
      exact hwait ⟨hall, hzero⟩
    | answered hc ha hh hz hall =>
      exact .answered (hcalled.trans hc) ha hh hz (allDriversReady_withReady _ hall)
  | released hrole hwait hready ht hlog =>
    obtain ⟨hc, ha, hh⟩ : v.called = true ∧ v.answers = 0 ∧
        v.held = some r.driverReadyWaitReply := by
      cases h.phase with
      | before _ _ _ hz => exact absurd hz hwait
      | parked hc ha hh _ => exact ⟨hc, ha, hh⟩
      | answered _ _ _ hz => exact absurd hz hwait
    have hsee : [.send r.driverReadyWaitReply [],
        .cnodeDelete (boot.rootSlot r.driverReadyWaitReply), .reply []].foldl
          (Vigil.see boot false (r.Saves sel4 boot)) (v.note r m) =
            { v.note r m with held := none, answers := (v.note r m).answers + 1 } := by
      rw [List.foldl_cons, Vigil.see, if_pos (show (v.note r m).held = _ from hh)]
      rfl
    rw [Vigil.after_eq hlog, decide_eq_false h110, hsee, ht]
    refine ⟨hflags hrole, avoids_nothing (fun s hs => by cases hs) _ _, ?_⟩
    exact .answered (hcalled.trans hc) (congrArg (· + 1) ha) rfl rfl hready

end

/-! ## Runs -/

theorem inv_step {x y : Watched K} {m : Message} (h : VigilInv x)
    (hstep : WatchedStep sel4 boot x m y) (halone : Unshared x m) : VigilInv y := by
  obtain ⟨r, v⟩ := x
  obtain ⟨r', v'⟩ := y
  obtain ⟨hrun, honce, hafter⟩ := hstep
  change v' = v.after sel4 boot r m r' at hafter
  subst hafter
  by_cases h110 : r.Calls m 110
  · exact inv_wait h hrun h110 honce halone
  · by_cases h109 : r.Calls m 109
    · exact inv_ready h hrun h109
    · exact inv_other h hrun h109 h110

/-- Nothing has been reported when the rootserver enters its loop. -/
theorem inv_booted {dev : Devices} {r : Root (K × List Invocation)}
    (h : Booted (recorded sel4) boot dev r) : VigilInv (r, .start) := by
  obtain ⟨k, alloc, -, -, hrun⟩ := h
  have hboot : Spares boot (fun _ => False) (fun _ => False)
      (forM (bootProcesses boot dev) (bootProcess (recorded sel4) boot)) fun _ => True := by
    refine .forM fun p _ => .bind (.spawnProcess id _ _ _) fun pid _ => ?_
    exact .ite (fun _ => .throw) fun _ => .pure trivial
  obtain ⟨-, -, huntouched⟩ := hboot _ (avoids_nothing (fun _ => id) _ _) _ _ hrun
  refine ⟨fun d _ _ => congrFun huntouched.drivers d, avoids_nothing (fun s hs => ?_) _ _,
    .before rfl rfl rfl huntouched.wait⟩
  cases hs

/-- In every run in which nobody else uses the slot of the shell's reply capability when it is saved,
the shell's call is answered once and in time. -/
theorem kept_of_run {dev : Devices} {r : Root (K × List Invocation)} {ms : List Message}
    {y : Watched K} (hboot : Booted (recorded sel4) boot dev r)
    (h : Run (guarded (WatchedStep sel4 boot) Unshared) (r, .start) ms y) : Kept y :=
  kept_of_inv (h.invariant (fun _ _ _ hI he => inv_step hI he.2 he.1) (inv_booted hboot))

/-! ## Runs of a small system -/

instance (x : Watched K) (m : Message) : Decidable (WaitsOnce sel4 boot x m) :=
  inferInstanceAs (Decidable (_ → _))

variable (sel4 boot) in
/-- A step with its history, if the rootserver comes back from the message. -/
def watch (x : Watched K) (m : Message) : Option (Watched K) :=
  if WaitsOnce sel4 boot x m then
    (next (recorded sel4) boot x.1 m).map fun r' => (r', x.2.after sel4 boot x.1 m r')
  else none

theorem watchedStep_of {x y : Watched K} {m : Message} (h : watch sel4 boot x m = some y) :
    WatchedStep sel4 boot x m y := by
  rw [watch] at h
  split at h
  · obtain ⟨r', hnext, rfl⟩ := Option.map_eq_some_iff.mp h
    exact ⟨step_of_next _ _ hnext, ‹_›, rfl⟩
  · cases h

/-- The small boot with an archive that holds the programs of the boot alone. -/
def archiveBoot : Boot :=
  { someBoot with
    cpioGetFile := fun name =>
      if name ∈ [uartDriverName, timerDriverName, blkDriverName, netDriverName, shellName] then
        some []
      else none }

/-- The small system with a disk and this archive after boot, with its kernel calls. -/
def watchedDisk : Root (ℕ × List Invocation) :=
  (bootFrom (recorded serving) archiveBoot someDevices (0, []) ⟨1000, 4000, []⟩).get
    (by decide +kernel)

theorem booted_watchedDisk : Booted (recorded serving) archiveBoot someDevices watchedDisk :=
  booted_get _ _ _ rfl (by decide)

/-- A message with the given registers. -/
def callOf (badge : ℕ) (mrs : List ℕ) : Message := { badge, mr := fun n => mrs.getD n 0 }

/-- The drivers report. -/
def readyCalls : List Message := [callOf 1 [109], callOf 2 [109], callOf 3 [109], callOf 4 [109]]

/-- An application is started, it makes a thread and is killed; the shell gets the shared window and
makes a thread, then it waits. Its thread kills that of the application. -/
def strayKill : List Message :=
  [callOf 5 [100, 97], callOf 6 [101], callOf 5 [102, 6], callOf 5 [107], callOf 5 [101],
    callOf 5 [110], callOf (5 * 2 ^ 16 + 6) [102, 7]]

instance {X : ℕ → Prop} [DecidablePred X] (pcb : Pcb) : Decidable (pcb.Avoids X) :=
  decidable_of_iff (((¬ X pcb.tcb ∧ ¬ X pcb.vspace) ∧ ¬ X pcb.badgedEp ∧ ¬ X pcb.replyCap) ∧
      (∀ s ∈ pcb.capTracker, ¬ X s) ∧ ∀ i < 4, ¬ X (pcb.shmCopies i))
    ⟨fun ⟨⟨⟨ht, hv⟩, he, hr⟩, hs, hc⟩ => ⟨ht, hv, he, hr, hs, hc⟩,
      fun h => ⟨⟨⟨h.tcb, h.vspace⟩, h.badgedEp, h.replyCap⟩, h.tracked, h.copies⟩⟩

/-- The slot that is taken first after boot is nobody's, if none of the six first blocks names it. -/
theorem avoids_of_booted {dev : Devices} {r : Root K} (h : Booted sel4 boot dev r) {s : ℕ}
    {a : PsychAllocator} (hzero : s ≠ 0) (halloc : s ∉ a.freeSlots ∧ s < a.currentSlot)
    (hblocks : ∀ p < 6, (r.pcbs p).Avoids (s = ·)) :
    Root.Avoids (s = ·) (· = 0) { r with alloc := a } where
  zero := hzero
  pool x hx hs := halloc.1 (hs ▸ hx)
  bump x hs := hs ▸ halloc.2
  pcbs p hp := by
    refine hblocks p ?_
    rcases hp with rfl | hactive
    · decide
    · by_contra hlarge
      have hlife : r.table p = ⟨[], 0, false, 0⟩ := by
        rw [table_of_booted h, Table.booted_of_ne (by omega)]
      have hoff : (r.pcbs p).active = false := congrArg Life.active hlife
      exact absurd (hactive.symm.trans hoff) (by decide)
  pipes i := by
    show s ≠ (r.pipes i).readerReplyCap
    rw [pipes_of_booted h]
    exact hzero

theorem avoids_watchedDisk : Root.Avoids (watchedDisk.alloc.allocSlot.1 = ·) (· = 0)
    { watchedDisk with alloc := watchedDisk.alloc.allocSlot.2 } :=
  avoids_of_booted booted_watchedDisk (by decide +kernel) (by decide +kernel) (by decide +kernel)

/-- The shell is parked. -/
def parkedState : Watched ℕ :=
  (watch serving archiveBoot (watchedDisk, .start) (callOf 5 [110])).get (by decide +kernel)

/-- All drivers have reported. -/
def releasedState : Watched ℕ :=
  (runSteps (fun x m => if ¬ x.1.Calls m 110 then watch serving archiveBoot x m else none)
    parkedState readyCalls).get (by decide +kernel)

theorem run_parkedState : Run (guarded (WatchedStep serving archiveBoot) Unshared)
    (watchedDisk, .start) [callOf 5 [110]] parkedState :=
  .single ⟨fun _ _ => avoids_watchedDisk, watchedStep_of (Option.some_get _).symm⟩

theorem run_releasedState : Run (guarded (WatchedStep serving archiveBoot) Unshared)
    (watchedDisk, .start) ([callOf 5 [110]] ++ readyCalls) releasedState := by
  refine run_parkedState.trans ((Run.of_runSteps (Option.some_get _).symm).mono fun x m y hxy => ?_)
  split at hxy
  · exact ⟨fun hcall => absurd hcall ‹_›, watchedStep_of hxy⟩
  · cases hxy

/-- The shell is parked until the last report, and then answered. -/
theorem kept_of_run_parked :
    ((parkedState.2.held ≠ none ∧ parkedState.2.answers = 0) ∧ Kept parkedState) ∧
      releasedState.2.answers = 1 ∧ Kept releasedState :=
  ⟨⟨by decide +kernel, kept_of_run booted_watchedDisk run_parkedState⟩, by decide +kernel,
    kept_of_run booted_watchedDisk run_releasedState⟩

/-- The state after the stray kill, when all drivers have reported. -/
def strayState : Watched ℕ :=
  (runSteps (watch serving archiveBoot) (watchedDisk, .start) (strayKill ++ readyCalls)).get
    (by decide +kernel)

/-- The slot of the shell's reply capability was that of the application's address space, which its
thread still names: the kill of the thread deletes the capability, and the shell is not answered. -/
theorem not_kept_strayKill :
    Booted (recorded serving) archiveBoot someDevices watchedDisk ∧
    Run (WatchedStep serving archiveBoot) (watchedDisk, .start) (strayKill ++ readyCalls)
      strayState ∧
    strayState.2.called = true ∧ (∀ d, 1 ≤ d → d ≤ 4 → strayState.2.reported d = true) ∧
    strayState.2.answers = 0 ∧ ¬ Kept strayState := by
  have hrun : Run (WatchedStep serving archiveBoot) (watchedDisk, .start) (strayKill ++ readyCalls)
      strayState :=
    (Run.of_runSteps (Option.some_get _).symm).mono fun _ _ _ hxy => watchedStep_of hxy
  have hstate : strayState.2.called = true ∧ strayState.2.answers = 0 ∧
      ((strayState.2.reported 1 ∧ strayState.2.reported 2) ∧
        strayState.2.reported 3) ∧ strayState.2.reported 4 := by decide +kernel
  obtain ⟨hcalled, hanswers, hroles⟩ := hstate
  have hreported : ∀ d, 1 ≤ d → d ≤ 4 → strayState.2.reported d = true := forall_role.mpr hroles
  refine ⟨booted_watchedDisk, hrun, hcalled, hreported, hanswers, fun h => ?_⟩
  have hone := h.served hcalled hreported
  omega

end PsychWard.Rootserver
