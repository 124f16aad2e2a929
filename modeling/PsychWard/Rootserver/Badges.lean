import PsychWard.Clock.TimerDriver
import PsychWard.Common.Run
import PsychWard.Rootserver.Life

/-!
# The badges of clients and interrupts

The UART driver and the timer driver take a message with badge 1 or 2 for their interrupt. A client
calls them with its PID as badge, so the two are told apart only if PID 1 is never anybody but the
UART driver and PID 2 never anybody but the timer driver.

Boot arranges it so. `Root.TakesBadge` is the step after which it is no longer so: something else is
started while PID 1 or 2 is the first free one, as it is after a recovery of one of these drivers.
-/

namespace PsychWard.Rootserver

open Program

variable {K : Type} {sel4 : SeL4 K} {boot : Boot}

/-- `UART_IRQ_BADGE`: the badge of the keyboard interrupt on the console endpoint. -/
def uartIrqBadge : ℕ := 1

/-- `uart_driver` handles a message as its interrupt, without a reply. -/
def uartTakesForInterrupt (badge : ℕ) : Prop := badge = uartIrqBadge

namespace Table

/-- No client's badge is that of an interrupt: a process that is active and not the driver behind
the endpoint is never taken for its interrupt, and the timer driver answers it. -/
structure BadgesApart (T : Table) : Prop where
  uart : ∀ p, (T p).active = true → (T p).isDriver ≠ 1 → ¬ uartTakesForInterrupt p
  timer : ∀ p, (T p).active = true → (T p).isDriver ≠ 2 →
    p ≠ Clock.timerIrqBadge ∧ ∀ (t : Clock.TimerDriver) (rtcDr number mr1 : ℕ),
      (t.serve rtcDr p number mr1).1 ≠ none

/-- PID 1 is used by a UART driver only, PID 2 by a timer driver only. -/
def LowPids (T : Table) : Prop :=
  ∀ n : ℕ, n = 1 ∨ n = 2 → (T n).active = true → (T n).isDriver = n

theorem badgesApart_of_lowPids {T : Table} (h : T.LowPids) : T.BadgesApart := by
  have htimer (p : ℕ) (hp : (T p).active = true) (hrole : (T p).isDriver ≠ 2) :
      p ≠ Clock.timerIrqBadge := by
    rintro rfl
    exact hrole (h 2 (.inr rfl) hp)
  refine ⟨?_, fun p hp hrole => ⟨htimer p hp hrole, fun t rtcDr number mr1 => ?_⟩⟩
  · rintro p hp hrole rfl
    exact hrole (h 1 (.inl rfl) hp)
  · rw [Clock.TimerDriver.serve, if_neg (htimer p hp hrole)]
    split_ifs <;> simp

end Table

/-- The image a `SYS_EXEC` asks for can be loaded and is accepted. -/
def Root.Loads (sel4 : SeL4 K) (boot : Boot) (r : Root K) (m : Message) : Prop :=
  ∃ image t, (loadElfFromDisk sel4 m.appName).run r = .ok (some image, t) ∧ image ≠ [] ∧
    boot.elfNewFile image = true

/-- While PID 1 or PID 2 is the first free one, the message starts a process there that is not the
driver of this interrupt: an application, a thread, or another component that is recovered. -/
def Root.TakesBadge (sel4 : SeL4 K) (boot : Boot) (r : Root K) (m : Message) : Prop :=
  ∃ n : ℕ, (n = 1 ∨ n = 2) ∧ r.table.freePid = some n ∧
    (m.label = .other ∧ (m.mr 0 = 100 ∧ r.Loads sel4 boot m ∨ m.mr 0 = 101) ∨
      ∃ p, r.table.Recovers m p ∧ r.table.Alive p ∧
        (0 < (r.table p).isDriver ∨ (r.table p).name = shellName) ∧ (r.table p).isDriver ≠ n)

/-- A `SYS_EXEC` whose image cannot be loaded starts nothing. -/
theorem table_sysExec {r : Root K} {m : Message} (h : ¬ r.Loads sel4 boot m) :
    Ends (sysExec sel4 boot m) r fun _ t => t.table = r.table := by
  refine .bind fun loaded t hrun => ?_
  have ht : t.table = r.table := (quiet_sameTable sel4).loadLoop _ _ _ r _ _ hrun
  have hreply (mrs : List ℤ) : Ends (reply sel4 mrs) t fun _ u => u.table = r.table :=
    ((quiet_sameTable sel4).reply mrs t).mono fun _ u hu => hu.trans ht
  match loaded, hrun with
  | none, _ => exact hreply _
  | some [], _ => exact hreply _
  | some (b :: bs), hrun =>
    refine .ite (fun helf => absurd ?_ h) fun _ => hreply _
    exact ⟨b :: bs, t, hrun, List.cons_ne_nil _ _, helf⟩

theorem step_exec {r r' : Root K} {m : Message} (hstep : Step sel4 boot r m r')
    (hm : m.label = .other ∧ m.mr 0 = 100) (h : ¬ r.Loads sel4 boot m) : r'.table = r.table := by
  cases hsender : r.table.senderPid m.badge with
  | none => rw [step_ignored hstep hsender]
  | some sender =>
    have hrun := step_syscall hstep hsender hm.1
    rw [syscall, run_bind, run_get, hm.2] at hrun
    exact table_sysExec h _ _ hrun

/-- A message that starts nothing else at the PIDs 1 and 2 keeps them to their drivers. -/
theorem Table.LowPids.of_moves {T T' : Table} {m : Message} (h : T.LowPids) (hmove : T.Moves m T')
    (hnew : ∀ n, n = 1 ∨ n = 2 → T.freePid = some n →
      ¬ (m.label = .other ∧ (m.mr 0 = 100 ∨ m.mr 0 = 101)))
    (hold : ∀ n : ℕ, n = 1 ∨ n = 2 → T.freePid = some n → ∀ p, T.Recovers m p → T.Alive p →
      (0 < (T p).isDriver ∨ (T p).name = shellName) → (T p).isDriver = n) : T'.LowPids := by
  intro n hn hactive
  cases hmove with
  | same => exact h n hn hactive
  | wait sender target =>
    by_cases hs : n = sender
    · subst hs
      rw [Function.update_self] at hactive ⊢
      exact h n hn hactive
    · rw [Function.update_of_ne hs] at hactive ⊢
      exact h n hn hactive
  -- the two that start a process: neither may take a low PID for anything else
  | create p name isDriver hm hfree =>
    by_cases hp : n = p
    · subst hp
      exact absurd hm (hnew n hn hfree)
    · rw [start_of_ne hp] at hactive ⊢
      exact h n hn hactive
  | exit p =>
    rw [stop_active, wakeAll_active] at hactive
    rw [stop_isDriver, wakeAll_isDriver]
    exact h n hn hactive.2
  | respawn p q hm hp hcrit hfree =>
    rw [stop_active] at hactive
    rw [stop_isDriver]
    by_cases hq : n = q
    · subst hq
      rw [start_self]
      exact hold n hn hfree p hm hp hcrit
    · rw [start_of_ne hq] at hactive ⊢
      rw [wakeAll_active] at hactive
      rw [wakeAll_isDriver]
      exact h n hn hactive.2
  | kill p =>
    rw [stop_isDriver]
    exact h n hn (stop_active.mp hactive).2
  | threadExit =>
    rw [stop_active, wakeOne_active] at hactive
    rw [stop_isDriver, wakeOne_isDriver]
    exact h n hn hactive.2
  | threadWake =>
    rw [wakeOne_active] at hactive
    rw [wakeOne_isDriver]
    exact h n hn hactive

/-- A step that does not take a badge keeps the PIDs 1 and 2 to their drivers. -/
theorem lowPids_step {r r' : Root K} {m : Message} (h : r.table.LowPids)
    (hstep : Step sel4 boot r m r') (hno : ¬ r.TakesBadge sel4 boot m) : r'.table.LowPids := by
  by_cases hexec : (m.label = .other ∧ m.mr 0 = 100) ∧ ¬ r.Loads sel4 boot m
  · rw [step_exec hstep hexec.1 hexec.2]
    exact h
  · refine h.of_moves (step_moves hstep) (fun n hn hfree hm => ?_) fun n hn hfree p hm hp hcrit => ?_
    · refine hno ⟨n, hn, hfree, .inl ⟨hm.1, hm.2.imp_left fun h100 => ⟨h100, ?_⟩⟩⟩
      by_contra hload
      exact hexec ⟨⟨hm.1, h100⟩, hload⟩
    · by_contra hrole
      exact hno ⟨n, hn, hfree, .inr ⟨p, hm, hp, hcrit, hrole⟩⟩

/-- In every run from boot in which no step takes a badge, no client is taken for an interrupt. -/
theorem badges_of_run {dev : Devices} {r r' : Root K} {es : List Message}
    (hboot : Booted sel4 boot dev r)
    (hrun : Run (guarded (Step sel4 boot) fun r m => ¬ r.TakesBadge sel4 boot m) r es r') :
    r'.table.BadgesApart := by
  refine Table.badgesApart_of_lowPids ?_
  refine Run.invariant (I := fun r : Root K => r.table.LowPids)
    (fun r m r' h hstep => lowPids_step h hstep.2 hstep.1) hrun ?_
  rw [table_of_booted hboot]
  rintro n (rfl | rfl) - <;> rfl

/-! The UART driver is recovered, and an application takes its PID. -/

/-- A capability fault of the UART driver. -/
def uartFault : Message := { badge := 1, label := .capFault, mr := fun _ => 0 }

/-- `SYS_EXEC` of the shell for the file `"a"`. -/
def execCall : Message := { badge := 5, mr := fun n => if n = 0 then 100 else if n = 1 then 97 else 0 }

/-- The small system after the recovery of the UART driver. -/
def recovered : Root ℕ :=
  (next serving someBoot smallDisk uartFault).get (by decide +kernel)

/-- An application has been started. -/
def taken : Root ℕ := (next serving someBoot recovered execCall).get (by decide +kernel)

/-- An application has been started without a recovery. -/
def started : Root ℕ := (next serving someBoot smallDisk execCall).get (by decide +kernel)

theorem step_recovered : Step serving someBoot smallDisk uartFault recovered := step_get _ _ _

theorem step_taken : Step serving someBoot recovered execCall taken := step_get _ _ _

theorem step_started : Step serving someBoot smallDisk execCall started := step_get _ _ _

theorem freePid_smallDisk : smallDisk.table.freePid = some 6 := by decide +kernel

/-- Nothing is taken while the first free PID is another one. -/
theorem not_takesBadge {r : Root K} {m : Message} {p : ℕ} (h : r.table.freePid = some p)
    (hp : p ≠ 1 ∧ p ≠ 2) : ¬ r.TakesBadge sel4 boot m := by
  rintro ⟨n, hn, hfree, -⟩
  obtain rfl : p = n := Option.some.inj (h.symm.trans hfree)
  omega

/-- After boot an application is started at PID 6. -/
theorem badges_of_run_started :
    (started.table 6).active = true ∧ started.table.BadgesApart :=
  ⟨by decide +kernel, badges_of_run booted_smallDisk
    (.single ⟨not_takesBadge freePid_smallDisk (by decide), step_started⟩)⟩

/-- After the recovery of the UART driver the next application gets PID 1, the badge of the
keyboard interrupt. -/
theorem not_badgesApart_taken : Booted serving someBoot someDevices smallDisk ∧
    Run (Step serving someBoot) smallDisk ([uartFault] ++ [execCall]) taken ∧
    ¬ taken.table.BadgesApart := by
  refine ⟨booted_smallDisk, (Run.single step_recovered).snoc step_taken, fun h => ?_⟩
  have hactive : (taken.table 1).active = true := by decide +kernel
  have hrole : (taken.table 1).isDriver ≠ 1 := by decide +kernel
  exact h.uart 1 hactive hrole rfl

end PsychWard.Rootserver
