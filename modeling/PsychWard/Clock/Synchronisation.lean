import PsychWard.Clock.NtpClient
import PsychWard.Common.Run
import Mathlib.Algebra.Ring.Parity

/-!
# Repeated synchronisation of the clock

The composition of the two drivers: the network driver asks the timer driver for the time, sends a
request, and stores the offset it computes from the reply in the timer driver. The hardware clock
is wrong by a constant number of seconds, and the server answers truthfully.

The network driver measures T1 and T4 on the corrected clock, while the timer driver applies the
stored offset to the raw one. So a synchronisation that finds the clock right stores the offset
zero and takes the correction back: `run_offset` says that the stored offset alternates.
-/

namespace PsychWard.Clock

/-- The PID under which the network driver calls the timer endpoint. -/
def netDriverPid : ℕ := 4

theorem netDriverPid_ne : netDriverPid ≠ timerIrqBadge := by decide

/-- Both drivers, the true time, and what the environment remembers of the exchange. -/
structure World where
  /-- the true time, seconds since the Unix epoch -/
  now : ℕ
  timer : TimerDriver
  net : NtpClient
  /-- the true time at which the last SNTP request was sent -/
  sentAt : ℕ
  /-- how many synchronisations were completed -/
  completed : ℕ
deriving DecidableEq, Repr

/-- The hardware clock can show `now + skew`, and an NTP timestamp can carry `now`: both are 32-bit
counts of seconds. -/
def InRange (skew : ℤ) (now : ℕ) : Prop :=
  0 ≤ now + skew ∧ now + skew < 2 ^ 32 ∧ now + ntpUnixEpochDelta < 2 ^ 32

instance (skew : ℤ) (now : ℕ) : Decidable (InRange skew now) :=
  inferInstanceAs (Decidable (_ ∧ _ ∧ _))

/-- The clock register. -/
def rtcDr (skew : ℤ) (now : ℕ) : ℕ := (now + skew).toNat

namespace World

/-- A call of the network driver on the timer endpoint: the first word of the answer, and the world
after it. -/
def callTimer (skew : ℤ) (w : World) (sys mr1 : ℕ) : ℕ × World :=
  let (answer, timer) := w.timer.serve (rtcDr skew w.now) netDriverPid sys mr1
  ((answer.getD []).headD 0, { w with timer := timer })

/-- What `SYS_GET_TIME` reports. -/
def timeMs (skew : ℤ) (w : World) : ℕ := (w.callTimer skew sysGetTime 0).1

/-- What `SYS_GET_UPTIME` reports. -/
def uptimeMs (skew : ℤ) (w : World) : ℕ := (w.callTimer skew sysGetUptime 0).1

/-- The world after a step of the network driver that read no reply. -/
def setNet (w : World) (net : NtpClient) : World :=
  { w with net := net, sentAt := if net.requestsSent = w.net.requestsSent then w.sentAt else w.now }

/-- The two drivers after start-up at true time `now`. -/
def boot (skew : ℤ) (now : ℕ) : World where
  now := now
  timer := .start (rtcDr skew now)
  net := .start ((TimerDriver.start (rtcDr skew now)).getUptime (rtcDr skew now))
  sentAt := 0
  completed := 0

end World

/-- What can happen to the two drivers. -/
inductive ClockEvent
  /-- seconds pass -/
  | elapse (secs : ℕ)
  /-- the checks of one turn of the network driver's loop -/
  | loopTurn
  /-- the shell sends a command -/
  | command (cmd : NetCommand)
  | arpReply
  /-- a datagram from port 123 -/
  | ntpReply (p : NtpPacket)
deriving DecidableEq, Repr

/-- The server keeps its promise: a datagram that completes a synchronisation carries the true time
in both timestamps and arrives in the second in which the request was sent. -/
def Honest (w : World) (p : NtpPacket) : Prop :=
  w.net.ntpOutstanding = true → p.accepted = true →
    p.rxTsSec = w.now + ntpUnixEpochDelta ∧ p.txTsSec = w.now + ntpUnixEpochDelta ∧
      w.sentAt = w.now

instance (w : World) (p : NtpPacket) : Decidable (Honest w p) :=
  inferInstanceAs (Decidable (_ → _ → _))

open World in
/-- One event; `none` when the assumptions on the environment exclude it. -/
def clockStep (skew : ℤ) (w : World) : ClockEvent → Option World
  | .elapse secs =>
    if InRange skew (w.now + secs) then some { w with now := w.now + secs } else none
  | .loopTurn =>
    let w := w.setNet (w.net.checkNtpResync (w.timeMs skew) (w.uptimeMs skew))
    some (w.setNet (w.net.checkBootNtpTimeout (w.uptimeMs skew)))
  | .command cmd => some (w.setNet (w.net.handleCommand cmd (w.timeMs skew)))
  | .arpReply => some (w.setNet (w.net.pollArpReply (w.timeMs skew)))
  | .ntpReply p =>
    if Honest w p then
      match w.net.pollNtpReply p (w.timeMs skew) with
      | (net, none) => some { w with net := net }
      | (net, some offset) =>
        let (_, w) := w.callTimer skew sysSetTimeOffset offset
        some { w with net := net, completed := w.completed + 1 }
    else none

/-- The transition relation of the two drivers. -/
def ClockStep (skew : ℤ) (w : World) (e : ClockEvent) (w' : World) : Prop :=
  clockStep skew w e = some w'

/-! ## The invariant -/

/-- The offset that `k` synchronisations leave behind: the correction after an odd number, none
after an even number. -/
def storedOffset (skew : ℤ) (k : ℕ) : ℤ := if Odd k then -skew else 0

theorem storedOffset_succ (skew : ℤ) (k : ℕ) :
    storedOffset skew (k + 1) = -(skew + storedOffset skew k) := by
  unfold storedOffset
  by_cases hk : Odd k
  · simp [hk, Nat.not_odd_iff_even.mpr hk.add_one]
  · simp [hk, (Nat.not_odd_iff_even.mp hk).add_one]

/-- The clock that `SYS_GET_TIME` shows is ahead of the true time by this much. -/
def ahead (skew : ℤ) (k : ℕ) : ℤ := skew + storedOffset skew k

theorem ahead_eq (skew : ℤ) (k : ℕ) : ahead skew k = if Odd k then 0 else skew := by
  unfold ahead storedOffset
  split <;> omega

/-- What every run keeps: the stored offset is the one the number of completed synchronisations
gives, and the T1 of an outstanding request was read off the clock in the second it was sent. -/
structure ClockInv (skew : ℤ) (w : World) : Prop where
  range : InRange skew w.now
  offset : w.timer.ntpOffsetSeconds = storedOffset skew w.completed
  t1 : w.net.ntpOutstanding = true →
    (w.net.ntpT1EpochS : ℤ) = w.sentAt + ahead skew w.completed

variable {skew : ℤ} {w w' : World}

theorem rtcDr_cast {now : ℕ} (h : InRange skew now) : (rtcDr skew now : ℤ) = now + skew :=
  Int.toNat_of_nonneg h.1

/-- A moment of the corrected clock, as the timer driver reports it. -/
theorem timeMs_eq (hr : InRange skew w.now)
    (ho : w.timer.ntpOffsetSeconds = storedOffset skew w.completed) :
    ∃ c : ℕ, (c : ℤ) = w.now + ahead skew w.completed ∧ w.timeMs skew = c * 1000 := by
  have hrtc := rtcDr_cast hr
  obtain ⟨h0, hlt, hnow⟩ := hr
  have hpos : 0 ≤ w.now + ahead skew w.completed := by
    rw [ahead_eq]; split <;> omega
  refine ⟨(w.now + ahead skew w.completed).toNat, Int.toNat_of_nonneg hpos, ?_⟩
  have hserve := w.timer.serve_getTime netDriverPid_ne (rtcDr skew w.now) 0
  simp only [World.timeMs, World.callTimer, hserve, Option.getD_some, List.headD_cons]
  apply TimerDriver.getTime_eq
  · rw [hrtc, ho, Int.toNat_of_nonneg hpos]
    unfold ahead
    ring
  · have : w.now + ahead skew w.completed < 2 ^ 33 := by
      rw [ahead_eq]; split <;> omega
    omega

theorem callTimer_setTimeOffset (offset : ℤ) :
    w.callTimer skew sysSetTimeOffset (toWord offset)
      = (0, { w with timer := { w.timer with ntpOffsetSeconds := wrap64 offset } }) := by
  have hserve := w.timer.serve_setTimeOffset netDriverPid_ne (rtcDr skew w.now) offset
  rw [World.callTimer, hserve]
  rfl

/-- A step of the network driver that reads no reply keeps the invariant. -/
theorem ClockInv.setNet (h : ClockInv skew w) {net : NtpClient}
    (hnet : w.net.RequestStep net (w.timeMs skew)) : ClockInv skew (w.setNet net) := by
  refine ⟨h.range, h.offset, fun hout => ?_⟩
  rcases hnet with ⟨hsame, ht1, hsent⟩ | ⟨hnone, -⟩ | ⟨-, ht1, hsent⟩
  · simp only [World.setNet, hsent, ht1, if_true]
    exact h.t1 (hsame ▸ hout)
  · rw [World.setNet, hnone] at hout
    cases hout
  · obtain ⟨c, hc, hms⟩ := timeMs_eq h.range h.offset
    have hc' : w.timeMs skew / 1000 = c := by omega
    simp only [World.setNet, hsent, ht1, hc', Nat.succ_ne_self, if_false]
    exact hc

/-- **The synchronisation step.** An accepted reply stores the negation of what the corrected clock
is ahead by, where the raw clock's error belongs. -/
theorem ClockInv.ntpReply (h : ClockInv skew w) {p : NtpPacket} (hp : Honest w p)
    (hout : w.net.ntpOutstanding = true) (hacc : p.accepted = true) :
    NtpClient.offsetS w.net.ntpT1EpochS (w.timeMs skew / 1000) p
      = storedOffset skew (w.completed + 1) := by
  obtain ⟨hrx, htx, hsent⟩ := hp hout hacc
  obtain ⟨c, hc, hms⟩ := timeMs_eq h.range h.offset
  have ht1 := h.t1 hout
  obtain ⟨h0, hlt, hnow⟩ := h.range
  have hT4 : w.timeMs skew / 1000 = w.net.ntpT1EpochS := by omega
  have hb : -2 ^ 33 < ahead skew w.completed ∧ ahead skew w.completed < 2 ^ 33 := by
    rw [ahead_eq]; split <;> omega
  rw [hT4, NtpClient.offsetS_eq hrx htx (by rw [ht1, hsent]) (by omega) hb.1 hb.2,
    storedOffset_succ]
  rfl

theorem clockStep_inv {e : ClockEvent} (h : ClockInv skew w) (hs : ClockStep skew w e w') :
    ClockInv skew w' := by
  cases e with
  | elapse secs =>
    simp only [ClockStep, clockStep, Option.ite_none_right_eq_some, Option.some.injEq] at hs
    obtain ⟨hr, rfl⟩ := hs
    exact ⟨hr, h.offset, h.t1⟩
  | loopTurn =>
    simp only [ClockStep, clockStep, Option.some.injEq] at hs
    subst hs
    exact (h.setNet (NtpClient.checkNtpResync_requestStep ..)).setNet
      (NtpClient.checkBootNtpTimeout_requestStep ..)
  | command cmd =>
    simp only [ClockStep, clockStep, Option.some.injEq] at hs
    subst hs
    exact h.setNet (NtpClient.handleCommand_requestStep ..)
  | arpReply =>
    simp only [ClockStep, clockStep, Option.some.injEq] at hs
    subst hs
    exact h.setNet (NtpClient.pollArpReply_requestStep ..)
  -- the one event that sets the offset: only the answer to a request that is out completes it
  | ntpReply p =>
    simp only [ClockStep, clockStep, Option.ite_none_right_eq_some] at hs
    obtain ⟨hp, hs⟩ := hs
    have hdone := w.net.pollNtpReply_outstanding p (w.timeMs skew)
    have hoff := w.net.pollNtpReply_offset p (w.timeMs skew)
    generalize w.net.pollNtpReply p (w.timeMs skew) = res at hs hdone hoff
    obtain ⟨net, offset⟩ := res
    have hT1 : net.ntpOutstanding = true → ∀ P : Prop, P := fun hout => by
      rw [hdone] at hout
      cases hout
    cases offset with
    | none =>
      simp only [Option.some.injEq] at hs
      subst hs
      exact ⟨h.range, h.offset, fun hout => hT1 hout _⟩
    | some word =>
      simp only [Option.some.injEq] at hs
      subst hs
      by_cases hc : (w.net.ntpOutstanding && p.accepted) = true
      · rw [if_pos hc, Option.some.injEq] at hoff
        rw [Bool.and_eq_true] at hc
        rw [h.ntpReply hp hc.1 hc.2] at hoff
        rw [hoff, callTimer_setTimeOffset]
        refine ⟨h.range, ?_, fun hout => hT1 hout _⟩
        obtain ⟨h0, hlt, hnow⟩ := h.range
        refine wrap64_eq_self ?_ ?_ <;> (unfold storedOffset; split <;> omega)
      · rw [if_neg hc] at hoff
        cases hoff

theorem boot_inv {now : ℕ} (h : InRange skew now) : ClockInv skew (World.boot skew now) :=
  ⟨h, rfl, fun hout => by cases hout⟩

/-! ## Every number of synchronisations -/

/-- The invariant holds in every state that a run from start-up passes through. -/
theorem run_inv {now : ℕ} {es : List ClockEvent} (h : InRange skew now)
    (hrun : Run (ClockStep skew) (World.boot skew now) es w) : ClockInv skew w :=
  hrun.invariant (fun _ _ _ => clockStep_inv) (boot_inv h)

/-- **The correction alternates.** In every run of the two drivers, with the synchronisations in any
mix of boot-time, periodic and manual ones: after `k` of them `SYS_GET_TIME` reports the true time
if and only if the hardware clock is right or `k` is odd. -/
theorem getTime_correct_iff {now : ℕ} {es : List ClockEvent} (h : InRange skew now)
    (hrun : Run (ClockStep skew) (World.boot skew now) es w) :
    w.timeMs skew = w.now * 1000 ↔ skew = 0 ∨ Odd w.completed := by
  obtain ⟨c, hc, hms⟩ := timeMs_eq (run_inv h hrun).range (run_inv h hrun).offset
  rw [ahead_eq] at hc
  rw [hms]
  by_cases hodd : Odd w.completed
  · simp only [hodd, if_true, or_true, iff_true] at hc ⊢
    omega
  · simp only [hodd, if_false, or_false] at hc ⊢
    omega

/-- The answer of an honest server at true time `now`. -/
def honestReply (now : ℕ) : NtpPacket where
  fits := true
  liVnMode := 0x24
  stratum := 1
  rxTsSec := now + ntpUnixEpochDelta
  txTsSec := now + ntpUnixEpochDelta

/-- The boot-time synchronisation, and a manual one ten seconds later. -/
def twoSynchronisations (now : ℕ) : List ClockEvent :=
  [.arpReply, .ntpReply (honestReply now), .elapse 10, .command .ntp,
    .ntpReply (honestReply (now + 10))]

/-- Where they lead when the hardware clock is five seconds fast. -/
def resyncedWorld : World :=
  (runSteps (clockStep 5) (.boot 5 1700000000) (twoSynchronisations 1700000000)).getD (.boot 5 0)

theorem resyncedWorld_run : Run (ClockStep 5) (World.boot 5 1700000000)
    (twoSynchronisations 1700000000) resyncedWorld :=
  .of_runSteps (by decide +kernel)

theorem getTime_correct_iff_resynced :
    resyncedWorld.timeMs 5 = resyncedWorld.now * 1000 ↔ (5 : ℤ) = 0 ∨ Odd resyncedWorld.completed :=
  getTime_correct_iff (by decide) resyncedWorld_run

/-- After the second synchronisation the clock is five seconds fast again. -/
theorem getTime_wrong_after_resync : ∃ (es : List ClockEvent) (w : World),
    Run (ClockStep 5) (World.boot 5 1700000000) es w ∧ w.completed = 2 ∧
      w.timeMs 5 = (w.now + 5) * 1000 ∧ w.timeMs 5 ≠ w.now * 1000 :=
  ⟨_, _, resyncedWorld_run, by decide +kernel, by decide +kernel, by decide +kernel⟩

end PsychWard.Clock
