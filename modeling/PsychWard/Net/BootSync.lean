import PsychWard.Net.Solicited

/-!
# The boot-time synchronisation

The driver tells the rootserver that it is ready when the boot-time synchronisation is over: a reply
to an SNTP request has come, good or not, or the deadline has passed. `ntpBootSyncPending` is set only
before the loop of `main`, so there is one such moment.

`ClientEffect` has what a call of the main loop does to the variables of the SNTP client. A quiet call
leaves the boot-time synchronisation and the offset of the clock alone.
-/

namespace PsychWard.Net

open Clock Clock.NtpClient Traced

/-! ## Calls that leave the client alone -/

/-- The boot-time synchronisation, the offset of the clock and the request are as before. -/
structure SameSync (n n' : NetDriver) : Prop where
  readySignals : n'.readySignals = n.readySignals
  ntpBootSyncPending : n'.ntpBootSyncPending = n.ntpBootSyncPending
  ntpBootDeadlineMs : n'.ntpBootDeadlineMs = n.ntpBootDeadlineMs
  setOffsets : n'.setOffsets = n.setOffsets
  ntpOutstanding : n'.ntpOutstanding = n.ntpOutstanding
  ntpT1EpochS : n'.ntpT1EpochS = n.ntpT1EpochS
  requestsSent : n'.requestsSent = n.requestsSent

namespace SameSync

variable {n n' n'' : NetDriver}

theorem refl (n : NetDriver) : SameSync n n := ⟨rfl, rfl, rfl, rfl, rfl, rfl, rfl⟩

theorem trans (h : SameSync n n') (h' : SameSync n' n'') : SameSync n n'' where
  readySignals := h'.readySignals.trans h.readySignals
  ntpBootSyncPending := h'.ntpBootSyncPending.trans h.ntpBootSyncPending
  ntpBootDeadlineMs := h'.ntpBootDeadlineMs.trans h.ntpBootDeadlineMs
  setOffsets := h'.setOffsets.trans h.setOffsets
  ntpOutstanding := h'.ntpOutstanding.trans h.ntpOutstanding
  ntpT1EpochS := h'.ntpT1EpochS.trans h.ntpT1EpochS
  requestsSent := h'.requestsSent.trans h.requestsSent

/-- Pings do not concern the synchronisation. -/
theorem scheduleNextPing (timeMs : ℕ) : SameSync n (n.scheduleNextPing timeMs) := by
  rw [NetDriver.scheduleNextPing]
  split <;> exact ⟨rfl, rfl, rfl, rfl, rfl, rfl, rfl⟩

/-- Nor does sending them. -/
theorem checkPingSend (timeMs : ℕ) : SameSync n (n.checkPingSend timeMs) := by
  rw [NetDriver.checkPingSend]
  split
  · exact .refl n
  · split
    · rw [NetDriver.sendNextPing]
      split <;> exact ⟨rfl, rfl, rfl, rfl, rfl, rfl, rfl⟩
    · exact .refl n

/-- Nor does a series. -/
theorem startPingSeries (count timeMs : ℕ) : SameSync n (n.startPingSeries count timeMs) := by
  rw [NetDriver.startPingSeries]
  refine trans ?_ (checkPingSend timeMs)
  exact ⟨rfl, rfl, rfl, rfl, rfl, rfl, rfl⟩

/-- Nor does a time-out. -/
theorem checkPingTimeout (timeMs : ℕ) : SameSync n (n.checkPingTimeout timeMs) := by
  rw [NetDriver.checkPingTimeout]
  split
  · exact .refl n
  · split
    · exact .refl n
    · refine trans ?_ (scheduleNextPing timeMs)
      exact ⟨rfl, rfl, rfl, rfl, rfl, rfl, rfl⟩

/-- Nor does a reply. -/
theorem takeEcho (rttUs timeMs : ℕ) : SameSync n (takeEcho n rttUs timeMs) := by
  refine trans ?_ (scheduleNextPing timeMs)
  exact ⟨rfl, rfl, rfl, rfl, rfl, rfl, rfl⟩

end SameSync

/-! ## Quiet calls -/

/-- The boot-time synchronisation and the offset of the clock are left alone; a request may be sent,
at the time `timeMs`, or be given up. -/
structure Quiet (n n' : NetDriver) (timeMs : ℕ) : Prop where
  readySignals : n'.readySignals = n.readySignals
  ntpBootSyncPending : n'.ntpBootSyncPending = n.ntpBootSyncPending
  ntpBootDeadlineMs : n'.ntpBootDeadlineMs = n.ntpBootDeadlineMs
  setOffsets : n'.setOffsets = n.setOffsets
  request : RequestStep n.toNtpClient n'.toNtpClient timeMs

namespace Quiet

variable {n n' n'' : NetDriver} {timeMs : ℕ}

theorem of_same (h : SameSync n n') (timeMs : ℕ) : Quiet n n' timeMs :=
  ⟨h.readySignals, h.ntpBootSyncPending, h.ntpBootDeadlineMs, h.setOffsets,
    .inl ⟨h.ntpOutstanding, h.ntpT1EpochS, h.requestsSent⟩⟩

/-- A request that goes out ends no synchronisation. -/
theorem sends (timeMs : ℕ) (hready : n'.readySignals = n.readySignals)
    (hpending : n'.ntpBootSyncPending = n.ntpBootSyncPending)
    (hdeadline : n'.ntpBootDeadlineMs = n.ntpBootDeadlineMs)
    (hoffsets : n'.setOffsets = n.setOffsets) (hout : n'.ntpOutstanding = true)
    (ht1 : n'.ntpT1EpochS = timeMs / 1000) (hsent : n'.requestsSent = n.requestsSent + 1) :
    Quiet n n' timeMs :=
  ⟨hready, hpending, hdeadline, hoffsets, .inr (.inr ⟨hout, ht1, hsent⟩)⟩

/-- A resynchronisation ends no boot-time one. -/
theorem checkNtpResync (timeMs uptimeMs : ℕ) : Quiet n (n.checkNtpResync timeMs uptimeMs) timeMs := by
  rw [NetDriver.checkNtpResync]
  split
  · exact .of_same (.refl n) timeMs
  · split
    · exact .of_same (.refl n) timeMs
    · split
      · exact .sends timeMs rfl rfl rfl rfl rfl rfl rfl
      · refine .of_same ?_ timeMs
        exact ⟨rfl, rfl, rfl, rfl, rfl, rfl, rfl⟩

/-- No command ends it. -/
theorem handleCommand (m : NetMessage) (timeMs : ℕ) : Quiet n (n.handleCommand m timeMs) timeMs := by
  have heffect := handleCommand_effect n m timeMs
  generalize n.handleCommand m timeMs = n' at heffect ⊢
  cases heffect with
  | ping => exact .of_same (.startPingSeries _ timeMs) timeMs
  | asks | answered | dns =>
    refine .of_same ?_ timeMs
    exact ⟨rfl, rfl, rfl, rfl, rfl, rfl, rfl⟩
  | ntp => exact .sends timeMs rfl rfl rfl rfl rfl rfl rfl
  | ignored => exact .of_same (.refl n) timeMs

/-- Nor does the command that was pending. -/
theorem launchPending (timeMs : ℕ) : Quiet n (launchPending n timeMs) timeMs := by
  rw [Net.launchPending]
  split
  · refine .of_same ?_ timeMs
    exact ⟨rfl, rfl, rfl, rfl, rfl, rfl, rfl⟩
  · refine .of_same (.trans ?_ (.startPingSeries _ timeMs)) timeMs
    exact ⟨rfl, rfl, rfl, rfl, rfl, rfl, rfl⟩
  · refine .of_same ?_ timeMs
    exact ⟨rfl, rfl, rfl, rfl, rfl, rfl, rfl⟩
  · exact .sends timeMs rfl rfl rfl rfl rfl rfl rfl
  · exact .of_same (.refl n) timeMs

/-- A quiet step behind one that changed nothing. -/
theorem after_same (h : SameSync n n') (h' : Quiet n' n'' timeMs) : Quiet n n'' timeMs where
  readySignals := h'.readySignals.trans h.readySignals
  ntpBootSyncPending := h'.ntpBootSyncPending.trans h.ntpBootSyncPending
  ntpBootDeadlineMs := h'.ntpBootDeadlineMs.trans h.ntpBootDeadlineMs
  setOffsets := h'.setOffsets.trans h.setOffsets
  request := by
    have hreq := h'.request
    rwa [RequestStep, h.ntpOutstanding, h.ntpT1EpochS, h.requestsSent] at hreq

end Quiet

/-! ## What ends the boot-time synchronisation -/

/-- The frame is taken for the reply to an SNTP request. -/
def TakesNtpReply (n : NetDriver) : NetEvent → Prop
  | .frame descId mem _ =>
    descId < 4 ∧ IsUdpFrom mem (rxBufferOffset descId) 123 ∧ n.ntpOutstanding = true
  | _ => False

/-- The uptime has reached the deadline. -/
def ReachesDeadline (deadlineMs : ℕ) : NetEvent → Prop
  | .bootTimeout uptimeMs => deadlineMs ≤ uptimeMs
  | _ => False

/-- The time at which a call asks the timer. -/
def NetEvent.timeMs : NetEvent → ℕ
  | .frame _ _ timeMs | .command _ timeMs | .pingTimeout timeMs | .pingSend timeMs
  | .ntpResync timeMs _ => timeMs
  | .turn | .bootTimeout _ => 0

/-- What a call does to the variables of the client. -/
inductive ClientEffect (n : NetDriver) (e : NetEvent) : NetDriver → Prop
  | quiet {n' : NetDriver} (hreply : ¬ TakesNtpReply n e)
      (hdeadline : n.ntpBootSyncPending = true → ¬ ReachesDeadline n.ntpBootDeadlineMs e)
      (h : Quiet n n' e.timeMs) : ClientEffect n e n'
  | reply (descId timeMs : ℕ) (mem : Window) (he : e = .frame descId mem timeMs)
      (hreply : TakesNtpReply n e) (hout : n.ntpOutstanding = true) :
      ClientEffect n e (takeNtp n (ntpPacketOf mem (rxBufferOffset descId)) timeMs)
  | deadline (hpending : n.ntpBootSyncPending = true)
      (hdeadline : ReachesDeadline n.ntpBootDeadlineMs e) : ClientEffect n e
        { n with
          readySignals := n.readySignals + 1
          ntpBootSyncPending := false
          ntpOutstanding := false
          pendingCmd := if n.pendingCmd = .ntp then .none else n.pendingCmd }

section
variable {n : NetDriver} {descId timeMs : ℕ} {mem : Window}

/-- A datagram from the port of the time service answers the request. -/
theorem netStep_ntp (hdesc : descId < 4) (hudp : IsUdpFrom mem (rxBufferOffset descId) 123)
    (hout : n.ntpOutstanding = true) : netStep n (.frame descId mem timeMs) =
      takeNtp n (ntpPacketOf mem (rxBufferOffset descId)) timeMs := by
  obtain ⟨hip, hport⟩ := hudp
  have hframe : (receiveFrame rxBufferLen (rxBufferOffset descId) timeMs n).val mem =
      some (takeNtp n (ntpPacketOf mem (rxBufferOffset descId)) timeMs) := by
    rw [receiveFrame_udp hip, receiveUdp, val_bind, val_bind]
    rw [transportOf] at hport
    rw [hport, if_neg (by decide), if_pos ⟨rfl, hout⟩, val_map]
    rfl
  rw [netStep, netPoll, if_neg (by omega), hframe]
  rfl

/-- A frame can end it: with the SNTP reply. -/
theorem frame_effect (n : NetDriver) (descId : ℕ) (mem : Window) (timeMs : ℕ) :
    ClientEffect n (.frame descId mem timeMs) (netStep n (.frame descId mem timeMs)) := by
  by_cases hreply : TakesNtpReply n (.frame descId mem timeMs)
  · rw [netStep_ntp hreply.1 hreply.2.1 hreply.2.2]
    exact .reply descId timeMs mem rfl hreply hreply.2.2
  · refine .quiet hreply (fun _ h => h) ?_
    rcases netStep_frame n descId mem timeMs with ⟨-, hsame⟩ | ⟨hdesc, heffect⟩
    · rw [hsame]
      exact .of_same (.refl n) timeMs
    · generalize netStep n (.frame descId mem timeMs) = n' at heffect
      cases heffect with
      | arp h hmac =>
        refine .after_same ?_ (.launchPending timeMs)
        exact ⟨rfl, rfl, rfl, rfl, rfl, rfl, rfl⟩
      | echo rttUs h hout => exact .of_same (.takeEcho rttUs timeMs) timeMs
      | dns | datagram =>
        refine .of_same ?_ timeMs
        exact ⟨rfl, rfl, rfl, rfl, rfl, rfl, rfl⟩
      | ntp h hout => exact absurd ⟨hdesc, h, hout⟩ hreply
      | ignored => exact .of_same (.refl n) timeMs

end

/-- So can the check of the deadline. -/
theorem bootTimeout_effect (n : NetDriver) (uptimeMs : ℕ) :
    ClientEffect n (.bootTimeout uptimeMs) (n.checkBootNtpTimeout uptimeMs) := by
  rw [NetDriver.checkBootNtpTimeout, NetDriver.client, NtpClient.checkBootNtpTimeout]
  by_cases hpending : n.ntpBootSyncPending = true
  · rw [if_neg (by simp [hpending])]
    by_cases hbefore : uptimeMs < n.ntpBootDeadlineMs
    · rw [if_pos hbefore]
      exact .quiet id (fun _ h => absurd h (Nat.not_le.mpr hbefore)) (.of_same (.refl n) 0)
    · rw [if_neg hbefore]
      exact .deadline hpending (Nat.not_lt.mp hbefore)
  · rw [if_pos (by simpa using hpending)]
    exact .quiet id (fun h => absurd h hpending) (.of_same (.refl n) 0)

/-- The effect of a call on the synchronisation. -/
theorem netStep_client (n : NetDriver) (e : NetEvent) : ClientEffect n e (netStep n e) := by
  cases e with
  | frame descId mem t => exact frame_effect n descId mem t
  | command m t => exact .quiet id (fun _ => id) (.handleCommand m t)
  | turn =>
    refine .quiet id (fun _ => id) (.of_same ?_ 0)
    exact ⟨rfl, rfl, rfl, rfl, rfl, rfl, rfl⟩
  | pingTimeout t => exact .quiet id (fun _ => id) (.of_same (.checkPingTimeout t) t)
  | pingSend t => exact .quiet id (fun _ => id) (.of_same (.checkPingSend t) t)
  | ntpResync t u => exact .quiet id (fun _ => id) (.checkNtpResync t u)
  | bootTimeout u => exact bootTimeout_effect n u

/-! ## The ways into the loop of `main` -/

/-- What `main` finds: no shared window, no network device, or a device when the uptime is
`uptimeMs`. -/
inductive MainStart
  | noShm
  | noDevice
  | device (uptimeMs : ℕ)

/-- When the boot-time synchronisation is given up. -/
def bootDeadlineMs (uptimeMs : ℕ) : ℕ := (uptimeMs + ntpBootTimeoutMs) % 2 ^ 64

namespace MainStart

/-- The driver behind the start-up code. Without a window or a device the signal has been sent. -/
def enter : MainStart → NetDriver
  | .device uptimeMs => .start uptimeMs
  | _ => { NetDriver.start 0 with
      pendingCmd := .none, ntpBootSyncPending := false, ntpBootDeadlineMs := 0,
      ntpNextResyncUptimeMs := 0, arpOutstanding := false, readySignals := 1 }

/-- Without a device a turn of the loop only counts; without a window there is no loop. -/
def step : MainStart → NetDriver → NetEvent → NetDriver
  | .device _, n, e => netStep n e
  | .noDevice, n, .turn => netStep n .turn
  | _, n, _ => n

def Step (b : MainStart) (n : NetDriver) (e : NetEvent) (n' : NetDriver) : Prop := b.step n e = n'

/-- The call ends a boot-time synchronisation that is pending: a reply is taken, good or not, or the
deadline is reached. -/
def Ends : MainStart → NetDriver → NetEvent → Prop
  | .device uptimeMs, n, e => TakesNtpReply n e ∨ ReachesDeadline (bootDeadlineMs uptimeMs) e
  | _, _, _ => False

/-- The boot-time synchronisation has come to an end; there is none without a device. -/
def Ended : MainStart → List NetEvent → Prop
  | .device uptimeMs, es => ∃ pre e post m, es = pre ++ e :: post ∧
      Run (MainStart.device uptimeMs).Step (.start uptimeMs) pre m ∧
      (MainStart.device uptimeMs).Ends m e
  | _, _ => True

end MainStart

/-! ## Runs -/

/-- A reply to an outstanding request ends it, if it is on. -/
theorem pollNtpReply_boot {c : NtpClient} (p : NtpPacket) (timeMs : ℕ)
    (hout : c.ntpOutstanding = true) :
    (c.pollNtpReply p timeMs).1.readySignals =
        (if c.ntpBootSyncPending = true then c.readySignals + 1 else c.readySignals) ∧
      (c.pollNtpReply p timeMs).1.ntpBootSyncPending = false ∧
      (c.pollNtpReply p timeMs).1.ntpBootDeadlineMs = c.ntpBootDeadlineMs := by
  have hfinish : ∀ d : NtpClient, d.finishBootSync.readySignals =
        (if d.ntpBootSyncPending = true then d.readySignals + 1 else d.readySignals) ∧
      d.finishBootSync.ntpBootSyncPending = false ∧
      d.finishBootSync.ntpBootDeadlineMs = d.ntpBootDeadlineMs := by
    intro d
    rw [finishBootSync]
    split
    · exact ⟨rfl, rfl, rfl⟩
    · rename_i hpending
      exact ⟨rfl, by simpa using hpending, rfl⟩
  rw [pollNtpReply, if_neg (by simp [hout])]
  split
  · exact hfinish { c with ntpOutstanding := false, mailbox := 0 }
  · exact hfinish _

/-- The signal has been sent when the boot-time synchronisation is no longer pending. -/
structure BootInv (uptimeMs : ℕ) (n : NetDriver) : Prop where
  signals : n.readySignals = if n.ntpBootSyncPending = true then 0 else 1
  deadline : n.ntpBootDeadlineMs = bootDeadlineMs uptimeMs

/-- The invariant holds at the start. -/
theorem bootInv_start (uptimeMs : ℕ) : BootInv uptimeMs (.start uptimeMs) := ⟨rfl, rfl⟩

/-- A call ends the pending synchronisation, or leaves it as it is. -/
theorem BootInv.step {uptimeMs : ℕ} {n : NetDriver} (h : BootInv uptimeMs n) (e : NetEvent) :
    BootInv uptimeMs (netStep n e) ∧ ((netStep n e).readySignals = 1 ↔
      n.readySignals = 1 ∨ (MainStart.device uptimeMs).Ends n e) := by
  have heffect := netStep_client n e
  generalize netStep n e = n' at heffect
  have hsignals := h.signals
  cases heffect with
  | quiet hreply hdeadline hquiet =>
    refine ⟨⟨?_, hquiet.ntpBootDeadlineMs.trans h.deadline⟩, ?_⟩
    · rw [hquiet.readySignals, hquiet.ntpBootSyncPending]
      exact hsignals
    · rw [hquiet.readySignals]
      refine ⟨.inl, ?_⟩
      rintro (hone | hends | hends)
      · exact hone
      · exact absurd hends hreply
      · -- The deadline does nothing only when the end has come before.
        rw [hsignals]
        refine if_neg fun hpending => hdeadline hpending ?_
        rw [h.deadline]
        exact hends
  | reply descId timeMs mem he hreply hout =>
    obtain ⟨hready, hpending, hdeadline⟩ := pollNtpReply_boot (c := n.toNtpClient)
      (ntpPacketOf mem (rxBufferOffset descId)) timeMs hout
    have hone : (takeNtp n (ntpPacketOf mem (rxBufferOffset descId)) timeMs).readySignals = 1 := by
      refine hready.trans ?_
      rw [hsignals]
      split <;> rfl
    refine ⟨⟨?_, hdeadline.trans h.deadline⟩, fun _ => .inr (.inl hreply), fun _ => hone⟩
    rw [hone]
    exact (if_neg (by simp [takeNtp, hpending])).symm
  | deadline hpending hdeadline =>
    rw [if_pos hpending] at hsignals
    refine ⟨⟨by rw [hsignals]; rfl, h.deadline⟩, fun _ => .inr (.inr ?_), fun _ => by rw [hsignals]⟩
    rw [← h.deadline]
    exact hdeadline

namespace MainStart

variable {b : MainStart} {es : List NetEvent} {n : NetDriver}

/-- It has ended if it had, or ends with the last call. -/
theorem ended_snoc {uptimeMs : ℕ} {e : NetEvent}
    (h : Run (MainStart.device uptimeMs).Step (.start uptimeMs) es n) :
    (MainStart.device uptimeMs).Ended (es ++ [e]) ↔
      (MainStart.device uptimeMs).Ended es ∨ (MainStart.device uptimeMs).Ends n e := by
  constructor
  · rintro ⟨pre, a, post, m, heq, hrun, hends⟩
    rcases List.eq_nil_or_concat post with rfl | ⟨post, z, rfl⟩
    · obtain ⟨rfl, hlast⟩ := List.append_inj' heq rfl
      obtain rfl := List.singleton_inj.mp hlast
      obtain rfl := hrun.deterministic (fun _ _ _ _ he he' => he.symm.trans he') h
      exact .inr hends
    · rw [List.concat_eq_append, ← List.cons_append, ← List.append_assoc] at heq
      obtain ⟨rfl, -⟩ := List.append_inj' heq rfl
      exact .inl ⟨pre, a, post, m, rfl, hrun, hends⟩
  · rintro (⟨pre, a, post, m, rfl, hrun, hends⟩ | hends)
    · exact ⟨pre, a, post ++ [e], m, by simp, hrun, hends⟩
    · exact ⟨es, e, [], n, rfl, h, hends⟩

/-- The invariant of a whole run. -/
theorem bootInv_of_run {uptimeMs : ℕ}
    (h : Run (MainStart.device uptimeMs).Step (.start uptimeMs) es n) : BootInv uptimeMs n := by
  refine h.invariant (I := BootInv uptimeMs) ?_ (bootInv_start uptimeMs)
  rintro t e _ hinv rfl
  exact (hinv.step e).1

/-- Without a device the signal has been sent before the loop, and the loop sends none. -/
theorem readySignals_noLoop (hb : ∀ uptimeMs, b ≠ .device uptimeMs)
    (h : Run b.Step b.enter es n) : n.readySignals = 1 := by
  refine h.invariant (I := fun n => n.readySignals = 1) ?_ ?_
  · rintro t e _ hone rfl
    cases b with
    | noShm => exact hone
    | noDevice => cases e <;> exact hone
    | device uptimeMs => exact absurd rfl (hb uptimeMs)
  · cases b with
    | noShm | noDevice => rfl
    | device uptimeMs => exact absurd rfl (hb uptimeMs)

/-- The signal has been sent exactly when the boot-time synchronisation has ended. -/
theorem readySignals_iff (h : Run b.Step b.enter es n) :
    n.readySignals ≤ 1 ∧ (n.readySignals = 1 ↔ b.Ended es) := by
  cases b with
  | noShm | noDevice =>
    have hone := readySignals_noLoop (by simp) h
    exact ⟨hone.le, fun _ => trivial, fun _ => hone⟩
  | device uptimeMs =>
    refine ⟨?_, ?_⟩
    · have hsignals := (bootInv_of_run h).signals
      split at hsignals <;> omega
    · induction h with
      | nil =>
        refine ⟨fun h => absurd h Nat.zero_ne_one, ?_⟩
        rintro ⟨pre, e, post, m, heq, -⟩
        simp at heq
      | snoc hrun he ih =>
        obtain rfl := he
        rw [ended_snoc hrun, ← ih]
        exact ((bootInv_of_run hrun).step _).2

/-- The rootserver is told once, by the call that ends the boot-time synchronisation. -/
theorem ready_once (h : Run b.Step b.enter es n) :
    n.readySignals ≤ 1 ∧ (n.readySignals = 1 ↔ b.Ended es) ∧
      ∀ e, (b.step n e).readySignals = n.readySignals + 1 ↔ ¬ b.Ended es ∧ b.Ends n e := by
  obtain ⟨hle, hiff⟩ := readySignals_iff h
  refine ⟨hle, hiff, fun e => ?_⟩
  obtain ⟨hle', hiff'⟩ := readySignals_iff (h.snoc (e := e) rfl)
  cases b with
  | noShm | noDevice =>
    refine ⟨fun hone => ?_, fun h => absurd trivial h.1⟩
    have := hiff.mpr trivial
    omega
  | device uptimeMs =>
    rw [ended_snoc h, ← hiff] at hiff'
    rw [← hiff]
    constructor
    · intro hone
      have hzero : n.readySignals ≠ 1 := by omega
      exact ⟨hzero, (hiff'.mp (by omega)).resolve_left hzero⟩
    · rintro ⟨hzero, hends⟩
      have := hiff'.mpr (.inr hends)
      omega

/-- No reply comes: the signal is sent when the deadline is reached, and not again. -/
theorem ready_once_noReply :
    let es : List NetEvent := [.turn, .bootTimeout 500, .bootTimeout (ntpBootTimeoutMs + 700)]
    let n := es.foldl netStep (.start 600)
    n.readySignals ≤ 1 ∧ (n.readySignals = 1 ↔ (MainStart.device 600).Ended es) ∧
      ∀ e, ((MainStart.device 600).step n e).readySignals = n.readySignals + 1 ↔
        ¬ (MainStart.device 600).Ended es ∧ (MainStart.device 600).Ends n e :=
  ready_once (.cons rfl (.cons rfl (.single rfl)))

end MainStart

end PsychWard.Net
