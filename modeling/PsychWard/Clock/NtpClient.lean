import PsychWard.Clock.TimerDriver

/-!
# The SNTP client of the network driver

The part of `net_driver.cpp` that decides when an SNTP request is sent and what a reply does. Three
things start a request: the boot-time synchronisation, the periodic one and the shell's `ntp`
command. While the gateway's address is unknown a request waits in `pending_cmd` for the ARP reply;
the other shell commands use the same variable, so they are here as far as they touch it.

The driver measures on the timer driver's clock. `timeMs` is what `SYS_GET_TIME` answers when the
driver asks and `uptimeMs` what `SYS_GET_UPTIME` answers.
-/

namespace PsychWard.Clock

/-- `enum NetCommand`. -/
inductive NetCommand
  | none
  | ping
  | send
  | status
  | resolve
  | recv
  | ntp
deriving DecidableEq, Repr

/-- Seconds between the NTP epoch (1900) and the Unix epoch (1970). -/
def ntpUnixEpochDelta : ℕ := 2208988800

def ntpResyncIntervalMs : ℕ := 30 * 60 * 1000

def ntpBootTimeoutMs : ℕ := 5000

/-- The driver's variables for the SNTP client, and the two it shares with the other commands. -/
structure NtpClient where
  haveRouterMac : Bool
  pendingCmd : NetCommand
  ntpOutstanding : Bool
  ntpT1EpochS : ℕ
  ntpLastOffsetS : ℕ
  ntpLastOffsetNegative : Bool
  ntpSynced : Bool
  ntpBootSyncPending : Bool
  ntpBootDeadlineMs : ℕ
  ntpNextResyncUptimeMs : ℕ
  /-- the word at offset 4060 of the shared window that the shell polls -/
  mailbox : ℕ
  /-- how often `SYS_DRIVER_READY` was sent, and how many SNTP requests -/
  readySignals : ℕ
  requestsSent : ℕ
deriving DecidableEq, Repr

/-- What `net_poll` reads of a datagram from port 123. -/
structure NtpPacket where
  /-- the 48 bytes lie inside the receive buffer -/
  fits : Bool
  liVnMode : ℕ
  stratum : ℕ
  /-- receive and transmit timestamps, seconds in host byte order -/
  rxTsSec : ℕ
  txTsSec : ℕ
deriving DecidableEq, Repr

/-- The packet is an SNTP server's answer: mode 4 and no kiss-of-death. -/
def NtpPacket.accepted (p : NtpPacket) : Bool :=
  p.fits && !(p.stratum == 0 || p.liVnMode % 8 != 4)

namespace NtpClient

/-- `net_send_ntp_request`: remember T1, send the packet and mark the request outstanding. -/
def sendNtpRequest (n : NtpClient) (timeMs : ℕ) : NtpClient :=
  { n with
    ntpT1EpochS := timeMs / 1000
    ntpOutstanding := true
    requestsSent := n.requestsSent + 1 }

/-- `net_schedule_next_ntp_resync`. -/
def scheduleNextNtpResync (n : NtpClient) (uptimeMs : ℕ) : NtpClient :=
  { n with ntpNextResyncUptimeMs := (uptimeMs + ntpResyncIntervalMs) % 2 ^ 64 }

/-- `signal_net_driver_ready`. -/
def signalNetDriverReady (n : NtpClient) : NtpClient :=
  { n with readySignals := n.readySignals + 1 }

/-- The state in which `main` enters its loop when a network device was found: the boot-time
synchronisation waits for the ARP reply. -/
def start (uptimeMs : ℕ) : NtpClient :=
  scheduleNextNtpResync
    { haveRouterMac := false, pendingCmd := .ntp, ntpOutstanding := false, ntpT1EpochS := 0,
      ntpLastOffsetS := 0, ntpLastOffsetNegative := false, ntpSynced := false,
      ntpBootSyncPending := true, ntpBootDeadlineMs := (uptimeMs + ntpBootTimeoutMs) % 2 ^ 64,
      ntpNextResyncUptimeMs := 0, mailbox := 0, readySignals := 0, requestsSent := 0 } uptimeMs

/-- `net_check_boot_ntp_timeout`. -/
def checkBootNtpTimeout (n : NtpClient) (uptimeMs : ℕ) : NtpClient :=
  if !n.ntpBootSyncPending then n
  else if uptimeMs < n.ntpBootDeadlineMs then n
  else
    signalNetDriverReady
      { n with
        ntpBootSyncPending := false
        ntpOutstanding := false
        pendingCmd := if n.pendingCmd = .ntp then .none else n.pendingCmd }

/-- `net_check_ntp_resync`. -/
def checkNtpResync (n : NtpClient) (timeMs uptimeMs : ℕ) : NtpClient :=
  if n.ntpOutstanding || n.pendingCmd == .ntp then n
  else if uptimeMs < n.ntpNextResyncUptimeMs then n
  else if n.haveRouterMac then (n.sendNtpRequest timeMs).scheduleNextNtpResync uptimeMs
  else ({ n with pendingCmd := .ntp }).scheduleNextNtpResync uptimeMs

/-- `net_handle_command`, as far as the client's variables go. The shell has set the mailbox word
to 1 before it sends the command. -/
def handleCommand (n : NtpClient) (cmd : NetCommand) (timeMs : ℕ) : NtpClient :=
  let n := { n with mailbox := 1 }
  match cmd with
  | .ping => if n.haveRouterMac then n else { n with pendingCmd := .ping }
  | .send => if n.haveRouterMac then { n with mailbox := 0 } else { n with pendingCmd := .send }
  | .resolve => if n.haveRouterMac then n else { n with pendingCmd := .resolve }
  | .status | .recv => { n with mailbox := 0 }
  | .ntp =>
    if n.ntpOutstanding then { n with mailbox := 0 }
    else if n.haveRouterMac then n.sendNtpRequest timeMs
    else { n with pendingCmd := .ntp }
  | .none => n

/-- `net_poll` on an ARP reply: the first one launches the pending command. -/
def pollArpReply (n : NtpClient) (timeMs : ℕ) : NtpClient :=
  if n.haveRouterMac then n
  else
    let n := { n with haveRouterMac := true }
    match n.pendingCmd with
    | .resolve | .ping => { n with pendingCmd := .none }
    | .send => { n with pendingCmd := .none, mailbox := 0 }
    | .ntp => ({ n with pendingCmd := .none }).sendNtpRequest timeMs
    | _ => n

/-- The end of the boot-time synchronisation, good or failed. -/
def finishBootSync (n : NtpClient) : NtpClient :=
  if n.ntpBootSyncPending then signalNetDriverReady { n with ntpBootSyncPending := false } else n

/-- The offset formula of `net_poll`, in its integer types: `((T2 - T1) + (T3 - T4)) / 2`. -/
def offsetS (t1 t4 : ℕ) (p : NtpPacket) : ℤ :=
  let t2 := toWord (p.rxTsSec - ntpUnixEpochDelta)
  let t3 := toWord (p.txTsSec - ntpUnixEpochDelta)
  (wrap64 (wrap64 ((t2 : ℤ) - t1) + wrap64 ((t3 : ℤ) - t4))).tdiv 2

/-- `net_poll` on a datagram from port 123. The second component is the argument of the
`SYS_SET_TIME_OFFSET` call, `none` when there is none. A datagram that answers no request is stored
for `recv` and changes nothing here. -/
def pollNtpReply (n : NtpClient) (p : NtpPacket) (timeMs : ℕ) : NtpClient × Option ℕ :=
  if !n.ntpOutstanding then (n, none)
  else
    let n := { n with ntpOutstanding := false }
    if !p.accepted then (finishBootSync { n with mailbox := 0 }, none)
    else
      let offset := offsetS n.ntpT1EpochS (timeMs / 1000) p
      (finishBootSync
        { n with
          ntpSynced := true
          ntpLastOffsetNegative := offset < 0
          ntpLastOffsetS := (offset.natAbs) % 2 ^ 32
          mailbox := 0 },
        some (toWord offset))

/-! ## When a request is outstanding and what it remembers -/

/-- What a step that reads no reply does to the request: it leaves the request and its T1 alone,
drops it, or sends one at a moment when the timer's clock shows `timeMs`. -/
def RequestStep (n n' : NtpClient) (timeMs : ℕ) : Prop :=
  (n'.ntpOutstanding = n.ntpOutstanding ∧ n'.ntpT1EpochS = n.ntpT1EpochS ∧
      n'.requestsSent = n.requestsSent) ∨
    (n'.ntpOutstanding = false ∧ n'.requestsSent = n.requestsSent) ∨
    (n'.ntpOutstanding = true ∧ n'.ntpT1EpochS = timeMs / 1000 ∧
      n'.requestsSent = n.requestsSent + 1)

theorem RequestStep.refl (n : NtpClient) (timeMs : ℕ) : RequestStep n n timeMs :=
  Or.inl ⟨rfl, rfl, rfl⟩

theorem checkBootNtpTimeout_requestStep (n : NtpClient) (timeMs uptimeMs : ℕ) :
    RequestStep n (n.checkBootNtpTimeout uptimeMs) timeMs := by
  unfold checkBootNtpTimeout
  split
  · exact .refl n timeMs
  · split
    · exact .refl n timeMs
    · exact Or.inr (Or.inl ⟨rfl, rfl⟩)

theorem checkNtpResync_requestStep (n : NtpClient) (timeMs uptimeMs : ℕ) :
    RequestStep n (n.checkNtpResync timeMs uptimeMs) timeMs := by
  unfold checkNtpResync scheduleNextNtpResync
  split
  · exact .refl n timeMs
  · split
    · exact .refl n timeMs
    · split
      · exact Or.inr (Or.inr ⟨rfl, rfl, rfl⟩)
      · exact Or.inl ⟨rfl, rfl, rfl⟩

theorem handleCommand_requestStep (n : NtpClient) (cmd : NetCommand) (timeMs : ℕ) :
    RequestStep n (n.handleCommand cmd timeMs) timeMs := by
  cases cmd with
  | none | status | recv => exact Or.inl ⟨rfl, rfl, rfl⟩
  | ping | send | resolve =>
    simp only [handleCommand]
    split <;> exact Or.inl ⟨rfl, rfl, rfl⟩
  | ntp =>
    simp only [handleCommand]
    split
    · exact Or.inl ⟨rfl, rfl, rfl⟩
    · split
      · exact Or.inr (Or.inr ⟨rfl, rfl, rfl⟩)
      · exact Or.inl ⟨rfl, rfl, rfl⟩

theorem pollArpReply_requestStep (n : NtpClient) (timeMs : ℕ) :
    RequestStep n (n.pollArpReply timeMs) timeMs := by
  unfold pollArpReply
  split
  · exact .refl n timeMs
  · cases hp : n.pendingCmd with
    | ntp => exact Or.inr (Or.inr ⟨rfl, rfl, rfl⟩)
    | none | ping | send | status | resolve | recv => exact Or.inl ⟨rfl, rfl, rfl⟩

theorem finishBootSync_outstanding (n : NtpClient) :
    n.finishBootSync.ntpOutstanding = n.ntpOutstanding := by
  unfold finishBootSync
  split <;> rfl

/-- After a datagram from port 123 no request is outstanding. -/
theorem pollNtpReply_outstanding (n : NtpClient) (p : NtpPacket) (timeMs : ℕ) :
    (n.pollNtpReply p timeMs).1.ntpOutstanding = false := by
  unfold pollNtpReply
  by_cases hout : n.ntpOutstanding = true
  · simp only [hout, Bool.not_true, Bool.false_eq_true, if_false]
    split <;> exact finishBootSync_outstanding _
  · simp [hout]

theorem pollNtpReply_pendingCmd (n : NtpClient) (p : NtpPacket) (timeMs : ℕ) :
    (n.pollNtpReply p timeMs).1.pendingCmd = n.pendingCmd := by
  have hfinish : ∀ c : NtpClient, c.finishBootSync.pendingCmd = c.pendingCmd := by
    intro c
    rw [finishBootSync]
    split <;> rfl
  rw [pollNtpReply]
  split
  · rfl
  · split <;> exact hfinish _

theorem pollNtpReply_requestsSent (n : NtpClient) (p : NtpPacket) (timeMs : ℕ) :
    (n.pollNtpReply p timeMs).1.requestsSent = n.requestsSent := by
  have hfinish : ∀ c : NtpClient, c.finishBootSync.requestsSent = c.requestsSent := by
    intro c
    rw [finishBootSync]
    split <;> rfl
  rw [pollNtpReply]
  split
  · rfl
  · split <;> exact hfinish _

/-- The clock is set by a reply to an outstanding request that the driver accepts, and then to the
offset of the formula. -/
theorem pollNtpReply_offset (n : NtpClient) (p : NtpPacket) (timeMs : ℕ) :
    (n.pollNtpReply p timeMs).2 =
      if n.ntpOutstanding && p.accepted then
        some (toWord (offsetS n.ntpT1EpochS (timeMs / 1000) p)) else none := by
  unfold pollNtpReply
  cases n.ntpOutstanding <;> cases p.accepted <;> rfl

/-- With server timestamps equal to the true time `now` and both ends of the exchange measured in
that second on a clock that is `c` seconds ahead, the formula yields `-c`. -/
theorem offsetS_eq {p : NtpPacket} {now t1 : ℕ} {c : ℤ} (hrx : p.rxTsSec = now + ntpUnixEpochDelta)
    (htx : p.txTsSec = now + ntpUnixEpochDelta) (ht1 : (t1 : ℤ) = now + c)
    (hnow : now < 2 ^ 32) (hc₁ : -2 ^ 33 < c) (hc₂ : c < 2 ^ 33) :
    offsetS t1 t1 p = -c := by
  have hnow' : (toWord (now : ℤ) : ℤ) = now := toWord_of_nonneg (by omega) (by omega)
  have hdiff : wrap64 ((now : ℤ) - t1) = -c := by
    rw [wrap64_eq_self] <;> omega
  have hsum : wrap64 (-c + -c) = -c * 2 := by
    rw [wrap64_eq_self] <;> omega
  unfold offsetS
  simp only [hrx, htx, Nat.cast_add, add_sub_cancel_right, hnow', hdiff, hsum]
  exact Int.mul_tdiv_cancel _ (by norm_num)

end NtpClient

end PsychWard.Clock
