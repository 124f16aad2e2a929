import PsychWard.Net.Solicited
import Mathlib.Data.Nat.ModEq

/-!
# The pings of the driver

`PingState` is what the four functions of a ping series share: the last sequence number, the request
that is outstanding, how many are still to be sent, and the three counters that `netstat` prints. A
call of the main loop leaves it alone, sends a request when none is outstanding, settles the one that
is, by its reply or by the timeout, or starts a series; `pingMarks` records what it does.

The counters balance as long as no command starts a series while a request is outstanding. Then the
request is neither answered nor timed out: it is dropped, and only counted as sent.
-/

namespace PsychWard.Net

/-! ## Requests and what becomes of them -/

inductive PingEnd
  | reply
  | timeout
deriving DecidableEq, Repr

/-- What the ping code does. -/
inductive PingMark
  | sent (seq : ℕ)
  | settled (how : PingEnd) (seq : ℕ)
  /-- the mailbox is cleared -/
  | cleared
deriving DecidableEq, Repr

/-- The variables of the ping code, without the times. -/
structure PingState where
  nextSeq : ℕ
  outstandingSeq : ℕ
  outstanding : Bool
  remaining : ℕ
  sent : ℕ
  replied : ℕ
  timedOut : ℕ
deriving DecidableEq, Repr

/-- The sequence number after `seq`. -/
def seqAfter (seq : ℕ) : ℕ := if (seq + 1) % 2 ^ 16 = 0 then 1 else (seq + 1) % 2 ^ 16

namespace PingState

variable (p : PingState)

/-- A request goes out under the next number. -/
def send : PingState :=
  { p with
    nextSeq := seqAfter p.nextSeq
    outstandingSeq := seqAfter p.nextSeq
    outstanding := true
    remaining := p.remaining - 1
    sent := (p.sent + 1) % 2 ^ 32 }

/-- The request is answered, or has timed out. -/
def settle : PingEnd → PingState
  | .reply => { p with outstanding := false, replied := (p.replied + 1) % 2 ^ 32 }
  | .timeout => { p with outstanding := false, timedOut := (p.timedOut + 1) % 2 ^ 32 }

/-- A new series. -/
def restart (count : ℕ) : PingState := { p with remaining := clampPings count, outstanding := false }

/-- Every request that was sent was answered, timed out, or is outstanding. -/
def Balanced : Prop :=
  p.sent ≡ p.replied + p.timedOut + (if p.outstanding then 1 else 0) [MOD 2 ^ 32]

end PingState

/-- What a call that starts no series can do. -/
inductive PingTrans (p : PingState) : List PingMark → PingState → Prop
  | idle : PingTrans p [] p
  | send (hout : p.outstanding = false) (hrem : 0 < p.remaining) :
      PingTrans p [.sent (seqAfter p.nextSeq)] p.send
  | settle (how : PingEnd) (hout : p.outstanding = true) :
      PingTrans p (.settled how p.outstandingSeq :: if 0 < p.remaining then [] else [.cleared])
        (p.settle how)

/-! ## The marks of the code -/

namespace NetDriver

variable (n : NetDriver)

/-- The pings of the driver. -/
def pings : PingState :=
  ⟨n.pingNextSeq, n.pingOutstandingSeq, n.pingOutstanding, n.pingSeriesRemaining, n.pingSentCount,
    n.pingStats.replyCount, n.pingTimeoutCount⟩

/-- A request has been sent. -/
def sendPingMarks : List PingMark := [.sent n.sendPing.pingOutstandingSeq]

/-- Behind the last ping the mailbox is cleared. -/
def scheduleNextPingMarks : List PingMark := if 0 < n.pingSeriesRemaining then [] else [.cleared]

/-- A request has been sent, if the series goes on. -/
def sendNextPingMarks : List PingMark :=
  if n.pingOutstanding || n.pingSeriesRemaining == 0 then []
  else sendPingMarks { n with pingSeriesRemaining := n.pingSeriesRemaining - 1 }

/-- So it has when the next ping was due. -/
def checkPingSendMarks (timeMs : ℕ) : List PingMark :=
  if n.pingOutstanding || n.pingSeriesRemaining == 0 then []
  else if n.pingNextSendMs = 0 ∨ n.pingNextSendMs ≤ timeMs then
    sendNextPingMarks { n with pingNextSendMs := 0 }
  else []

/-- The first request of a series. -/
def startPingSeriesMarks (count timeMs : ℕ) : List PingMark :=
  checkPingSendMarks
    { n with
      pingSeriesRemaining := clampPings count
      pingOutstanding := false
      pingNextSendMs := 0 } timeMs

/-- A request has timed out. -/
def checkPingTimeoutMarks : List PingMark :=
  if !n.pingOutstanding then []
  else if n.loopsPassed < pingTimeoutLoops then []
  else .settled .timeout n.pingOutstandingSeq :: n.scheduleNextPingMarks

/-- The marks of the branch of `net_poll` for the reply to the outstanding request. -/
def takeEchoMarks : List PingMark := .settled .reply n.pingOutstandingSeq :: n.scheduleNextPingMarks

end NetDriver

/-- The marks that a call of the main loop leaves. -/
def pingMarks (n : NetDriver) : NetEvent → List PingMark
  | .frame descId mem timeMs =>
    if 4 ≤ descId then []
    else if IsEchoReply mem (rxBufferOffset descId) n.pingOutstandingSeq ∧
        n.pingOutstanding = true then n.takeEchoMarks
    else if IsArpReply mem (rxBufferOffset descId) ∧ n.haveRouterMac = false ∧
        n.pendingCmd = .ping then n.startPingSeriesMarks n.pendingPingCount timeMs
    else []
  | .command m timeMs =>
    if m.cmd = .ping ∧ 3 ≤ m.length ∧ n.haveRouterMac = true then
      n.startPingSeriesMarks (clampPings (m.mr2 % 2 ^ 32)) timeMs
    else []
  | .pingTimeout _ => n.checkPingTimeoutMarks
  | .pingSend timeMs => n.checkPingSendMarks timeMs
  | _ => []

/-- The call is one of `net_start_ping_series` with `count` requests. -/
def StartsSeries (n : NetDriver) (count : ℕ) : NetEvent → Prop
  | .frame descId mem _ => descId < 4 ∧ IsArpReply mem (rxBufferOffset descId) ∧
      n.haveRouterMac = false ∧ n.pendingCmd = .ping ∧ count = n.pendingPingCount
  | .command m _ => m.cmd = .ping ∧ 3 ≤ m.length ∧ n.haveRouterMac = true ∧
      count = clampPings (m.mr2 % 2 ^ 32)
  | _ => False

/-! ## The functions -/

section
variable {n : NetDriver} {timeMs : ℕ}

/-- A series has a ping at least. -/
theorem clampPings_pos (count : ℕ) : 0 < clampPings count := by
  rw [clampPings]
  split
  · exact Nat.zero_lt_one
  · split <;> omega

/-- A ping that remains is sent when nothing is outstanding. -/
theorem sendNextPing_send (hout : n.pingOutstanding = false) (hrem : 0 < n.pingSeriesRemaining) :
    n.sendNextPing.pings = n.pings.send ∧ n.sendNextPingMarks = [.sent (seqAfter n.pingNextSeq)] := by
  have hidle : ¬ (n.pingOutstanding || n.pingSeriesRemaining == 0) = true := by
    simp only [hout, Bool.false_or, beq_iff_eq]
    exact hrem.ne'
  rw [NetDriver.sendNextPing, NetDriver.sendNextPingMarks, if_neg hidle, if_neg hidle]
  exact ⟨rfl, rfl⟩

/-- A request is sent when its time has come. -/
theorem checkPingSend_trans : PingTrans n.pings (n.checkPingSendMarks timeMs)
    (n.checkPingSend timeMs).pings := by
  rw [NetDriver.checkPingSend, NetDriver.checkPingSendMarks]
  split
  · exact .idle
  · rename_i hidle
    split
    · simp only [Bool.or_eq_true, beq_iff_eq, not_or, Bool.not_eq_true] at hidle
      obtain ⟨hpings, hmarks⟩ := @sendNextPing_send { n with pingNextSendMs := 0 } hidle.1
        (Nat.pos_of_ne_zero hidle.2)
      rw [hpings, hmarks]
      exact .send hidle.1 (Nat.pos_of_ne_zero hidle.2)
    · exact .idle

/-- The first request of a series is sent at once. -/
theorem startPingSeries_pings (n : NetDriver) (count timeMs : ℕ) :
    (n.startPingSeries count timeMs).pings = (n.pings.restart count).send ∧
      n.startPingSeriesMarks count timeMs = [.sent (seqAfter n.pingNextSeq)] := by
  have hidle : ¬ (false || clampPings count == 0) = true := by
    simp only [Bool.false_or, beq_iff_eq]
    exact (clampPings_pos count).ne'
  rw [NetDriver.startPingSeries, NetDriver.startPingSeriesMarks, NetDriver.checkPingSend,
    NetDriver.checkPingSendMarks, if_neg hidle, if_neg hidle, if_pos (.inl rfl), if_pos (.inl rfl)]
  exact sendNextPing_send rfl (clampPings_pos count)

/-- Scheduling settles nothing. -/
theorem scheduleNextPing_pings : (n.scheduleNextPing timeMs).pings = n.pings := by
  rw [NetDriver.scheduleNextPing]
  split <;> simp only [NetDriver.pings]

/-- A time-out settles what is outstanding. -/
theorem checkPingTimeout_trans : PingTrans n.pings n.checkPingTimeoutMarks
    (n.checkPingTimeout timeMs).pings := by
  rw [NetDriver.checkPingTimeout, NetDriver.checkPingTimeoutMarks]
  split
  · exact .idle
  · rename_i hout
    split
    · exact .idle
    · rw [scheduleNextPing_pings]
      exact .settle .timeout (show n.pingOutstanding = true by simpa using hout)

/-- So does a reply. -/
theorem takeEcho_trans (rttUs : ℕ) (hout : n.pingOutstanding = true) :
    PingTrans n.pings n.takeEchoMarks (takeEcho n rttUs timeMs).pings := by
  rw [takeEcho, scheduleNextPing_pings]
  exact .settle .reply hout

/-! ## A call of the main loop -/

/-- A pending command that is no ping leaves the pings. -/
theorem launchPending_pings (n : NetDriver) (timeMs : ℕ) (hno : n.pendingCmd ≠ .ping) :
    (launchPending n timeMs).pings = n.pings := by
  rw [launchPending]
  split
  · simp only [NetDriver.sendDnsQuery, NetDriver.pings]
  · rename_i hping
    exact absurd hping hno
  · simp only [NetDriver.sendUdp, NetDriver.pings]
  · simp only [NetDriver.sendNtpRequest, NetDriver.client, NetDriver.pings]
  · rfl

/-- So does any other command. -/
theorem handleCommand_pings (n : NetDriver) (m : NetMessage) (timeMs : ℕ)
    (hno : ¬ (m.cmd = .ping ∧ 3 ≤ m.length ∧ n.haveRouterMac = true)) :
    (n.handleCommand m timeMs).pings = n.pings := by
  have heffect := handleCommand_effect n m timeMs
  generalize n.handleCommand m timeMs = n' at heffect ⊢
  cases heffect with
  | ping hcmd hmac => exact absurd ⟨hcmd.1, hcmd.2, hmac⟩ hno
  | asks | answered | dns | ntp | ignored => rfl

/-- So does a resynchronisation. -/
theorem checkNtpResync_pings (n : NetDriver) (timeMs uptimeMs : ℕ) :
    (n.checkNtpResync timeMs uptimeMs).pings = n.pings := by
  rw [NetDriver.checkNtpResync]
  repeat' split
  all_goals rfl

/-- The reply to the outstanding request is taken. -/
theorem netStep_echo {descId : ℕ} {mem : Window} (timeMs : ℕ) (hdesc : descId < 4)
    (hecho : IsEchoReply mem (rxBufferOffset descId) n.pingOutstandingSeq)
    (hout : n.pingOutstanding = true) :
    ∃ rttUs, netStep n (.frame descId mem timeMs) = takeEcho n rttUs timeMs := by
  obtain ⟨rttUs, hval⟩ := receiveIcmp_echo timeMs hecho hout
  refine ⟨rttUs, ?_⟩
  rw [netStep, netPoll, if_neg (Nat.not_le.mpr hdesc), receiveFrame_icmp hecho.1, hval]
  rfl

/-- The address of the gateway is taken. -/
theorem netStep_arp {descId : ℕ} {mem : Window} (hdesc : descId < 4)
    (harp : IsArpReply mem (rxBufferOffset descId)) (hmac : n.haveRouterMac = false) :
    netStep n (.frame descId mem timeMs) = launchPending
      { n with
        routerMac := (bytes (payloadOf (rxBufferOffset descId) + 8) 6).val mem
        haveRouterMac := true
        arpOutstanding := false } timeMs := by
  rcases netStep_frame n descId mem timeMs with ⟨hge, -⟩ | ⟨-, heffect⟩
  · omega
  generalize netStep n (.frame descId mem timeMs) = n' at heffect ⊢
  cases heffect with
  | arp => rfl
  | echo rttUs h hout => exact absurd harp h.1.not_arpReply
  | dns ip h => exact absurd harp h.1.1.not_arpReply
  | ntp h hout => exact absurd harp h.1.not_arpReply
  | datagram h => exact absurd harp h.not_arpReply
  | ignored h => exact absurd ((h harp).symm.trans hmac) (by decide)

/-- With the ARP reply the gateway is known. -/
theorem netStep_arp_mac {descId : ℕ} {mem : Window} (hdesc : descId < 4)
    (harp : IsArpReply mem (rxBufferOffset descId)) (hmac : n.haveRouterMac = false) :
    (netStep n (.frame descId mem timeMs)).haveRouterMac = true := by
  rw [netStep_arp hdesc harp hmac]
  exact (SameKnowledge.launchPending timeMs).haveRouterMac

/-- A frame leaves the pings alone, settles one or starts a series. -/
theorem netStep_frame_trans (n : NetDriver) (descId : ℕ) (mem : Window) (timeMs : ℕ)
    (hno : ∀ count, ¬ StartsSeries n count (.frame descId mem timeMs)) :
    PingTrans n.pings (pingMarks n (.frame descId mem timeMs))
      (netStep n (.frame descId mem timeMs)).pings := by
  rw [pingMarks]
  split
  · rename_i hdesc
    rcases netStep_frame n descId mem timeMs with ⟨-, heq⟩ | ⟨hlt, -⟩
    · rw [heq]
      exact .idle
    · omega
  rename_i hdesc
  rw [Nat.not_le] at hdesc
  split
  · rename_i hecho
    obtain ⟨rttUs, heq⟩ := netStep_echo timeMs hdesc hecho.1 hecho.2
    rw [heq]
    exact takeEcho_trans rttUs hecho.2
  · rename_i hecho
    have hstart : ¬ (IsArpReply mem (rxBufferOffset descId) ∧ n.haveRouterMac = false ∧
        n.pendingCmd = .ping) := fun h => hno _ ⟨hdesc, h.1, h.2.1, h.2.2, rfl⟩
    rw [if_neg hstart]
    -- what other frames do
    have hsame : (netStep n (.frame descId mem timeMs)).pings = n.pings := by
      rcases netStep_frame n descId mem timeMs with ⟨hge, -⟩ | ⟨-, heffect⟩
      · omega
      · generalize netStep n (.frame descId mem timeMs) = n' at heffect ⊢
        cases heffect with
        | arp h hmac => exact launchPending_pings _ _ fun hping => hstart ⟨h, hmac, hping⟩
        | echo rttUs h hout => exact absurd ⟨h, hout⟩ hecho
        | dns | ntp | datagram | ignored => rfl
    rw [hsame]
    exact .idle

/-- The step lemma: what a call of the main loop does that starts no series. -/
theorem netStep_trans (n : NetDriver) (e : NetEvent) (hno : ∀ count, ¬ StartsSeries n count e) :
    PingTrans n.pings (pingMarks n e) (netStep n e).pings := by
  cases e with
  | frame descId mem timeMs => exact netStep_frame_trans n descId mem timeMs hno
  | command m timeMs =>
    have hcmd : ¬ (m.cmd = .ping ∧ 3 ≤ m.length ∧ n.haveRouterMac = true) := fun h =>
      hno _ ⟨h.1, h.2.1, h.2.2, rfl⟩
    rw [pingMarks, if_neg hcmd, netStep, handleCommand_pings n m timeMs hcmd]
    exact .idle
  | turn => exact .idle
  | pingTimeout timeMs => exact checkPingTimeout_trans
  | pingSend timeMs => exact checkPingSend_trans
  | ntpResync timeMs uptimeMs =>
    rw [netStep, checkNtpResync_pings]
    exact .idle
  | bootTimeout uptimeMs => exact .idle

/-- And what one does that starts a series. -/
theorem netStep_start {e : NetEvent} {count : ℕ} (h : StartsSeries n count e) :
    (netStep n e).pings = (n.pings.restart count).send ∧
      pingMarks n e = [.sent (seqAfter n.pingNextSeq)] := by
  cases e with
  | frame descId mem timeMs =>
    obtain ⟨hdesc, harp, hmac, hping, rfl⟩ := h
    have hno : ¬ (IsEchoReply mem (rxBufferOffset descId) n.pingOutstandingSeq ∧
        n.pingOutstanding = true) := fun hecho => hecho.1.1.not_arpReply harp
    rw [pingMarks, if_neg (Nat.not_le.mpr hdesc), if_neg hno, if_pos ⟨harp, hmac, hping⟩]
    refine ⟨?_, (startPingSeries_pings n n.pendingPingCount timeMs).2⟩
    rw [netStep_arp hdesc harp hmac, launchPending]
    simp only [hping]
    exact (startPingSeries_pings _ n.pendingPingCount timeMs).1
  | command m timeMs =>
    obtain ⟨hcmd, hlen, hmac, rfl⟩ := h
    rw [pingMarks, if_pos ⟨hcmd, hlen, hmac⟩, netStep, NetDriver.handleCommand, if_neg (by omega),
      if_pos ⟨hcmd, hlen⟩, if_pos hmac]
    exact startPingSeries_pings n _ timeMs
  | turn | pingTimeout | pingSend | ntpResync | bootTimeout => exact h.elim

/-- The driver never forgets the address of the gateway. -/
theorem netStep_haveRouterMac (e : NetEvent) (h : n.haveRouterMac = true) :
    (netStep n e).haveRouterMac = true := by
  by_cases hframe : ∃ descId mem timeMs, e = .frame descId mem timeMs
  · obtain ⟨descId, mem, timeMs, rfl⟩ := hframe
    rcases netStep_frame n descId mem timeMs with ⟨-, heq⟩ | ⟨-, heffect⟩
    · rw [heq, h]
    · generalize netStep n (.frame descId mem timeMs) = n' at heffect ⊢
      cases heffect with
      | arp _ hmac => exact absurd (h.symm.trans hmac) (by decide)
      | echo rttUs => exact (takeEcho_same rttUs).haveRouterMac.trans h
      | ntp => exact (pollNtpReply_haveRouterMac _ _).trans h
      | dns | datagram | ignored => exact h
  · simp only [not_exists] at hframe
    exact (netStep_same n hframe).haveRouterMac.trans h

end

/-! ## The counters -/

/-- The call is a command that starts a series while a request is outstanding. -/
def CutsShort (n : NetDriver) : NetEvent → Prop
  | .command m _ => m.cmd = .ping ∧ 3 ≤ m.length ∧ n.haveRouterMac = true ∧
      n.pingOutstanding = true
  | _ => False

namespace PingState

variable {p p' : PingState} {marks : List PingMark}

/-- What starts no series keeps the balance. -/
theorem Balanced.trans (h : p.Balanced) (ht : PingTrans p marks p') : p'.Balanced := by
  cases ht with
  | idle => exact h
  | send hout hrem =>
    simp only [Balanced, hout, Nat.ModEq, Bool.false_eq_true, if_false] at h
    simp only [Balanced, send, Nat.ModEq, if_true]
    omega
  | settle how hout =>
    simp only [Balanced, hout, Nat.ModEq, if_true] at h
    cases how <;> simp only [Balanced, settle, Nat.ModEq, Bool.false_eq_true, if_false] <;> omega

/-- A new series keeps it if and only if nothing is outstanding. -/
theorem balanced_restart (h : p.Balanced) (count : ℕ) :
    (p.restart count).send.Balanced ↔ p.outstanding = false := by
  simp only [Balanced, Nat.ModEq] at h
  simp only [Balanced, send, restart, Nat.ModEq, if_true]
  cases hout : p.outstanding with
  | false =>
    simp only [hout, Bool.false_eq_true, if_false] at h
    exact iff_of_true (by omega) rfl
  | true =>
    simp only [hout, if_true] at h
    exact iff_of_false (by omega) (by decide)

end PingState

/-- The invariant: the counters balance, and nothing is sent before the address of the gateway is
known. -/
structure PingInv (n : NetDriver) : Prop where
  balanced : n.pings.Balanced
  first : n.haveRouterMac = false → n.pings.outstanding = false ∧ n.pings.remaining = 0

section
variable {uptimeMs : ℕ} {n n' : NetDriver} {e : NetEvent} {es : List NetEvent}

/-- At the start there are no pings. -/
theorem pingInv_start (uptimeMs : ℕ) : PingInv (.start uptimeMs) := ⟨rfl, fun _ => ⟨rfl, rfl⟩⟩

/-- The balance after a step, the first reply of the gateway among them. -/
theorem PingInv.balanced_iff (h : PingInv n) : (netStep n e).pings.Balanced ↔ ¬ CutsShort n e := by
  by_cases hstart : ∃ count, StartsSeries n count e
  · obtain ⟨count, hstart⟩ := hstart
    rw [(netStep_start hstart).1, PingState.balanced_restart h.balanced]
    cases e with
    | frame descId mem timeMs => exact iff_of_true (h.first hstart.2.2.1).1 id
    | command m timeMs =>
      constructor
      · intro hout hcut
        exact absurd (hout.symm.trans hcut.2.2.2) (by decide)
      · intro hno
        by_contra hout
        exact hno ⟨hstart.1, hstart.2.1, hstart.2.2.1, Bool.of_not_eq_false hout⟩
    | turn | pingTimeout | pingSend | ntpResync | bootTimeout => exact hstart.elim
  · rw [not_exists] at hstart
    refine iff_of_true (h.balanced.trans (netStep_trans n e hstart)) fun hcut => ?_
    cases e with
    | command m timeMs => exact hstart _ ⟨hcut.1, hcut.2.1, hcut.2.2.1, rfl⟩
    | frame | turn | pingTimeout | pingSend | ntpResync | bootTimeout => exact hcut

/-- Every call that cuts no series short keeps the invariant. -/
theorem PingInv.step (h : PingInv n) (hno : ¬ CutsShort n e) : PingInv (netStep n e) := by
  refine ⟨h.balanced_iff.mpr hno, fun hmac' => ?_⟩
  have hmac : n.haveRouterMac = false := by
    by_contra hmac
    exact absurd ((netStep_haveRouterMac e (by simpa using hmac)).symm.trans hmac') (by decide)
  obtain ⟨hout, hrem⟩ := h.first hmac
  have hstart : ∀ count, ¬ StartsSeries n count e := by
    intro count hstart
    cases e with
    | frame descId mem timeMs =>
      exact Bool.true_eq_false.mp ((netStep_arp_mac hstart.1 hstart.2.1 hmac).symm.trans hmac')
    | command m timeMs => exact absurd (hstart.2.2.1.symm.trans hmac) (by decide)
    | turn | pingTimeout | pingSend | ntpResync | bootTimeout => exact hstart
  have htrans := netStep_trans n e hstart
  generalize pingMarks n e = marks at htrans
  generalize (netStep n e).pings = p' at htrans ⊢
  cases htrans with
  | idle => exact ⟨hout, hrem⟩
  | send _ hpos => omega
  | settle _ hout' => exact absurd (hout'.symm.trans hout) (by decide)

/-- The invariant of a whole run. -/
theorem pingInv_of_run
    (h : Run (guarded NetStep fun n e => ¬ CutsShort n e) (.start uptimeMs) es n) : PingInv n :=
  h.invariant (fun _ _ _ ht hs => by
    obtain ⟨hno, rfl⟩ := hs
    exact ht.step hno) (pingInv_start uptimeMs)

/-- **The figures of `netstat`.** As long as no command has started a series while a request was
outstanding, the counters balance after the next step if and only if it is not such a command. -/
theorem pingCounts_iff
    (hrun : Run (guarded NetStep fun n e => ¬ CutsShort n e) (.start uptimeMs) es n)
    (hstep : NetStep n e n') : n'.pings.Balanced ↔ ¬ CutsShort n e :=
  hstep ▸ (pingInv_of_run hrun).balanced_iff

end

/-- `ping` with one request. -/
def pingCommand : NetEvent := .command ⟨3, .ping, 1⟩ 0

/-- The gateway's reply to the first request. -/
def firstReply : Window :=
  windowAt 0x2800 (List.replicate 22 0 ++ [8, 0, 0x45, 0, 0, 0, 0, 0, 0, 0, 64, 1, 0, 0] ++
    gatewayIp ++ [10, 0, 2, 15, 0, 0, 0, 0, 0x13, 0x37, 0, 1])

/-- The gateway answers the ARP request and the first ping. -/
def answeredPing : List NetEvent :=
  [.frame 0 (arpReplyFrom gatewayIp) 0, pingCommand, .frame 0 firstReply 5]

/-- A second ping when the first one has been answered: two requests, one reply, one outstanding. -/
theorem pingCounts_answered :
    let n := netStep (answeredPing.foldl netStep (.start 0)) pingCommand
    n.pings.Balanced ∧ n.pings.sent = 2 ∧ n.pings.replied = 1 ∧ n.pings.outstanding = true := by
  have hrun : Run (guarded NetStep fun n e => ¬ CutsShort n e) (.start 0) answeredPing
      (answeredPing.foldl netStep (.start 0)) := by
    refine .cons ⟨id, rfl⟩ (.cons ⟨fun hcut => ?_, rfl⟩ (.cons ⟨id, rfl⟩ .nil))
    exact absurd hcut.2.2.2 (by decide +kernel)
  refine ⟨(pingCounts_iff hrun rfl).mpr fun hcut => ?_, by decide +kernel⟩
  exact absurd hcut.2.2.2 (by decide +kernel)

/-- The second `ping` comes before the first is answered. -/
theorem not_balanced_twice : ¬ ∀ (uptimeMs : ℕ) (es : List NetEvent) (n : NetDriver),
    Run NetStep (.start uptimeMs) es n → n.pings.Balanced := by
  intro h
  have harp : IsArpReply (arpReplyFrom gatewayIp) (rxBufferOffset 0) :=
    ⟨arpReply_etherType, by decide +kernel⟩
  set n₁ := netStep (.start 0) (.frame 0 (arpReplyFrom gatewayIp) 0)
  have hmac₁ : n₁.haveRouterMac = true := netStep_arp_mac (by decide) harp rfl
  have hfirst : StartsSeries n₁ 1 pingCommand := ⟨rfl, le_rfl, hmac₁, rfl⟩
  have hsecond : StartsSeries (netStep n₁ pingCommand) 1 pingCommand :=
    ⟨rfl, le_rfl, netStep_haveRouterMac _ hmac₁, rfl⟩
  have hrun : Run NetStep (.start 0) _ (netStep n₁ pingCommand) := (Run.single rfl).snoc rfl
  have hstep : NetStep (netStep n₁ pingCommand) pingCommand
      (netStep (netStep n₁ pingCommand) pingCommand) := rfl
  have hbalanced := h 0 _ _ (hrun.snoc hstep)
  rw [(netStep_start hsecond).1, PingState.balanced_restart (h 0 _ _ hrun), (netStep_start hfirst).1]
    at hbalanced
  exact Bool.true_eq_false.mp hbalanced

end PsychWard.Net
