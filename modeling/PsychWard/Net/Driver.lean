import PsychWard.Clock.NtpClient

/-!
# The network driver

The variables of `net_driver.cpp` and everything that changes them except the receive loop: the
requests it sends, the ping series, the commands of the shell and the checks of the main loop. The
SNTP client of `PsychWard.Clock` is a part of the driver's state, and its functions are used for it.

What is sent is not modelled byte by byte; a request leaves its mark in the variables that tell
whether an answer is awaited. The driver shares two words of its window with the shell: the mailbox
word at offset 4060 and the packed address at 4064 that a DNS answer publishes.
-/

namespace PsychWard.Net

open Clock

/-- `g_ntp_server_ip`. -/
def ntpServerIp : List UInt8 := [216, 239, 35, 0]

/-- The gateway whose address the ARP request asks for. -/
def gatewayIp : List UInt8 := [10, 0, 2, 2]

/-- `g_dns_id`, which nothing changes. -/
def dnsId : ℕ := 0xDEAF

/-- How many turns of the loop a ping waits. -/
def pingTimeoutLoops : ℕ := 100000

/-- What the driver keeps of the replies to its pings. -/
structure PingStats where
  replyCount : ℕ
  lastRttUs : ℕ
  minRttUs : ℕ
  maxRttUs : ℕ
  totalRttUs : ℕ
deriving DecidableEq, Repr

/-- The variables of the driver. -/
structure NetDriver extends NtpClient where
  routerMac : List UInt8
  pendingPingCount : ℕ
  dnsOutstanding : Bool
  /-- the word at offset 4064 -/
  dnsAddress : ℕ
  pingNextSeq : ℕ
  pingOutstandingSeq : ℕ
  pingOutstanding : Bool
  pingSeriesRemaining : ℕ
  pingSentCount : ℕ
  pingTimeoutCount : ℕ
  pingStats : PingStats
  pingNextSendMs : ℕ
  cpuLoops : ℕ
  pingSentLoop : ℕ
  udpRxReady : Bool
  udpRxSrcIp : List UInt8
  udpRxSrcPort : ℕ
  udpRxData : ℕ → UInt8
  udpRxLen : ℕ
  /-- an ARP request was broadcast and no reply has been taken since -/
  arpOutstanding : Bool
  /-- the arguments of the `SYS_SET_TIME_OFFSET` calls -/
  setOffsets : List ℕ

/-- A message on the endpoint of the driver. -/
structure NetMessage where
  length : ℕ
  cmd : NetCommand
  mr2 : ℕ
deriving DecidableEq, Repr

/-- The length of a ping series, between 1 and 16. -/
def clampPings (count : ℕ) : ℕ :=
  if count = 0 then 1 else if 16 < count then 16 else count

namespace NetDriver

variable (n : NetDriver)

/-- A step of the SNTP client. -/
def client (f : NtpClient → NtpClient) : NetDriver := { n with toNtpClient := f n.toNtpClient }

/-! ## Sending -/

/-- `net_send_arp_request`. -/
def sendArpRequest : NetDriver := { n with arpOutstanding := true }

/-- `net_send_ping`. The sequence number skips zero. -/
def sendPing : NetDriver :=
  let seq := (n.pingNextSeq + 1) % 2 ^ 16
  let seq := if seq = 0 then 1 else seq
  { n with
    pingNextSeq := seq
    pingSentLoop := n.cpuLoops
    pingOutstandingSeq := seq
    pingOutstanding := true
    pingSentCount := (n.pingSentCount + 1) % 2 ^ 32 }

/-- `net_schedule_next_ping`: the next ping of the series in a second, or the series is over. -/
def scheduleNextPing (timeMs : ℕ) : NetDriver :=
  if 0 < n.pingSeriesRemaining then { n with pingNextSendMs := (timeMs + 1000) % 2 ^ 64 }
  else { n with mailbox := 0 }

/-- `net_send_next_ping`. -/
def sendNextPing : NetDriver :=
  if n.pingOutstanding || n.pingSeriesRemaining == 0 then n
  else sendPing { n with pingSeriesRemaining := n.pingSeriesRemaining - 1 }

/-- `net_check_ping_send`. -/
def checkPingSend (timeMs : ℕ) : NetDriver :=
  if n.pingOutstanding || n.pingSeriesRemaining == 0 then n
  else if n.pingNextSendMs = 0 ∨ n.pingNextSendMs ≤ timeMs then
    sendNextPing { n with pingNextSendMs := 0 }
  else n

/-- `net_start_ping_series`: the first ping at once. -/
def startPingSeries (count timeMs : ℕ) : NetDriver :=
  checkPingSend
    { n with
      pingSeriesRemaining := clampPings count
      pingOutstanding := false
      pingNextSendMs := 0 } timeMs

/-- `net_record_ping_rtt`. -/
def recordPingRtt (rttUs : ℕ) : NetDriver :=
  let p := n.pingStats
  { n with
    pingStats :=
      { replyCount := (p.replyCount + 1) % 2 ^ 32
        lastRttUs := rttUs
        totalRttUs := (p.totalRttUs + rttUs) % 2 ^ 64
        minRttUs := if p.minRttUs = 0 ∨ rttUs < p.minRttUs then rttUs else p.minRttUs
        maxRttUs := if p.maxRttUs < rttUs then rttUs else p.maxRttUs } }

/-- Turns of the loop since the last ping, in 64 bits. -/
def loopsPassed : ℕ := (n.cpuLoops + 2 ^ 64 - n.pingSentLoop) % 2 ^ 64

/-- `net_check_ping_timeout`. -/
def checkPingTimeout (timeMs : ℕ) : NetDriver :=
  if !n.pingOutstanding then n
  else if n.loopsPassed < pingTimeoutLoops then n
  else
    scheduleNextPing
      { n with
        pingOutstanding := false
        pingTimeoutCount := (n.pingTimeoutCount + 1) % 2 ^ 32 } timeMs

/-- `net_send_udp`. Its end releases the mailbox. -/
def sendUdp : NetDriver := { n with mailbox := 0 }

/-- `net_send_ntp_request`. -/
def sendNtpRequest (timeMs : ℕ) : NetDriver := n.client (·.sendNtpRequest timeMs)

/-- `net_send_dns_query`. -/
def sendDnsQuery : NetDriver := { n with dnsOutstanding := true }

/-! ## The main loop -/

/-- `net_check_ntp_resync`. -/
def checkNtpResync (timeMs uptimeMs : ℕ) : NetDriver :=
  if n.ntpOutstanding || n.pendingCmd == .ntp then n
  else if uptimeMs < n.ntpNextResyncUptimeMs then n
  else if n.haveRouterMac then
    (n.sendNtpRequest timeMs).client (·.scheduleNextNtpResync uptimeMs)
  else
    (sendArpRequest { n with pendingCmd := .ntp }).client (·.scheduleNextNtpResync uptimeMs)

/-- `net_check_boot_ntp_timeout`. -/
def checkBootNtpTimeout (uptimeMs : ℕ) : NetDriver := n.client (·.checkBootNtpTimeout uptimeMs)

/-- `net_handle_command` for a message that was received. -/
def handleCommand (m : NetMessage) (timeMs : ℕ) : NetDriver :=
  if m.length = 0 then n
  else if m.cmd = .ping ∧ 3 ≤ m.length then
    if n.haveRouterMac then n.startPingSeries (clampPings (m.mr2 % 2 ^ 32)) timeMs
    else
      sendArpRequest
        { n with pendingPingCount := clampPings (m.mr2 % 2 ^ 32), pendingCmd := .ping }
  else if m.cmd = .send ∧ 4 ≤ m.length then
    if n.haveRouterMac then n.sendUdp
    else sendArpRequest { n with pendingCmd := .send }
  else if m.cmd = .status then { n with mailbox := 0 }
  else if m.cmd = .recv then { n with udpRxReady := false, mailbox := 0 }
  else if m.cmd = .resolve then
    if n.haveRouterMac then n.sendDnsQuery
    else sendArpRequest { n with pendingCmd := .resolve }
  else if m.cmd = .ntp then
    if n.ntpOutstanding then { n with mailbox := 0 }
    else if n.haveRouterMac then n.sendNtpRequest timeMs
    else sendArpRequest { n with pendingCmd := .ntp }
  else n

/-- The state in which `main` enters its loop when a network device was found. -/
def start (uptimeMs : ℕ) : NetDriver :=
  { NtpClient.start uptimeMs with
    routerMac := [0, 0, 0, 0, 0, 0], pendingPingCount := 1, dnsOutstanding := false,
    dnsAddress := 0, pingNextSeq := 0, pingOutstandingSeq := 0, pingOutstanding := false,
    pingSeriesRemaining := 0, pingSentCount := 0, pingTimeoutCount := 0,
    pingStats := ⟨0, 0, 0, 0, 0⟩, pingNextSendMs := 0, cpuLoops := 0, pingSentLoop := 0,
    udpRxReady := false, udpRxSrcIp := [0, 0, 0, 0], udpRxSrcPort := 0, udpRxData := fun _ => 0,
    udpRxLen := 0, arpOutstanding := true, setOffsets := [] }

end NetDriver

end PsychWard.Net
