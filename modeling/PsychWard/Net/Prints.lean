import PsychWard.Net.Console
import PsychWard.Net.Datagram
import PsychWard.Net.Solicited

/-!
# What the driver prints

Every call of a print function in `net_driver.cpp`, in the order in which a call of the main loop
makes them. Most of what is printed is constant or a number; only `recv` prints a string that came
from the network, up to 255 characters long and in one message.
-/

namespace PsychWard.Net

open Clock Traced

/-- What is printed and is not part of the driver's state in this model: the addresses that pings and
datagrams go to, the length of a DNS query, and the indices of the queues. -/
structure Unseen where
  pingTargetIp : List UInt8
  udpIp : List UInt8
  udpPort : ℕ
  dnsPacketLen : ℕ
  txAvailIdx : ℕ
  lastRxUsedIdx : ℕ

/-- The string in `g_udp_rx_data`. -/
def rxText (n : NetDriver) : Text := (Memory.bytes n.udpRxData 0 udpRxSize).takeWhile (· ≠ 0)

/-! ## Sending -/

/-- `net_send_arp_request` prints a constant. -/
def sendArpRequestPieces : List Piece :=
  [.lit "\n[NET] Broadcasting ARP Request for 10.0.2.2...\n"]

/-- `net_send_udp` prints where the datagram goes. -/
def sendUdpPieces (v : Unseen) : List Piece :=
  [.lit "[NET] Firing UDP Datagram to ", .addr v.udpIp, .lit ":", .dec v.udpPort, .lit "...\n"]

/-- `net_send_ntp_request` prints the server. -/
def sendNtpRequestPieces : List Piece :=
  [.lit "[NET] Sending NTP request to ", .addr ntpServerIp, .lit ":123...\n"]

/-- `net_send_dns_query` prints the length of the packet it built. -/
def sendDnsQueryPieces (v : Unseen) : List Piece :=
  [.lit "[NET] Sending DNS Query (", .dec v.dnsPacketLen, .lit " bytes) directly to 8.8.8.8...\n"]

section
variable (v : Unseen) (n : NetDriver)

/-- `net_send_ping` prints the number of the request, counted up already. -/
def sendPingPieces : List Piece :=
  [.lit "[NET] ICMP Echo Request to ", .addr v.pingTargetIp, .lit ": icmp_seq=",
    .dec n.sendPing.pingOutstandingSeq, .lit "\n"]

/-- `net_send_next_ping` prints nothing where it sends nothing. -/
def sendNextPingPieces : List Piece :=
  if n.pingOutstanding || n.pingSeriesRemaining == 0 then []
  else sendPingPieces v { n with pingSeriesRemaining := n.pingSeriesRemaining - 1 }

/-- `net_check_ping_send` prints through `net_send_next_ping`, once the next send is due. -/
def checkPingSendPieces (timeMs : ℕ) : List Piece :=
  if n.pingOutstanding || n.pingSeriesRemaining == 0 then []
  else if n.pingNextSendMs = 0 ∨ n.pingNextSendMs ≤ timeMs then
    sendNextPingPieces v { n with pingNextSendMs := 0 }
  else []

/-- `net_start_ping_series` sends its first request in the same call. -/
def startPingSeriesPieces (count timeMs : ℕ) : List Piece :=
  checkPingSendPieces v
    { n with
      pingSeriesRemaining := clampPings count
      pingOutstanding := false
      pingNextSendMs := 0 } timeMs

/-- `net_check_ping_timeout` prints the number of the request it gives up. -/
def checkPingTimeoutPieces : List Piece :=
  if !n.pingOutstanding then []
  else if n.loopsPassed < pingTimeoutLoops then []
  else [.lit "[NET PING] Request timeout for icmp_seq=", .dec n.pingOutstandingSeq, .lit "\n"]

/-! ## The main loop -/

/-- `net_check_ntp_resync` announces itself before it asks. -/
def checkNtpResyncPieces (uptimeMs : ℕ) : List Piece :=
  if n.ntpOutstanding || n.pendingCmd == .ntp then []
  else if uptimeMs < n.ntpNextResyncUptimeMs then []
  else
    .lit "[NET] Periodic NTP resync...\n" ::
      if n.haveRouterMac then sendNtpRequestPieces else sendArpRequestPieces

/-- `net_check_boot_ntp_timeout` prints once: afterwards nothing is pending. -/
def checkBootNtpTimeoutPieces (uptimeMs : ℕ) : List Piece :=
  if !n.ntpBootSyncPending then []
  else if uptimeMs < n.ntpBootDeadlineMs then []
  else [.lit "[NET] Boot-time NTP sync: timed out.\n"]

/-- The six bytes of the router, with colons between them. -/
def routerMacPieces : List Piece :=
  if n.haveRouterMac then
    .lit "known " :: (List.range 6).flatMap fun i =>
      (if 0 < i then [.lit ":"] else []) ++ [.hex (n.routerMac.getD i 0)]
  else [.lit "unknown"]

/-- The round trip times are printed once there was a reply. -/
def pingStatsPieces : List Piece :=
  [.lit " ping_sent=", .dec n.pingSentCount, .lit " ping_reply=", .dec n.pingStats.replyCount,
    .lit " ping_timeout=", .dec n.pingTimeoutCount] ++
  if 0 < n.pingStats.replyCount then
    [.lit " rtt_last=", .duration n.pingStats.lastRttUs,
      .lit " rtt_avg=", .duration (n.pingStats.totalRttUs / n.pingStats.replyCount),
      .lit " rtt_min=", .duration n.pingStats.minRttUs,
      .lit " rtt_max=", .duration n.pingStats.maxRttUs]
  else []

/-- The offset is printed once there was a synchronisation. -/
def ntpStatusPieces : List Piece :=
  [.lit " ntp_synced=", if n.ntpSynced then .lit "yes" else .lit "no"] ++
  if n.ntpSynced then
    .lit " ntp_offset=" ::
      ((if n.ntpLastOffsetNegative then [.lit "-"] else []) ++ [.dec n.ntpLastOffsetS, .lit "s"])
  else []

/-- The answer to `NET_CMD_STATUS`. -/
def statusPieces : List Piece :=
  .lit "[NET] Status: virtio=up router_mac=" :: (routerMacPieces n ++
    [.lit " tx_idx=", .dec v.txAvailIdx, .lit " rx_used_idx=", .dec v.lastRxUsedIdx,
      .lit " default_udp=", .addr [10, 0, 2, 2], .lit ":", .dec 8080] ++
    pingStatsPieces n ++ ntpStatusPieces n ++ [.lit "\n"])

/-- The answer to `NET_CMD_RECV`: the only string here that comes from the network. -/
def recvPieces : List Piece :=
  if n.udpRxReady then
    [.lit "[NET] UDP datagram from ", .addr n.udpRxSrcIp, .lit ":", .dec n.udpRxSrcPort, .lit " (",
      .dec n.udpRxLen, .lit " bytes): ", .chars (rxText n), .lit "\n"]
  else [.lit "[NET] No pending UDP datagrams.\n"]

/-- `net_handle_command`, branch by branch as in `handleCommand`. -/
def handleCommandPieces (m : NetMessage) (timeMs : ℕ) : List Piece :=
  if m.length = 0 then []
  else if m.cmd = .ping ∧ 3 ≤ m.length then
    [.lit "[NET] Shell requested ICMP Ping x", .dec (clampPings (m.mr2 % 2 ^ 32)), .lit ".\n"] ++
      if n.haveRouterMac then startPingSeriesPieces v n (clampPings (m.mr2 % 2 ^ 32)) timeMs
      else sendArpRequestPieces
  else if m.cmd = .send ∧ 4 ≤ m.length then
    .lit "[NET] Shell requested UDP send.\n" ::
      if n.haveRouterMac then sendUdpPieces v else sendArpRequestPieces
  else if m.cmd = .status then statusPieces v n
  else if m.cmd = .recv then recvPieces n
  else if m.cmd = .resolve then
    if n.haveRouterMac then sendDnsQueryPieces v else sendArpRequestPieces
  else if m.cmd = .ntp then
    if n.ntpOutstanding then [.lit "[NET] NTP request already in flight.\n"]
    else if n.haveRouterMac then sendNtpRequestPieces
    else sendArpRequestPieces
  else [.lit "[NET] Unknown Shell command.\n"]

/-! ## The receive loop -/

/-- What waited for the address of the router is sent, and says so. -/
def launchPendingPieces (timeMs : ℕ) : List Piece :=
  match n.pendingCmd with
  | .resolve => .lit "[NET] ARP ready. Launching DNS Query...\n" :: sendDnsQueryPieces v
  | .ping => startPingSeriesPieces v { n with pendingCmd := .none } n.pendingPingCount timeMs
  | .send => sendUdpPieces v
  | .ntp => sendNtpRequestPieces
  | _ => []

variable (mem : Window)

/-- A second ARP reply prints nothing. -/
def receiveArpPieces (arp timeMs : ℕ) : List Piece :=
  if (be16 (arp + 6)).val mem = 2 ∧ n.haveRouterMac = false then
    .lit "[NET RX] ARP Reply Received! Saving Router MAC.\n" :: launchPendingPieces v n timeMs
  else []

/-- A reply that nobody waits for is printed too, without a time. -/
def receiveIcmpPieces (ip : ℕ) : List Piece :=
  let ihl := (headerLength ip).val mem
  let icmp := ip + ihl
  if mem icmp = 0 ∧ (be16 (icmp + 4)).val mem = 0x1337 then
    let seq := (be16 (icmp + 6)).val mem
    let loops := if n.loopsPassed = 0 then 1 else n.loopsPassed
    [.lit "[NET PING] ", .dec ((be16 (ip + 2)).val mem - ihl), .lit " bytes from ",
      .addr ((bytes (ip + 12) 4).val mem), .lit ": icmp_seq=", .dec seq, .lit " ttl=",
      .dec (mem (ip + 8)).toNat, .lit " time="] ++
    (if n.pingOutstanding = true ∧ seq = n.pingOutstandingSeq then
      [.duration (loops * 15 % 2 ^ 64)]
    else [.lit "unknown", .lit " late/unmatched"]) ++ [.lit "\n"]
  else []

/-- The first record of an answer, or why it was not taken. -/
def dnsRecordPieces (bufferEnd reader : ℕ) : List Piece :=
  if bufferEnd ≤ reader + 5 + 10 + 2 then
    [.lit ">>> [NET RX] DNS Error: malformed/truncated response, ignored.\n"]
  else
    let dataLen := (be16 (reader + 5 + 10)).val mem
    let data := reader + 5 + 10 + 2
    if dataLen = 4 ∧ data + 4 ≤ bufferEnd then
      [.lit ">>> [NET RX] DNS SUCCESS: ", .addr ((bytes data 4).val mem), .lit "\n"]
    else
      [.lit ">>> [NET RX] DNS Error: Unexpected data_len (CNAME?). Length=", .dec dataLen, .lit "\n"]

/-- Every datagram from port 53 is announced, asked for or not. -/
def receiveDnsPieces (fuel bufferEnd dns : ℕ) : List Piece :=
  .lit ">>> [NET RX] UDP Response from Port 53 captured!\n" ::
    if (be16 dns).val mem = dnsId ∧ 0 < (be16 (dns + 6)).val mem then
      if bufferEnd ≤ dns + dnsHeader then
        [.lit ">>> [NET RX] DNS Error: malformed/truncated response, ignored.\n"]
      else
        match (skipName bufferEnd fuel (dns + dnsHeader)).val mem with
        | some (some reader) => dnsRecordPieces mem bufferEnd reader
        | _ => [.lit ">>> [NET RX] DNS Error: malformed/truncated response, ignored.\n"]
    else [.lit ">>> [NET RX] DNS Ignored: ID mismatch or 0 answers.\n"]

/-- What is added while the boot waits for the clock. -/
def bootSyncPieces (text : String) : List Piece :=
  if n.ntpBootSyncPending then [.lit text] else []

/-- The three ends of an NTP reply. -/
def receiveNtpPieces (p : NtpPacket) (timeMs : ℕ) : List Piece :=
  if !p.fits then
    .lit "[NET] NTP Error: truncated response, ignored.\n" ::
      bootSyncPieces n "[NET] Boot-time NTP sync: failed.\n"
  else if !p.accepted then
    .lit "[NET] NTP Error: Kiss-o'-Death or unexpected mode, ignored.\n" ::
      bootSyncPieces n "[NET] Boot-time NTP sync: failed.\n"
  else
    let c := (n.toNtpClient.pollNtpReply p timeMs).1
    .lit "[NET] NTP sync OK, offset " ::
      ((if c.ntpLastOffsetNegative then [.lit "-"] else []) ++
        [.dec c.ntpLastOffsetS, .lit "s applied.\n"] ++
        bootSyncPieces n "[NET] Boot-time NTP sync: good.\n")

/-- What is printed about a datagram that is kept for `recv`. -/
def receiveDatagramPieces (base : ℕ) : List Piece :=
  let n := takeDatagram mem base n
  [.lit "[NET RX] UDP datagram from ", .addr n.udpRxSrcIp, .lit ":", .dec n.udpRxSrcPort, .lit " (",
    .dec n.udpRxLen, .lit " bytes). Use 'recv' to view.\n"]

/-- DNS, NTP or a datagram that is kept. -/
def receiveUdpPieces (fuel base timeMs : ℕ) : List Piece :=
  let udp := transportOf mem base
  let srcPort := (be16 udp).val mem
  if srcPort = 53 then receiveDnsPieces mem fuel (base + rxBufferLen) (udp + udpHeader)
  else if srcPort = 123 ∧ n.ntpOutstanding = true then
    receiveNtpPieces n (ntpPacketOf mem base) timeMs
  else receiveDatagramPieces n mem base

/-- The branches of `net_poll` by protocol. -/
def receiveFramePieces (fuel base timeMs : ℕ) : List Piece :=
  let payload := payloadOf base
  if etherType mem base = 0x0806 then receiveArpPieces v n mem payload timeMs
  else if etherType mem base = 0x0800 then
    if mem (payload + 9) = 1 then receiveIcmpPieces n mem payload
    else if mem (payload + 9) = 17 then receiveUdpPieces n mem fuel base timeMs
    else []
  else []

end

/-- What a call of the main loop prints. -/
def printedPieces (v : Unseen) (n : NetDriver) : NetEvent → List Piece
  | .frame descId mem timeMs =>
    if 4 ≤ descId then []
    else receiveFramePieces v n mem rxBufferLen (rxBufferOffset descId) timeMs
  | .command m timeMs => handleCommandPieces v n m timeMs
  | .turn => []
  | .pingTimeout _ => checkPingTimeoutPieces n
  | .pingSend timeMs => checkPingSendPieces v n timeMs
  | .ntpResync _ uptimeMs => checkNtpResyncPieces n uptimeMs
  | .bootTimeout uptimeMs => checkBootNtpTimeoutPieces n uptimeMs

/-- What `main` prints in front of its loop, on any of its ways. -/
def mainPieces : List Piece :=
  [.lit "\n[NET] Server online.\n", .lit "[NET] FATAL: Failed to get dynamic SHM!\n",
    .lit "[NET] Virtio-net queues initialized.\n", .lit "[NET] Starting boot-time NTP sync...\n"] ++
  sendArpRequestPieces

/-- The strings that are given to `sys_puts`, in order. -/
def textsOf (ps : List Piece) : List Text := ps.flatMap Piece.texts

/-! ## What fits in a message -/

/-- Everything that is printed fits in a message. -/
def AllFit (ps : List Piece) : Prop := ps.all Piece.fits = true

/-- The test on the pieces says the same as the test on every string they print. -/
theorem allFit_iff (ps : List Piece) : (∀ s ∈ textsOf ps, PutsOk s) ↔ AllFit ps := by
  rw [AllFit, List.all_eq_true]
  constructor
  · intro h p hp
    exact p.texts_ok.mp fun s hs => h s (List.mem_flatMap.mpr ⟨p, hp, hs⟩)
  · intro h s hs
    obtain ⟨p, hp, hs⟩ := List.mem_flatMap.mp hs
    exact p.texts_ok.mpr (h p hp) s hs

namespace AllFit

variable {ps qs : List Piece} {v : Unseen} {n : NetDriver} {mem : Window} {timeMs : ℕ}

/-- Nothing printed fits. -/
theorem nil : AllFit [] := rfl

/-- Prints one after the other fit if each of them does. -/
theorem append (hp : AllFit ps) (hq : AllFit qs) : AllFit (ps ++ qs) := by
  rw [AllFit, List.all_append, hp, hq]
  rfl

/-- A piece in front of pieces that fit. -/
theorem cons {p : Piece} (hp : p.fits = true) (hq : AllFit qs) : AllFit (p :: qs) := by
  rw [AllFit, List.all_cons, hp, hq]
  rfl

/-- A branch fits if both sides do. -/
theorem ite {c : Prop} [Decidable c] (hp : AllFit ps) (hq : AllFit qs) :
    AllFit (if c then ps else qs) := by
  split
  · exact hp
  · exact hq

/-- A ping prints numbers and an address. -/
theorem sendNextPing : AllFit (sendNextPingPieces v n) := ite nil rfl

/-- The check of the next send prints what the ping prints. -/
theorem checkPingSend : AllFit (checkPingSendPieces v n timeMs) :=
  ite nil (ite sendNextPing nil)

/-- So does the start of a series. -/
theorem startPingSeries (count : ℕ) : AllFit (startPingSeriesPieces v n count timeMs) :=
  checkPingSend

/-- A timeout prints a number. -/
theorem checkPingTimeout : AllFit (checkPingTimeoutPieces n) := ite nil (ite nil rfl)

/-- A periodic request prints constants and an address. -/
theorem checkNtpResync (uptimeMs : ℕ) : AllFit (checkNtpResyncPieces n uptimeMs) :=
  ite nil (ite nil (cons rfl (ite rfl rfl)))

/-- The end of the wait at boot prints a constant. -/
theorem checkBootNtpTimeout (uptimeMs : ℕ) : AllFit (checkBootNtpTimeoutPieces n uptimeMs) :=
  ite nil (ite nil rfl)

/-- An address prints two digits and a colon at a time. -/
theorem routerMac : AllFit (routerMacPieces n) := ite rfl rfl

/-- Statistics are numbers. -/
theorem pingStats : AllFit (pingStatsPieces n) := append rfl (ite rfl nil)

/-- The state of the clock is numbers. -/
theorem ntpStatus : AllFit (ntpStatusPieces n) := by
  have hyes : (if n.ntpSynced then Piece.lit "yes" else .lit "no").fits = true := by
    split <;> rfl
  exact append (cons rfl (cons hyes nil)) (ite (cons rfl (append (ite rfl nil) rfl)) nil)

/-- So the whole status fits. -/
theorem status : AllFit (statusPieces v n) :=
  cons rfl (append (append (append (append routerMac rfl) pingStats) ntpStatus) rfl)

/-- Whatever was waiting fits. -/
theorem launchPending : AllFit (launchPendingPieces v n timeMs) := by
  rw [launchPendingPieces]
  split
  · exact cons rfl rfl
  · exact startPingSeries _
  · rfl
  · rfl
  · exact nil

/-- An ARP reply prints a constant and what was waiting. -/
theorem receiveArp (arp : ℕ) : AllFit (receiveArpPieces v n mem arp timeMs) :=
  ite (cons rfl launchPending) nil

/-- An echo reply prints numbers and an address. -/
theorem receiveIcmp (ip : ℕ) : AllFit (receiveIcmpPieces n mem ip) :=
  ite (append (append rfl (ite rfl rfl)) rfl) nil

/-- A DNS answer prints an address or a number. -/
theorem receiveDns (fuel bufferEnd dns : ℕ) : AllFit (receiveDnsPieces mem fuel bufferEnd dns) := by
  refine cons rfl (ite (ite rfl ?_) rfl)
  split
  · exact ite rfl (ite rfl rfl)
  · rfl

/-- A constant that fits, printed or not. -/
theorem bootSync {text : String} (h : (Piece.lit text).fits = true) :
    AllFit (bootSyncPieces n text) :=
  ite (cons h nil) nil

/-- An NTP reply prints an offset. -/
theorem receiveNtp (p : NtpPacket) : AllFit (receiveNtpPieces n p timeMs) :=
  ite (cons rfl (bootSync rfl)) (ite (cons rfl (bootSync rfl))
    (cons rfl (append (append (ite rfl nil) rfl) (bootSync rfl))))

/-- Whatever arrives, nothing of its text is printed on arrival. -/
theorem receiveFrame (fuel base : ℕ) : AllFit (receiveFramePieces v n mem fuel base timeMs) :=
  ite (receiveArp _) (ite (ite (receiveIcmp _) (ite
    (ite (receiveDns _ _ _) (ite (receiveNtp _) rfl)) nil)) nil)

/-- Only the string of a datagram may be too long. -/
theorem recv_iff : AllFit (recvPieces n) ↔
    (n.udpRxReady = true → (rxText n).length < msgMaxLength) := by
  rw [recvPieces]
  split
  · rename_i hready
    rw [AllFit, List.all_eq_true]
    constructor
    · intro h _
      exact of_decide_eq_true (h (.chars (rxText n)) (by simp))
    · intro h p hp
      have hchars : (Piece.chars (rxText n)).fits = true := decide_eq_true (h hready)
      simp only [List.mem_cons, List.not_mem_nil, or_false] at hp
      rcases hp with rfl | rfl | rfl | rfl | rfl | rfl | rfl | rfl | rfl
      all_goals first | exact hchars | rfl
  · rename_i hready
    exact iff_of_true rfl fun h => absurd h hready

/-- Every command but `recv` fits. -/
theorem handleCommand (m : NetMessage) (h : ¬ (m.length ≠ 0 ∧ m.cmd = .recv)) :
    AllFit (handleCommandPieces v n m timeMs) := by
  rw [handleCommandPieces]
  split
  · exact nil
  · rename_i hlen
    refine ite (append rfl (ite (startPingSeries _) rfl)) (ite (cons rfl (ite rfl rfl))
      (ite status ?_))
    split
    · rename_i hrecv
      exact absurd ⟨hlen, hrecv⟩ h
    · exact ite (ite rfl rfl) (ite (ite rfl (ite rfl rfl)) rfl)

end AllFit

/-! ## The string of a datagram -/

/-- A command reads a datagram whose string does not fit in a message. -/
def ReadsLong (n : NetDriver) : NetEvent → Prop
  | .command m _ => m.length ≠ 0 ∧ m.cmd = .recv ∧ n.udpRxReady = true ∧
      msgMaxLength ≤ (rxText n).length
  | _ => False

/-- So the one call whose prints may not fit is a `recv` of a long text. -/
theorem allFit_printed_iff (v : Unseen) (n : NetDriver) (e : NetEvent) :
    AllFit (printedPieces v n e) ↔ ¬ ReadsLong n e := by
  cases e with
  | frame descId mem timeMs => exact iff_of_true (.ite .nil (.receiveFrame _ _)) id
  | command m timeMs =>
    by_cases hrecv : m.length ≠ 0 ∧ m.cmd = .recv
    · have hpieces : printedPieces v n (.command m timeMs) = recvPieces n := by
        simp [printedPieces, handleCommandPieces, hrecv.1, hrecv.2]
      rw [hpieces, AllFit.recv_iff]
      constructor
      · intro h hlong
        exact absurd (h hlong.2.2.1) (Nat.not_lt.mpr hlong.2.2.2)
      · intro h hready
        exact Nat.lt_of_not_le fun hlong => h ⟨hrecv.1, hrecv.2, hready, hlong⟩
    · exact iff_of_true (.handleCommand m hrecv) fun h => hrecv ⟨h.1, h.2.1⟩
  | turn => exact iff_of_true .nil id
  | pingTimeout timeMs => exact iff_of_true .checkPingTimeout id
  | pingSend timeMs => exact iff_of_true .checkPingSend id
  | ntpResync timeMs uptimeMs => exact iff_of_true (.checkNtpResync _) id
  | bootTimeout uptimeMs => exact iff_of_true (.checkBootNtpTimeout _) id

/-- The array of the datagram holds a string. -/
def Terminated (n : NetDriver) : Prop := ∃ i < udpRxSize, n.udpRxData i = 0

section
variable {n : NetDriver} {timeMs : ℕ}

/-- The NUL is in the array, so only what writes the array can remove it. -/
theorem Terminated.of_data {n' : NetDriver} (h : Terminated n) (hdata : n'.udpRxData = n.udpRxData) :
    Terminated n' := by
  obtain ⟨i, hi, hzero⟩ := h
  exact ⟨i, hi, by rw [hdata, hzero]⟩

/-- A datagram is stored with a NUL behind it. -/
theorem terminated_takeDatagram (mem : Window) (base : ℕ) (n : NetDriver) :
    Terminated (takeDatagram mem base n) := by
  refine ⟨keptLen mem base, ?_, takeDatagram_nul mem base n⟩
  have hsize : udpRxSize = 256 := rfl
  rw [keptLen]
  omega

/-- A branch leaves the array alone if both sides do. -/
theorem ite_data {c : Prop} [Decidable c] {n₁ n₂ : NetDriver} (h₁ : n₁.udpRxData = n.udpRxData)
    (h₂ : n₂.udpRxData = n.udpRxData) : (if c then n₁ else n₂).udpRxData = n.udpRxData := by
  split
  · exact h₁
  · exact h₂

/-- A ping leaves the datagram alone. -/
theorem sendNextPing_data (n : NetDriver) : n.sendNextPing.udpRxData = n.udpRxData :=
  ite_data rfl rfl

/-- So does the check of the next send. -/
theorem checkPingSend_data (n : NetDriver) (timeMs : ℕ) :
    (n.checkPingSend timeMs).udpRxData = n.udpRxData :=
  ite_data rfl (ite_data (sendNextPing_data _) rfl)

/-- So does the next send of a series. -/
theorem scheduleNextPing_data (n : NetDriver) (timeMs : ℕ) :
    (n.scheduleNextPing timeMs).udpRxData = n.udpRxData :=
  ite_data rfl rfl

/-- So does a timeout. -/
theorem checkPingTimeout_data (n : NetDriver) (timeMs : ℕ) :
    (n.checkPingTimeout timeMs).udpRxData = n.udpRxData :=
  ite_data rfl (ite_data rfl (scheduleNextPing_data _ _))

/-- So does a periodic request. -/
theorem checkNtpResync_data (n : NetDriver) (timeMs uptimeMs : ℕ) :
    (n.checkNtpResync timeMs uptimeMs).udpRxData = n.udpRxData :=
  ite_data rfl (ite_data rfl (ite_data rfl rfl))

/-- So does what waited for the router. -/
theorem launchPending_data (n : NetDriver) (timeMs : ℕ) :
    (launchPending n timeMs).udpRxData = n.udpRxData := by
  rw [launchPending]
  split
  · rfl
  · exact checkPingSend_data _ _
  · rfl
  · rfl
  · rfl

/-- Commands leave the datagram alone, `recv` too: it only clears the flag. -/
theorem handleCommand_data (n : NetDriver) (m : NetMessage) (timeMs : ℕ) :
    (n.handleCommand m timeMs).udpRxData = n.udpRxData := by
  have heffect := handleCommand_effect n m timeMs
  generalize n.handleCommand m timeMs = n' at heffect ⊢
  cases heffect with
  | ping => exact checkPingSend_data _ _
  | asks | answered | dns | ntp | ignored => rfl

/-- Of the datagrams that the driver takes for answers it keeps no bytes. -/
theorem netStep_answer_data {descId : ℕ} {mem : Window} (hdesc : descId < 4)
    (hip : IsIp mem (rxBufferOffset descId) 17) (h : ¬ IsPlain mem (rxBufferOffset descId) n) :
    (netStep n (.frame descId mem timeMs)).udpRxData = n.udpRxData := by
  rw [netStep, netPoll, if_neg (Nat.not_le.mpr hdesc), receiveFrame_udp hip, receiveUdp, val_bind,
    val_bind, val_ite]
  split
  · rw [receiveDns, val_bind, val_pure]
    rcases (dnsAnswer _ _ _).val mem with _ | _ | ip <;> rfl
  · rename_i hdns
    rw [val_ite]
    split
    · rw [val_map]
      rfl
    · rename_i hntp
      exact absurd ⟨hip, hdns, hntp⟩ h

/-- A frame leaves the array alone or is a datagram that is kept. -/
theorem netStep_frame_data (n : NetDriver) (descId : ℕ) (mem : Window) (timeMs : ℕ) :
    (netStep n (.frame descId mem timeMs)).udpRxData = n.udpRxData ∨
      netStep n (.frame descId mem timeMs) = takeDatagram mem (rxBufferOffset descId) n := by
  rcases netStep_frame n descId mem timeMs with ⟨-, heq⟩ | ⟨hdesc, heffect⟩
  · rw [heq]
    exact .inl rfl
  by_cases hip : IsIp mem (rxBufferOffset descId) 17
  · by_cases hplain : IsPlain mem (rxBufferOffset descId) n
    · exact .inr (netStep_plain hdesc timeMs hplain)
    · exact .inl (netStep_answer_data hdesc hip hplain)
  · left
    generalize netStep n (.frame descId mem timeMs) = n' at heffect ⊢
    cases heffect with
    | arp => exact launchPending_data _ _
    | echo => exact scheduleNextPing_data _ _
    | dns | ntp | ignored => rfl
    | datagram h => exact absurd h hip

/-- The step lemma. -/
theorem Terminated.step (h : Terminated n) (e : NetEvent) : Terminated (netStep n e) := by
  cases e with
  | frame descId mem timeMs =>
    rcases netStep_frame_data n descId mem timeMs with hdata | heq
    · exact h.of_data hdata
    · rw [heq]
      exact terminated_takeDatagram _ _ _
  | command m timeMs => exact h.of_data (handleCommand_data n m timeMs)
  | turn => exact h.of_data rfl
  | pingTimeout timeMs => exact h.of_data (checkPingTimeout_data n timeMs)
  | pingSend timeMs => exact h.of_data (checkPingSend_data n timeMs)
  | ntpResync timeMs uptimeMs => exact h.of_data (checkNtpResync_data n timeMs uptimeMs)
  | bootTimeout uptimeMs => exact h.of_data rfl

end

/-- The run lemma: `recv` never prints past the array. -/
theorem terminated_of_run {uptimeMs : ℕ} {es : List NetEvent} {n : NetDriver}
    (h : Run NetStep (.start uptimeMs) es n) : Terminated n := by
  refine h.invariant (fun n e n' hn he => ?_) ⟨0, by decide, rfl⟩
  rw [← show netStep n e = n' from he]
  exact hn.step e

/-- **The driver's output.** What `main` prints in front of its loop fits in messages, and what a call
of the loop prints in any reachable state does if and only if it is not a `recv` of a datagram whose
string has 120 characters or more. -/
theorem putsOk_printed_iff {uptimeMs : ℕ} {es : List NetEvent} {n : NetDriver}
    (h : Run NetStep (.start uptimeMs) es n) (v : Unseen) (e : NetEvent) :
    Terminated n ∧ (∀ s ∈ textsOf mainPieces, PutsOk s) ∧
      ((∀ s ∈ textsOf (printedPieces v n e), PutsOk s) ↔ ¬ ReadsLong n e) := by
  refine ⟨terminated_of_run h, (allFit_iff _).mpr rfl, ?_⟩
  rw [allFit_iff]
  exact allFit_printed_iff v n e

/-- Of the addresses that the prints below show none matters. -/
def noUnseen : Unseen := ⟨[], [], 0, 0, 0, 0⟩

/-- A datagram with two letters. -/
def lettersWindow : Window :=
  windowAt 0x2800 (List.replicate 22 0 ++ [8, 0, 0x45, 0, 0, 0, 0, 0, 0, 0, 64, 17, 0, 0, 10, 0, 2, 2,
    10, 0, 2, 15, 4, 210, 31, 144, 0, 10, 0, 0, 104, 105])

/-- `recv` of a datagram with two letters. -/
theorem putsOk_printed_letters :
    let n := netStep (.start 0) (.frame 0 lettersWindow 0)
    (∀ s ∈ textsOf (printedPieces noUnseen n (.command ⟨1, .recv, 0⟩ 0)), PutsOk s) ∧
      [104, 105] ∈ textsOf (printedPieces noUnseen n (.command ⟨1, .recv, 0⟩ 0)) := by
  have hrun : Run NetStep (.start 0) [.frame 0 lettersWindow 0]
      (netStep (.start 0) (.frame 0 lettersWindow 0)) := .single rfl
  refine ⟨(putsOk_printed_iff hrun noUnseen (.command ⟨1, .recv, 0⟩ 0)).2.2.mpr fun hlong => ?_, ?_⟩
  · exact absurd hlong.2.2.2 (by decide +kernel)
  · decide +kernel

/-- A string is as long as the bytes in front of its NUL. -/
theorem le_length_takeWhile {m : Memory} {i k len : ℕ} (hk : k ≤ len)
    (h : ∀ j < k, m (i + j) ≠ 0) : k ≤ ((m.bytes i len).takeWhile (· ≠ 0)).length := by
  induction k generalizing i len with
  | zero => exact Nat.zero_le _
  | succ k ih =>
    obtain ⟨len, rfl⟩ := Nat.exists_eq_succ_of_ne_zero (Nat.ne_zero_of_lt hk)
    have hne : decide (m i ≠ 0) = true := decide_eq_true (h 0 (Nat.zero_lt_succ k))
    rw [Memory.bytes_succ, List.takeWhile_cons, if_pos hne, List.length_cons]
    refine Nat.succ_le_succ (ih (Nat.le_of_succ_le_succ hk) fun j hj => ?_)
    rw [Nat.add_assoc, Nat.add_comm 1]
    exact h (j + 1) (Nat.succ_lt_succ hj)

/-- A datagram of 120 letters. -/
def longWindow : Window :=
  windowAt 0x2800 (List.replicate 22 0 ++ [8, 0, 0x45, 0, 0, 0, 0, 0, 0, 0, 64, 17, 0, 0, 10, 0, 2, 2,
    10, 0, 2, 15, 4, 210, 31, 144, 0, 128, 0, 0] ++ List.replicate 120 65)

/-- A datagram with a long text is one that is kept for `recv`. -/
theorem isPlain_long : IsPlain longWindow (rxBufferOffset 0) (.start 0) :=
  ⟨⟨by decide +kernel, by decide +kernel⟩, by decide +kernel, by decide +kernel⟩

/-- And the `recv` behind it reads a text that does not fit. -/
theorem readsLong_long : ReadsLong (takeDatagram longWindow (rxBufferOffset 0) (.start 0))
    (.command ⟨1, .recv, 0⟩ 0) := by
  have hkept : keptLen longWindow (rxBufferOffset 0) = msgMaxLength := by decide +kernel
  have hletters : ∀ j < msgMaxLength,
      longWindow (transportOf longWindow (rxBufferOffset 0) + udpHeader + j) ≠ 0 := by
    decide +kernel
  refine ⟨Nat.one_ne_zero, rfl, rfl, le_length_takeWhile (by decide) fun j hj => ?_⟩
  rw [Nat.zero_add, takeDatagram_data (by rwa [hkept])]
  exact hletters j hj

/-- `recv` of the datagram writes behind the message. -/
theorem not_putsOk_recv : ¬ ∀ (uptimeMs : ℕ) (es : List NetEvent) (n : NetDriver) (v : Unseen)
    (e : NetEvent), Run NetStep (.start uptimeMs) es n →
      ∀ s ∈ textsOf (printedPieces v n e), PutsOk s := by
  intro h
  have hrun : Run NetStep (.start 0) [.frame 0 longWindow 0]
      (takeDatagram longWindow (rxBufferOffset 0) (.start 0)) :=
    .single (netStep_plain (by decide) 0 isPlain_long)
  have hall := h 0 _ _ noUnseen (.command ⟨1, .recv, 0⟩ 0) hrun
  rw [allFit_iff, allFit_printed_iff] at hall
  exact hall readsLong_long

end PsychWard.Net
