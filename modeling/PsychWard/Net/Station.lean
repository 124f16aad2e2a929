import PsychWard.Net.Packets
import PsychWard.Net.Pending
import PsychWard.Net.Pings

/-!
# The driver on the wire

The driver of `PsychWard.Net.Pending` with the packets that it hands to its device. For every call
of the main loop the packets are those of the functions that the call makes, in their order; `sent`
logs them.

`sound_of_run` says of every packet that was ever sent that it is a well-formed frame of the
driver's own, and of every packet behind the first ARP request that carries IP that it went to the
address that the ARP reply gave.
-/

namespace PsychWard.Net

open Clock Traced

/-- The driver, its address on the link, `g_ping_target_ip` and the packets that were sent. -/
structure Station where
  jobs : JobDriver
  myMac : List UInt8
  pingTargetIp : List UInt8
  sent : List Packet

/-! ## What the functions send -/

section
variable (myMac : List UInt8) (n : NetDriver)

/-- `net_send_ping` -/
def sendPingPackets (dstIp : List UInt8) : List Packet :=
  [pingRequest myMac n.routerMac dstIp n.sendPing.pingOutstandingSeq]

/-- `net_send_next_ping` -/
def sendNextPingPackets (targetIp : List UInt8) : List Packet :=
  if n.pingOutstanding || n.pingSeriesRemaining == 0 then []
  else sendPingPackets myMac { n with pingSeriesRemaining := n.pingSeriesRemaining - 1 } targetIp

/-- `net_check_ping_send` -/
def checkPingSendPackets (targetIp : List UInt8) (timeMs : ℕ) : List Packet :=
  if n.pingOutstanding || n.pingSeriesRemaining == 0 then []
  else if n.pingNextSendMs = 0 ∨ n.pingNextSendMs ≤ timeMs then
    sendNextPingPackets myMac { n with pingNextSendMs := 0 } targetIp
  else []

/-- `net_start_ping_series` -/
def startPingSeriesPackets (dstIp : List UInt8) (count timeMs : ℕ) : List Packet :=
  checkPingSendPackets myMac
    { n with
      pingSeriesRemaining := clampPings count
      pingOutstanding := false
      pingNextSendMs := 0 } dstIp timeMs

/-- `net_check_ntp_resync` -/
def checkNtpResyncPackets (timeMs uptimeMs : ℕ) : List Packet :=
  if n.ntpOutstanding || n.pendingCmd == .ntp then []
  else if uptimeMs < n.ntpNextResyncUptimeMs then []
  else if n.haveRouterMac then [ntpRequest myMac n.routerMac timeMs]
  else [arpRequest myMac]

/-- `net_handle_command` -/
def handleCommandPackets (a : Arguments) (length : ℕ) (regs : Registers) (msg : ℤ → UInt8)
    (timeMs : ℕ) : List Packet :=
  if length = 0 then []
  else match netCommand (regs 0) with
  | .ping =>
    if 3 ≤ length then
      if n.haveRouterMac then
        startPingSeriesPackets myMac n (unpackIpv4 (regs 1)) (clampPings (regs 2 % 2 ^ 32)) timeMs
      else [arpRequest myMac]
    else []
  | .send =>
    if 4 ≤ length then
      if n.haveRouterMac then
        [udpMessage myMac n.routerMac (sendIp regs) (sendPort regs)
          (textOf (commandText msg length regs))]
      else [arpRequest myMac]
    else []
  | .resolve =>
    if n.haveRouterMac then
      [dnsQuery myMac n.routerMac (textOf (commandText a.dnsPendingDomain length regs))]
    else [arpRequest myMac]
  | .ntp =>
    if n.ntpOutstanding then []
    else if n.haveRouterMac then [ntpRequest myMac n.routerMac timeMs]
    else [arpRequest myMac]
  | .none | .status | .recv => []

/-- What the ARP branch of `net_poll` sends. -/
def launchPendingPackets (a : Arguments) (timeMs : ℕ) : List Packet :=
  match n.pendingCmd with
  | .resolve => [dnsQuery myMac n.routerMac (textOf a.dnsPendingDomain)]
  | .ping => startPingSeriesPackets myMac n a.pendingIp n.pendingPingCount timeMs
  | .send => [udpMessage myMac n.routerMac a.pendingUdpIp a.pendingUdpPort (textOf a.pendingUdp)]
  | .ntp => [ntpRequest myMac n.routerMac timeMs]
  | .none | .status | .recv => []

end

/-- The driver with the address that an ARP reply gives. -/
def learned (n : NetDriver) (mem : Window) (base : ℕ) : NetDriver :=
  { n with
    routerMac := (bytes (payloadOf base + 8) 6).val mem
    haveRouterMac := true
    arpOutstanding := false }

/-- The driver takes the ARP reply in the buffer of the descriptor. -/
def LearnsMac (n : NetDriver) (descId : ℕ) (mem : Window) : Prop :=
  descId < 4 ∧ IsArpReply mem (rxBufferOffset descId) ∧ n.haveRouterMac = false

instance (n : NetDriver) (descId : ℕ) (mem : Window) : Decidable (LearnsMac n descId mem) :=
  inferInstanceAs (Decidable (_ ∧ _))

namespace Station

/-- `main` has sent its first ARP request. -/
def start (uptimeMs : ℕ) (myMac : List UInt8) : Station where
  jobs := .start uptimeMs
  myMac := myMac
  pingTargetIp := [10, 0, 2, 2]
  sent := [arpRequest myMac]

variable (s : Station)

/-- The packets that the call sends. -/
def packets : JobEvent → List Packet
  | .frame descId mem timeMs =>
    if LearnsMac s.jobs.net descId mem then
      launchPendingPackets s.myMac (learned s.jobs.net mem (rxBufferOffset descId)) s.jobs.args
        timeMs
    else []
  | .command length regs msg timeMs =>
    handleCommandPackets s.myMac s.jobs.net s.jobs.args length regs msg timeMs
  | .pingSend timeMs => checkPingSendPackets s.myMac s.jobs.net s.pingTargetIp timeMs
  | .ntpResync timeMs uptimeMs => checkNtpResyncPackets s.myMac s.jobs.net timeMs uptimeMs
  | .turn | .pingTimeout _ | .bootTimeout _ => []

/-- `g_ping_target_ip` after the call: a series that starts has its own target. -/
def target : JobEvent → List UInt8
  | .frame descId mem _ =>
    if LearnsMac s.jobs.net descId mem ∧ s.jobs.net.pendingCmd = .ping then s.jobs.args.pendingIp
    else s.pingTargetIp
  | .command length regs _ _ =>
    if netCommand (regs 0) = .ping ∧ 3 ≤ length ∧ s.jobs.net.haveRouterMac = true then
      unpackIpv4 (regs 1)
    else s.pingTargetIp
  | _ => s.pingTargetIp

def step (e : JobEvent) : Station where
  jobs := s.jobs.step e
  myMac := s.myMac
  pingTargetIp := s.target e
  sent := s.sent ++ s.packets e

def Step (e : JobEvent) (s' : Station) : Prop := s.step e = s'

end Station

/-- The address of the gateway, if it is known. -/
def NetDriver.gateway (n : NetDriver) : Option (List UInt8) :=
  if n.haveRouterMac then some n.routerMac else none

/-- A packet of the driver: an ARP request, or an IP packet to the gateway. -/
inductive Sound (myMac : List UInt8) (gateway : Option (List UInt8)) (p : Packet) : Prop
  | arp (h : IsFrame broadcastMac myMac 0x0806 (arpFields myMac) p)
  | ping (mac packet body dst : List UInt8) (number : ℕ) (known : gateway = some mac)
      (frame : IsFrame mac myMac 0x0800 packet p) (ip : IsIpv4 1 dst body packet)
      (echo : IsEchoRequest number body)
  | udp (mac packet segment data dst : List UInt8) (srcPort dstPort : ℕ)
      (known : gateway = some mac)
      (frame : IsFrame mac myMac 0x0800 packet p) (ip : IsIpv4 17 dst segment packet)
      (udp : IsUdp srcPort dstPort data segment)

/-- The arguments are in their ranges. -/
def Job.Valid : Job → Prop
  | .ping ip _ => ip.length = 4
  | .send ip port text => ip.length = 4 ∧ port < 2 ^ 16 ∧ text.length < textSize
  | .resolve domain => domain.length < textSize
  | .ntp => True

/-- The packets that carrying out a job sends at once. -/
def jobPackets (myMac : List UInt8) (n : NetDriver) (timeMs : ℕ) : Job → List Packet
  | .ping ip count => startPingSeriesPackets myMac n ip count timeMs
  | .send ip port text => [udpMessage myMac n.routerMac ip port text]
  | .resolve domain => [dnsQuery myMac n.routerMac domain]
  | .ntp => [ntpRequest myMac n.routerMac timeMs]

/-! ## The packets of a call -/

section
variable {myMac : List UInt8} {n : NetDriver} {p : Packet}

theorem launchPendingPackets_eq (myMac : List UInt8) (n : NetDriver) (a : Arguments) (timeMs : ℕ) :
    launchPendingPackets myMac n a timeMs =
      ((pendingJob n a).map (jobPackets myMac n timeMs)).getD [] := by
  rw [launchPendingPackets, pendingJob]
  cases n.pendingCmd with
  | ping | send | resolve | ntp | none | status | recv => rfl

/-- A ping has a sequence number, which is not zero. -/
theorem sendPing_seq (n : NetDriver) :
    0 < n.sendPing.pingOutstandingSeq ∧ n.sendPing.pingOutstandingSeq < 2 ^ 16 := by
  show 0 < (if (n.pingNextSeq + 1) % 2 ^ 16 = 0 then 1 else (n.pingNextSeq + 1) % 2 ^ 16) ∧
    (if (n.pingNextSeq + 1) % 2 ^ 16 = 0 then 1 else (n.pingNextSeq + 1) % 2 ^ 16) < 2 ^ 16
  split <;> omega

/-- A ping goes to its target, under the number that is awaited. -/
theorem mem_checkPingSendPackets {targetIp : List UInt8} {timeMs : ℕ}
    (h : p ∈ checkPingSendPackets myMac n targetIp timeMs) :
    p = pingRequest myMac n.routerMac targetIp (n.checkPingSend timeMs).pingOutstandingSeq ∧
      (n.checkPingSend timeMs).pingOutstandingSeq = n.sendPing.pingOutstandingSeq := by
  rw [checkPingSendPackets] at h
  rw [NetDriver.checkPingSend]
  split at h
  · exact absurd h List.not_mem_nil
  · rename_i hidle
    split at h
    · rename_i hdue
      rw [if_neg hidle, if_pos hdue]
      have hidle' : ¬ (({ n with pingNextSendMs := 0 } : NetDriver).pingOutstanding ||
          ({ n with pingNextSendMs := 0 } : NetDriver).pingSeriesRemaining == 0) = true := hidle
      rw [sendNextPingPackets, if_neg hidle'] at h
      rw [NetDriver.sendNextPing, if_neg hidle']
      exact ⟨List.mem_singleton.mp h, rfl⟩
    · exact absurd h List.not_mem_nil

variable (hmy : myMac.length = 6) (hknown : n.haveRouterMac = true)
  (hrouter : n.routerMac.length = 6)

theorem gateway_eq (hknown : n.haveRouterMac = true) : n.gateway = some n.routerMac := if_pos hknown

include hmy in
theorem sound_arpRequest : Sound myMac n.gateway (arpRequest myMac) := .arp (isFrame_arpRequest hmy)

include hmy hknown hrouter

theorem sound_checkPingSend {targetIp : List UInt8} {timeMs : ℕ} (htarget : targetIp.length = 4)
    (h : p ∈ checkPingSendPackets myMac n targetIp timeMs) : Sound myMac n.gateway p := by
  obtain ⟨rfl, hseq⟩ := mem_checkPingSendPackets h
  obtain ⟨hpos, hlt⟩ := sendPing_seq n
  exact .ping _ _ _ targetIp _ (gateway_eq hknown) (isFrame_pingRequest hmy hrouter htarget _)
    (isIpv4_echoPacket htarget _)
    (isEchoRequest_icmpMessage (by rw [hseq]; exact hpos) (by rw [hseq]; exact hlt))

theorem sound_udpPacket (id : ℕ) {dstIp data : List UInt8} {srcPort dstPort : ℕ}
    (hdst : dstIp.length = 4) (hsrc : srcPort < 2 ^ 16) (hport : dstPort < 2 ^ 16)
    (hdata : data.length ≤ 512) :
    Sound myMac n.gateway (udpPacket myMac n.routerMac id dstIp srcPort dstPort data) := by
  have hudp : IsUdp srcPort dstPort data (udpSegment srcPort dstPort data) :=
    isUdp_segment hsrc hport (by rw [udpHeader]; omega)
  exact .udp _ _ _ data dstIp srcPort dstPort (gateway_eq hknown)
    (isFrame_udpPacket hmy hrouter hdst id srcPort dstPort hdata)
    (isIpv4_udpIpPacket hdst id srcPort dstPort hdata) hudp

theorem sound_ntpRequest (timeMs : ℕ) :
    Sound myMac n.gateway (ntpRequest myMac n.routerMac timeMs) :=
  sound_udpPacket hmy hknown hrouter _ rfl (by decide) (by decide)
    (show 48 ≤ 512 by decide)

theorem sound_dnsQuery {domain : List UInt8} (h : domain.length < textSize) :
    Sound myMac n.gateway (dnsQuery myMac n.routerMac domain) := by
  refine sound_udpPacket hmy hknown hrouter _ rfl (by decide) (by decide) ?_
  rw [length_dnsFields, dnsHeader]
  rw [textSize] at h
  omega

theorem sound_udpMessage {dstIp text : List UInt8} {port : ℕ} (hdst : dstIp.length = 4)
    (hport : port < 2 ^ 16) (h : text.length < textSize) :
    Sound myMac n.gateway (udpMessage myMac n.routerMac dstIp port text) := by
  refine sound_udpPacket hmy hknown hrouter _ hdst (by decide) hport ?_
  rw [textSize] at h
  omega

/-- What a job sends is sound. -/
theorem sound_jobPackets {j : Job} (hj : j.Valid) {timeMs : ℕ}
    (h : p ∈ jobPackets myMac n timeMs j) : Sound myMac n.gateway p := by
  cases j with
  | ping ip count =>
    exact sound_checkPingSend (n := { n with
      pingSeriesRemaining := clampPings count
      pingOutstanding := false
      pingNextSendMs := 0 }) hmy hknown hrouter hj h
  | send ip port text =>
    exact List.mem_singleton.mp h ▸ sound_udpMessage hmy hknown hrouter hj.1 hj.2.1 hj.2.2
  | resolve domain => exact List.mem_singleton.mp h ▸ sound_dnsQuery hmy hknown hrouter hj
  | ntp => exact List.mem_singleton.mp h ▸ sound_ntpRequest hmy hknown hrouter timeMs

end

/-! ## The gateway's address -/

section
variable {n : NetDriver} {descId timeMs : ℕ} {mem : Window}

/-- An ARP reply that is taken launches what waits. -/
theorem netStep_learns (h : LearnsMac n descId mem) : netStep n (.frame descId mem timeMs) =
    launchPending (learned n mem (rxBufferOffset descId)) timeMs := netStep_arp h.1 h.2.1 h.2.2

theorem SameKnowledge.gateway {n' : NetDriver} (h : SameKnowledge n n') :
    n'.gateway = n.gateway := by
  rw [NetDriver.gateway, NetDriver.gateway, h.haveRouterMac, h.routerMac]

/-- Nothing but such a reply changes it. -/
theorem netStep_gateway (n : NetDriver) (e : NetEvent) : (netStep n e).gateway = n.gateway ∨
    ∃ descId mem timeMs, e = .frame descId mem timeMs ∧ LearnsMac n descId mem := by
  by_cases hframe : ∃ descId mem t, e = .frame descId mem t
  · obtain ⟨descId, mem, t, rfl⟩ := hframe
    rcases netStep_frame n descId mem t with ⟨-, hsame⟩ | ⟨hdesc, heffect⟩
    · exact .inl (congrArg NetDriver.gateway hsame)
    · generalize netStep n (.frame descId mem t) = n' at heffect
      cases heffect with
      | arp h hmac => exact .inr ⟨descId, mem, t, rfl, hdesc, h, hmac⟩
      | echo rttUs =>
        have hsame : SameKnowledge
            (NetDriver.recordPingRtt { n with pingOutstanding := false } rttUs)
            (takeEcho n rttUs t) := takeEcho_same rttUs
        exact .inl hsame.gateway
      | dns => exact .inl rfl
      | ntp =>
        refine .inl ?_
        rw [NetDriver.gateway, NetDriver.gateway]
        exact congrArg (fun b => if b = true then some n.routerMac else none)
          (pollNtpReply_haveRouterMac ..)
      | datagram => exact .inl rfl
      | ignored => exact .inl rfl
  · exact .inl (netStep_same n fun descId mem t he => hframe ⟨descId, mem, t, he⟩).gateway

/-- A known address is kept. -/
theorem gateway_step {mac : List UInt8} (h : n.gateway = some mac) (e : NetEvent) :
    (netStep n e).gateway = some mac := by
  rcases netStep_gateway n e with hsame | ⟨descId, mem, t, -, -, -, hmac⟩
  · rwa [hsame]
  · rw [NetDriver.gateway, if_neg (by rw [hmac]; exact Bool.false_ne_true)] at h
    cases h

theorem gateway_learned (n : NetDriver) (mem : Window) (base timeMs : ℕ) :
    (launchPending (learned n mem base) timeMs).gateway =
      some ((bytes (payloadOf base + 8) 6).val mem) :=
  (SameKnowledge.launchPending timeMs).gateway

end

/-- A ping series has not more packets to send than before, or the address is known. -/
theorem netStep_series (n : NetDriver) (e : NetEvent) (h : n.pingSeriesRemaining = 0) :
    (netStep n e).pingSeriesRemaining = 0 ∨ (netStep n e).haveRouterMac = true := by
  cases e with
  | frame descId mem t =>
    rcases netStep_frame n descId mem t with ⟨-, hsame⟩ | ⟨hdesc, heffect⟩
    · exact .inl ((congrArg (·.pingSeriesRemaining) hsame).trans h)
    · generalize netStep n (.frame descId mem t) = n' at heffect
      cases heffect with
      | arp => exact .inr (SameKnowledge.launchPending t).haveRouterMac
      | echo rttUs =>
        rw [takeEcho, NetDriver.scheduleNextPing]
        split <;> exact .inl h
      | dns | ntp | datagram | ignored => exact .inl h
  | command m t =>
    show (n.handleCommand m t).pingSeriesRemaining = 0 ∨ (n.handleCommand m t).haveRouterMac = true
    have heffect := handleCommand_effect n m t
    generalize n.handleCommand m t = n' at heffect
    cases heffect with
    | ping _ hmac => exact .inr ((SameKnowledge.startPingSeries _ t).haveRouterMac.trans hmac)
    | asks | answered | dns | ntp | ignored => exact .inl h
  | turn => exact .inl h
  | pingTimeout t =>
    show (n.checkPingTimeout t).pingSeriesRemaining = 0 ∨ _
    rw [NetDriver.checkPingTimeout, NetDriver.scheduleNextPing]
    split_ifs <;> exact .inl h
  | pingSend t =>
    show (n.checkPingSend t).pingSeriesRemaining = 0 ∨ _
    rw [NetDriver.checkPingSend, if_pos (by simp [h])]
    exact .inl h
  | ntpResync t u =>
    show (n.checkNtpResync t u).pingSeriesRemaining = 0 ∨ _
    rw [NetDriver.checkNtpResync]
    split_ifs <;> exact .inl h
  | bootTimeout u => exact .inl h

/-- No ping of a series is sent before the address is known. -/
theorem series_step {n : NetDriver}
    (h : n.pingSeriesRemaining ≠ 0 → n.haveRouterMac = true) (e : NetEvent)
    (hne : (netStep n e).pingSeriesRemaining ≠ 0) : (netStep n e).haveRouterMac = true := by
  by_cases hzero : n.pingSeriesRemaining = 0
  · exact (netStep_series n e hzero).resolve_left hne
  · exact netStep_haveRouterMac e (h hzero)

/-! ## The arguments -/

/-- The slots hold arguments in their ranges. -/
structure Arguments.Valid (a : Arguments) : Prop where
  pendingIp : a.pendingIp.length = 4
  pendingUdpIp : a.pendingUdpIp.length = 4
  pendingUdpPort : a.pendingUdpPort < 2 ^ 16
  pendingUdp : strlen a.pendingUdp < textSize
  dnsPendingDomain : strlen a.dnsPendingDomain < textSize

section
variable {a : Arguments} {n : NetDriver} {length : ℕ} {regs : Registers}

theorem length_unpackIpv4 (packed : ℕ) : (unpackIpv4 packed).length = 4 := rfl

theorem length_sendIp (regs : Registers) : (sendIp regs).length = 4 := by
  rw [sendIp]
  split <;> rfl

theorem sendPort_lt (regs : Registers) : sendPort regs < 2 ^ 16 := by
  show (if regs 2 % 2 ^ 16 = 0 then defaultUdpPort else regs 2 % 2 ^ 16) < 2 ^ 16
  split
  · decide
  · exact Nat.mod_lt _ (by decide)

theorem length_textOf_commandText (dst : ℤ → UInt8) (length : ℕ) (regs : Registers) :
    (textOf (commandText dst length regs)).length < textSize := by
  have h := strlen_commandText dst length regs
  rwa [strlen] at h

theorem Arguments.Valid.start : Arguments.start.Valid := by
  have hempty : strlen (fun _ => 0) < textSize := strlen_lt (l := 0) (by decide) rfl
  exact ⟨rfl, rfl, by decide, hempty, hempty⟩

theorem Arguments.Valid.store (h : a.Valid) (known : Bool) (length : ℕ) (regs : Registers)
    (msg : ℤ → UInt8) : (a.store known length regs msg).Valid := by
  have hudp : strlen (memcpy a.pendingUdp (commandText msg length regs)
      (strlen (commandText msg length regs) + 1)) < textSize := by
    rw [strlen, textOf_memcpy _ (strlen_commandText _ _ _)]
    exact length_textOf_commandText _ _ _
  have hdomain := strlen_commandText a.dnsPendingDomain length regs
  rw [Arguments.store]
  split
  · exact h
  · split
    · split
      · exact ⟨rfl, h.pendingUdpIp, h.pendingUdpPort, h.pendingUdp, h.dnsPendingDomain⟩
      · exact h
    · split
      · exact ⟨h.pendingIp, length_sendIp regs, sendPort_lt regs, hudp, h.dnsPendingDomain⟩
      · exact h
    · exact ⟨h.pendingIp, h.pendingUdpIp, h.pendingUdpPort, h.pendingUdp, hdomain⟩
    · exact h

theorem Arguments.Valid.pendingJob (h : a.Valid) {j : Job} (hj : pendingJob n a = some j) :
    j.Valid := by
  rw [Net.pendingJob] at hj
  split at hj
  · obtain rfl := Option.some.inj hj
    exact h.pendingIp
  · obtain rfl := Option.some.inj hj
    exact ⟨h.pendingUdpIp, h.pendingUdpPort, h.pendingUdp⟩
  · obtain rfl := Option.some.inj hj
    exact h.dnsPendingDomain
  · obtain rfl := Option.some.inj hj
    trivial
  · cases hj
  · cases hj
  · cases hj

end

/-! ## Runs -/

namespace Station

variable {s s' : Station} {e : JobEvent} {es : List JobEvent}

/-- What every call preserves. -/
structure Inv (s : Station) : Prop where
  myMac : s.myMac.length = 6
  routerMac : ∀ mac, s.jobs.net.gateway = some mac → mac.length = 6
  series : s.jobs.net.pingSeriesRemaining ≠ 0 → s.jobs.net.haveRouterMac = true
  target : s.pingTargetIp.length = 4
  args : s.jobs.args.Valid
  sent : ∀ p ∈ s.sent, Sound s.myMac s.jobs.net.gateway p

theorem inv_start {myMac : List UInt8} (h : myMac.length = 6) (uptimeMs : ℕ) :
    (start uptimeMs myMac).Inv where
  myMac := h
  routerMac _ hmac := nomatch hmac
  series h := absurd rfl h
  target := rfl
  args := .start
  sent _ hp := List.mem_singleton.mp hp ▸ .arp (isFrame_arpRequest h)

/-- A frame stays a frame when more becomes known. -/
theorem Sound.mono {myMac : List UInt8} {gateway gateway' : Option (List UInt8)} {p : Packet}
    (h : Sound myMac gateway p) (hmono : ∀ mac, gateway = some mac → gateway' = some mac) :
    Sound myMac gateway' p := by
  cases h with
  | arp h => exact .arp h
  | ping mac packet body dst number known frame ip echo =>
    exact .ping mac packet body dst number (hmono mac known) frame ip echo
  | udp mac packet segment data dst srcPort dstPort known frame ip udp =>
    exact .udp mac packet segment data dst srcPort dstPort (hmono mac known) frame ip udp

theorem Inv.known (h : s.Inv) (hknown : s.jobs.net.haveRouterMac = true) :
    s.jobs.net.routerMac.length = 6 := h.routerMac _ (gateway_eq hknown)

/-- What a command sends. -/
theorem Inv.handleCommand (h : s.Inv) {length : ℕ} {regs : Registers} {msg : ℤ → UInt8}
    {timeMs : ℕ} {p : Packet}
    (hp : p ∈ handleCommandPackets s.myMac s.jobs.net s.jobs.args length regs msg timeMs) :
    Sound s.myMac s.jobs.net.gateway p := by
  have harp : ∀ q ∈ [arpRequest s.myMac], Sound s.myMac s.jobs.net.gateway q := fun q hq =>
    List.mem_singleton.mp hq ▸ sound_arpRequest h.myMac
  have hjob : s.jobs.net.haveRouterMac = true → ∀ j : Job, j.Valid →
      ∀ q ∈ jobPackets s.myMac s.jobs.net timeMs j, Sound s.myMac s.jobs.net.gateway q :=
    fun hknown j hj q hq => sound_jobPackets h.myMac hknown (h.known hknown) hj hq
  -- each command does its job, or asks for the gateway first
  rw [handleCommandPackets] at hp
  split at hp
  · exact absurd hp List.not_mem_nil
  · split at hp
    · split at hp
      · split at hp
        · exact hjob ‹_› (.ping (unpackIpv4 (regs 1)) (clampPings (regs 2 % 2 ^ 32))) rfl p hp
        · exact harp p hp
      · exact absurd hp List.not_mem_nil
    · split at hp
      · split at hp
        · exact hjob ‹_›
            (.send (sendIp regs) (sendPort regs) (textOf (commandText msg length regs)))
            ⟨length_sendIp regs, sendPort_lt regs, length_textOf_commandText _ _ _⟩ p hp
        · exact harp p hp
      · exact absurd hp List.not_mem_nil
    · split at hp
      · exact hjob ‹_› (.resolve (textOf (commandText s.jobs.args.dnsPendingDomain length regs)))
          (length_textOf_commandText _ _ _) p hp
      · exact harp p hp
    · split at hp
      · exact absurd hp List.not_mem_nil
      · split at hp
        · exact hjob ‹_› .ntp trivial p hp
        · exact harp p hp
    · exact absurd hp List.not_mem_nil
    · exact absurd hp List.not_mem_nil
    · exact absurd hp List.not_mem_nil

/-- Every packet that a call sends is sound. -/
theorem Inv.packets (h : s.Inv) (e : JobEvent) :
    ∀ p ∈ s.packets e, Sound s.myMac (s.step e).jobs.net.gateway p := by
  have hkeep : ∀ {p}, Sound s.myMac s.jobs.net.gateway p →
      Sound s.myMac (s.step e).jobs.net.gateway p := fun hp =>
    Sound.mono hp fun mac hmac => gateway_step hmac e.netEvent
  intro p hp
  cases e with
  | frame descId mem timeMs =>
    rw [Station.packets] at hp
    split at hp
    · rename_i hlearns
      rw [launchPendingPackets_eq] at hp
      have hgateway : (s.step (.frame descId mem timeMs)).jobs.net.gateway =
          (learned s.jobs.net mem (rxBufferOffset descId)).gateway := by
        show (netStep s.jobs.net (.frame descId mem timeMs)).gateway = _
        rw [netStep_learns hlearns]
        exact gateway_learned _ _ _ _
      cases hj : pendingJob (learned s.jobs.net mem (rxBufferOffset descId)) s.jobs.args with
      | none =>
        rw [hj] at hp
        exact absurd hp List.not_mem_nil
      | some j =>
        rw [hj] at hp
        rw [hgateway]
        refine sound_jobPackets h.myMac rfl ?_ (h.args.pendingJob hj) hp
        show ((bytes _ 6).val mem).length = 6
        rw [val_bytes, Memory.length_bytes]
    · exact absurd hp List.not_mem_nil
  | command length regs msg timeMs => exact hkeep (h.handleCommand hp)
  | turn | pingTimeout | bootTimeout => exact absurd hp List.not_mem_nil
  -- nothing is sent unless a series runs, and a series runs only once the gateway is known
  | pingSend timeMs =>
    have hremaining : s.jobs.net.pingSeriesRemaining ≠ 0 := fun hzero => by
      rw [Station.packets, checkPingSendPackets, if_pos (by simp [hzero])] at hp
      exact absurd hp List.not_mem_nil
    have hknown := h.series hremaining
    exact hkeep (sound_checkPingSend h.myMac hknown (h.known hknown) h.target hp)
  | ntpResync timeMs uptimeMs =>
    rw [Station.packets, checkNtpResyncPackets] at hp
    split at hp
    · exact absurd hp List.not_mem_nil
    · split at hp
      · exact absurd hp List.not_mem_nil
      · split at hp
        · rename_i hknown
          exact hkeep (sound_jobPackets h.myMac hknown (h.known hknown) (j := .ntp) trivial hp)
        · exact hkeep (List.mem_singleton.mp hp ▸ sound_arpRequest h.myMac)

theorem length_target (h : s.Inv) (e : JobEvent) : (s.target e).length = 4 := by
  rw [target.eq_def]
  split
  · split
    · exact h.args.pendingIp
    · exact h.target
  · split
    · exact length_unpackIpv4 _
    · exact h.target
  · exact h.target

theorem Inv.step (h : s.Inv) (e : JobEvent) : (s.step e).Inv where
  myMac := h.myMac
  routerMac mac hmac := by
    rcases netStep_gateway s.jobs.net e.netEvent with hsame | ⟨descId, mem, t, he, hlearns⟩
    · exact h.routerMac mac (hsame.symm.trans hmac)
    · have hgateway : (netStep s.jobs.net e.netEvent).gateway = some mac := hmac
      rw [he, netStep_learns hlearns, gateway_learned] at hgateway
      obtain rfl := Option.some.inj hgateway
      rw [val_bytes, Memory.length_bytes]
  series hne := series_step h.series e.netEvent hne
  target := length_target h e
  args := by
    cases e with
    | command length regs msg timeMs => exact h.args.store _ length regs msg
    | frame | turn | pingTimeout | pingSend | ntpResync | bootTimeout => exact h.args
  sent p hp := by
    rcases List.mem_append.mp hp with hp | hp
    · exact Sound.mono (h.sent p hp) fun mac hmac => gateway_step hmac e.netEvent
    · exact h.packets e p hp

theorem inv_of_run {uptimeMs : ℕ} {myMac : List UInt8} (hmac : myMac.length = 6)
    (h : Run Step (start uptimeMs myMac) es s) : s.Inv := by
  refine h.invariant (fun s e s' hinv hs => ?_) (inv_start hmac uptimeMs)
  obtain rfl := hs
  exact hinv.step e

/-- **What is on the wire.** Whatever the driver receives, from the network and from the shell, and
in whatever order its loop makes its calls, every packet that it has sent is a sound one. -/
theorem sound_of_run {uptimeMs : ℕ} {myMac : List UInt8} (hmac : myMac.length = 6)
    (h : Run Step (start uptimeMs myMac) es s) {p : Packet} (hp : p ∈ s.sent) :
    Sound s.myMac s.jobs.net.gateway p := (inv_of_run hmac h).sent p hp

/-- The address of the driver in the witnesses. -/
def someMac : List UInt8 := [0x52, 0x54, 0, 0x12, 0x34, 0x56]

/-- The gateway answers the first request, and the SNTP request follows. -/
def gatewayAnswers : JobEvent := .frame 0 (arpReplyFrom gatewayIp) 1000

theorem learnsMac_gatewayAnswers : LearnsMac (.start 0) 0 (arpReplyFrom gatewayIp) :=
  ⟨by decide, ⟨by decide +kernel, by decide +kernel⟩, rfl⟩

theorem sound_of_run_gatewayAnswers : ∃ p ∈ ((start 0 someMac).step gatewayAnswers).sent,
    p = ntpRequest someMac (learned (.start 0) (arpReplyFrom gatewayIp) 0x2800).routerMac 1000 ∧
      Sound someMac ((start 0 someMac).step gatewayAnswers).jobs.net.gateway p := by
  have hsent : (start 0 someMac).packets gatewayAnswers =
      [ntpRequest someMac (learned (.start 0) (arpReplyFrom gatewayIp) 0x2800).routerMac 1000] := by
    rw [packets.eq_def]
    exact if_pos learnsMac_gatewayAnswers
  have hmem := List.mem_append_right (start 0 someMac).sent
    (hsent ▸ List.mem_cons_self : _ ∈ (start 0 someMac).packets gatewayAnswers)
  exact ⟨_, hmem, rfl, sound_of_run rfl (.single rfl : Run Step (start 0 someMac) _ _) hmem⟩

end Station

end PsychWard.Net
