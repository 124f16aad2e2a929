import PsychWard.Net.BootSync
import PsychWard.Net.Pings
import PsychWard.Net.Station

/-!
# Questions and answers

What the driver waits for are four things: the gateway's address, an echo reply, the time and the
address of a name. In every state that it can reach it has sent the packet that asks for what it
waits for, and whatever a host answers to that packet ends the wait: `answered_of_run`.

`Answers` says what hosts answer; it looks at nothing but the packet that they have received.
-/

namespace PsychWard.Net

open Clock Traced

/-- What the driver can wait for: the reply to an echo request by its number, the time by the second
in which it was asked for. -/
inductive Wait
  | gateway
  | echo (number : ℕ)
  | time (t1 : ℕ)
  | name

def NetDriver.waitsFor (n : NetDriver) : Wait → Prop
  | .gateway => n.haveRouterMac = false
  | .echo number => n.pingOutstanding = true ∧ n.pingOutstandingSeq = number
  | .time t1 => n.ntpOutstanding = true ∧ n.ntpT1EpochS = t1
  | .name => n.dnsOutstanding = true

/-- The packet asks for it. -/
inductive Asks (myMac : List UInt8) : Wait → Packet → Prop
  | gateway : Asks myMac .gateway (arpRequest myMac)
  | echo {mac dst : List UInt8} {number : ℕ} (hmac : mac.length = 6) (hdst : dst.length = 4)
      (hpos : 0 < number) (hlt : number < 2 ^ 16) :
      Asks myMac (.echo number) (pingRequest myMac mac dst number)
  | time {mac : List UInt8} (hmac : mac.length = 6) (timeMs : ℕ) :
      Asks myMac (.time (timeMs / 1000)) (ntpRequest myMac mac timeMs)
  | name {mac domain : List UInt8} (hmac : mac.length = 6) (hdomain : domain.length < textSize) :
      Asks myMac .name (dnsQuery myMac mac domain)

/-- The bytes of a packet behind its IP header of 20 bytes. -/
def transportBytes (p : Packet) : List UInt8 := p.bytes.drop (virtioNetHdr + ethPayload + 20)

/-- The frame in the buffer at `base` is what a host answers to the packet: the owner of the address
an ARP reply, the target of a ping the message that it has received under the type of a reply, and a
server, from the port that was asked, a time or a record under the identifier of the query. -/
def Answers (p : Packet) (mem : Window) (base : ℕ) : Wait → Prop
  | .gateway => IsArpReply mem base
  | .echo _ => IsIp mem base 1 ∧ mem (transportOf mem base) = 0 ∧
      Memory.Stands mem (transportOf mem base + 4) ((transportBytes p).drop 4)
  | .time _ => IsUdpFrom mem base (wordAt (transportBytes p) 2) ∧
      (ntpPacketOf mem base).accepted = true
  | .name => ∃ r : DnsResponse, r.WellFormed ∧ r.IsAddress ∧
      IsUdpFrom mem base (wordAt (transportBytes p) 2) ∧
        Memory.Stands mem (transportOf mem base + udpHeader)
          (((transportBytes p).drop 8).take 2 ++ r.bytes.drop 2) ∧
        transportOf mem base + udpHeader + r.bytes.length ≤ base + rxBufferLen

/-- The series of pings goes on: the next one is due in a second, or it was the last one and the
mailbox is cleared. -/
def SeriesGoesOn (timeMs : ℕ) (n n' : NetDriver) : Prop :=
  n'.pingSeriesRemaining = n.pingSeriesRemaining ∧
    if 0 < n.pingSeriesRemaining then
      n'.pingNextSendMs = (timeMs + 1000) % 2 ^ 64 ∧ n'.mailbox = n.mailbox
    else n'.mailbox = 0

/-- The driver has what it waited for. -/
def Learns (mem : Window) (base timeMs : ℕ) (n n' : NetDriver) : Wait → Prop
  | .gateway => n'.gateway = some ((bytes (payloadOf base + 8) 6).val mem)
  | .echo _ => n'.pingStats.replyCount = (n.pingStats.replyCount + 1) % 2 ^ 32 ∧
      SeriesGoesOn timeMs n n'
  | .time t1 => n'.ntpSynced = true ∧ n'.setOffsets =
      n.setOffsets ++ [toWord (NtpClient.offsetS t1 (timeMs / 1000) (ntpPacketOf mem base))]
  | .name => ∃ r : DnsResponse, CarriesResponse mem base r ∧ r.IsAddress ∧
      unpackIpv4 n'.dnsAddress = r.rdata ∧ n'.mailbox = 0

/-! ## Questions -/

/-- What the driver waits for is old, or one of the packets asks for it. -/
def AsksAnew (myMac : List UInt8) (ps : List Packet) (n n' : NetDriver) : Prop :=
  ∀ w, n'.waitsFor w → n.waitsFor w ∨ ∃ p ∈ ps, Asks myMac w p

namespace AsksAnew

variable {myMac : List UInt8} {ps : List Packet} {n n' n₁ : NetDriver}

/-- Nothing is waited for that was not before. -/
theorem of_imp (hmac : n'.haveRouterMac = false → n.haveRouterMac = false)
    (hping : n'.pingOutstanding = true →
      n.pingOutstanding = true ∧ n'.pingOutstandingSeq = n.pingOutstandingSeq)
    (hntp : n'.ntpOutstanding = true →
      n.ntpOutstanding = true ∧ n'.ntpT1EpochS = n.ntpT1EpochS)
    (hdns : n'.dnsOutstanding = true → n.dnsOutstanding = true) : AsksAnew myMac ps n n' := by
  intro w hw
  cases w with
  | gateway => exact .inl (hmac hw)
  | echo number =>
    obtain ⟨hout, hseq⟩ := hping hw.1
    exact .inl ⟨hout, hseq.symm.trans hw.2⟩
  | time t1 =>
    obtain ⟨hout, ht1⟩ := hntp hw.1
    exact .inl ⟨hout, ht1.symm.trans hw.2⟩
  | name => exact .inl (hdns hw)

theorem refl (n : NetDriver) : AsksAnew myMac ps n n :=
  .of_imp id (fun h => ⟨h, rfl⟩) (fun h => ⟨h, rfl⟩) id

theorem ite {c : Prop} [Decidable c] {ps' : List Packet} (h : c → AsksAnew myMac ps n n')
    (h' : ¬ c → AsksAnew myMac ps' n n₁) :
    AsksAnew myMac (if c then ps else ps') n (if c then n' else n₁) := by
  split
  · exact h ‹_›
  · exact h' ‹_›

/-- What is asked is asked from any state that waits for as much. -/
theorem from_more (h : AsksAnew myMac ps n₁ n') (hmore : AsksAnew myMac [] n n₁) :
    AsksAnew myMac ps n n' := by
  intro w hw
  rcases h w hw with hold | hnew
  · rcases hmore w hold with hold | ⟨p, hp, -⟩
    · exact .inl hold
    · exact absurd hp List.not_mem_nil
  · exact .inr hnew

/-- What is asked is asked from any state that waits for less. -/
theorem of_less (h : AsksAnew myMac ps n₁ n')
    (hping : n₁.pingOutstanding = true →
      n.pingOutstanding = true ∧ n₁.pingOutstandingSeq = n.pingOutstandingSeq)
    (hclient : n₁.haveRouterMac = n.haveRouterMac ∧ n₁.ntpOutstanding = n.ntpOutstanding ∧
      n₁.ntpT1EpochS = n.ntpT1EpochS)
    (hdns : n₁.dnsOutstanding = n.dnsOutstanding) : AsksAnew myMac ps n n' :=
  h.from_more (.of_imp (fun h => hclient.1 ▸ h) hping (fun h => ⟨hclient.2.1 ▸ h, hclient.2.2⟩)
    fun h => hdns ▸ h)

/-- A ping waits for the reply under its number. -/
theorem checkPingSend {target : List UInt8} (hrouter : n.routerMac.length = 6)
    (htarget : target.length = 4) (timeMs : ℕ) :
    AsksAnew myMac (checkPingSendPackets myMac n target timeMs) n (n.checkPingSend timeMs) := by
  rw [checkPingSendPackets, NetDriver.checkPingSend]
  refine .ite (fun _ => .refl n) fun _ => .ite (fun _ => ?_) fun _ => .refl n
  rw [sendNextPingPackets, NetDriver.sendNextPing]
  refine .ite (fun _ => .refl _) fun _ w hw => ?_
  obtain ⟨hpos, hlt⟩ := sendPing_seq n
  cases w with
  | gateway | time | name => exact .inl hw
  | echo number =>
    obtain rfl : n.sendPing.pingOutstandingSeq = number := hw.2
    exact .inr ⟨_, List.mem_singleton.mpr rfl, .echo hrouter htarget hpos hlt⟩

theorem startPingSeries {target : List UInt8} (hrouter : n.routerMac.length = 6)
    (htarget : target.length = 4) (count timeMs : ℕ) :
    AsksAnew myMac (startPingSeriesPackets myMac n target count timeMs) n
      (n.startPingSeries count timeMs) := by
  have h : AsksAnew myMac _ _ _ := checkPingSend (n := { n with
    pingSeriesRemaining := clampPings count
    pingOutstanding := false
    pingNextSendMs := 0 }) hrouter htarget timeMs
  exact h.of_less (fun hout => nomatch hout) ⟨rfl, rfl, rfl⟩ rfl

/-- A job that is carried out asks for what it makes the driver wait for. -/
theorem startJob {j : Job} (hrouter : n.routerMac.length = 6) (hj : j.Valid) (timeMs : ℕ) :
    AsksAnew myMac (jobPackets myMac n timeMs j) n (startJob n timeMs j) := by
  cases j with
  | ping ip count => exact startPingSeries hrouter hj count timeMs
  | send ip port text => exact of_imp id (fun h => ⟨h, rfl⟩) (fun h => ⟨h, rfl⟩) id
  | resolve domain =>
    intro w hw
    cases w with
    | gateway | echo | time => exact .inl hw
    | name => exact .inr ⟨_, List.mem_singleton.mpr rfl, .name hrouter hj⟩
  | ntp =>
    intro w hw
    cases w with
    | gateway | echo | name => exact .inl hw
    | time =>
      obtain rfl : timeMs / 1000 = _ := hw.2
      exact .inr ⟨_, List.mem_singleton.mpr rfl, .time hrouter timeMs⟩

theorem launchPending {a : Arguments} (hrouter : n.routerMac.length = 6) (ha : a.Valid)
    (timeMs : ℕ) :
    AsksAnew myMac (launchPendingPackets myMac n a timeMs) n (launchPending n timeMs) := by
  rw [launchPendingPackets_eq, launchPending_eq n a]
  cases hj : pendingJob n a with
  | none => exact .refl n
  | some j =>
    have h : AsksAnew myMac _ _ _ := startJob (n := { n with pendingCmd := .none }) hrouter
      (ha.pendingJob hj) timeMs
    cases j with
    | ping | send | resolve | ntp =>
      exact h.of_less (fun hout => ⟨hout, rfl⟩) ⟨rfl, rfl, rfl⟩ rfl

theorem checkNtpResync (hrouter : n.haveRouterMac = true → n.routerMac.length = 6)
    (timeMs uptimeMs : ℕ) :
    AsksAnew myMac (checkNtpResyncPackets myMac n timeMs uptimeMs) n
      (n.checkNtpResync timeMs uptimeMs) := by
  rw [checkNtpResyncPackets, NetDriver.checkNtpResync]
  refine .ite (fun _ => .refl n) fun _ => .ite (fun _ => .refl n) fun _ =>
    .ite (fun hmac w hw => ?_) fun _ => of_imp id (fun h => ⟨h, rfl⟩) (fun h => ⟨h, rfl⟩) id
  cases w with
  | gateway | echo | name => exact .inl hw
  | time =>
    obtain rfl : timeMs / 1000 = _ := hw.2
    exact .inr ⟨_, List.mem_singleton.mpr rfl, .time (hrouter hmac) timeMs⟩

theorem handleCommand (hrouter : n.haveRouterMac = true → n.routerMac.length = 6) (a : Arguments)
    (length : ℕ) (regs : Registers) (msg : ℤ → UInt8) (timeMs : ℕ) :
    AsksAnew myMac (handleCommandPackets myMac n a length regs msg timeMs) n
      (n.handleCommand ⟨length, netCommand (regs 0), regs 2⟩ timeMs) := by
  rw [handleCommandPackets, NetDriver.handleCommand]
  refine .ite (fun _ => .refl n) fun _ => ?_
  have hsame : ∀ {ps : List Packet} {n' : NetDriver}, n'.haveRouterMac = n.haveRouterMac →
      n'.pingOutstanding = n.pingOutstanding → n'.pingOutstandingSeq = n.pingOutstandingSeq →
        n'.toNtpClient = { n.toNtpClient with
          pendingCmd := n'.pendingCmd, mailbox := n'.mailbox } →
          n'.dnsOutstanding = n.dnsOutstanding → AsksAnew myMac ps n n' := fun h₁ h₂ h₃ h₄ h₅ =>
    of_imp (fun h => h₁ ▸ h) (fun h => ⟨h₂ ▸ h, h₃⟩)
      (fun h => ⟨by rw [h₄] at h; exact h, by rw [h₄]⟩) fun h => h₅ ▸ h
  cases netCommand (regs 0) with
  | ping =>
    simp only [true_and, reduceCtorEq, false_and, if_false]
    refine .ite (fun _ => .ite (fun hmac => ?_) fun _ => hsame rfl rfl rfl rfl rfl) fun _ => .refl n
    exact startPingSeries (hrouter hmac) rfl _ timeMs
  | send =>
    simp only [true_and, reduceCtorEq, false_and, if_false]
    exact .ite (fun _ => .ite (fun _ => hsame rfl rfl rfl rfl rfl) fun _ =>
      hsame rfl rfl rfl rfl rfl) fun _ => .refl n
  | resolve =>
    simp only [reduceCtorEq, false_and, if_false, if_true]
    refine .ite (fun hmac => ?_) fun _ => hsame rfl rfl rfl rfl rfl
    exact startJob (j := .resolve _) (hrouter hmac) (length_textOf_commandText _ _ _) timeMs
  | ntp =>
    simp only [reduceCtorEq, false_and, if_false, if_true]
    refine .ite (fun _ => hsame rfl rfl rfl rfl rfl) fun _ => .ite (fun hmac => ?_) fun _ =>
      hsame rfl rfl rfl rfl rfl
    exact startJob (j := .ntp) (hrouter hmac) trivial timeMs
  | none | status | recv => exact hsame rfl rfl rfl rfl rfl

end AsksAnew

namespace Station

variable {s s' : Station} {e : JobEvent} {es : List JobEvent}

/-- No call makes the driver wait for what it has not asked for. -/
theorem Inv.asksAnew (h : s.Inv) (e : JobEvent) :
    AsksAnew s.myMac (s.packets e) s.jobs.net (s.step e).jobs.net := by
  show AsksAnew s.myMac (s.packets e) s.jobs.net (netStep s.jobs.net e.netEvent)
  cases e with
  | frame descId mem timeMs =>
    -- only the ARP reply that is taken sends what was waiting
    by_cases hlearns : LearnsMac s.jobs.net descId mem
    · have hpackets : s.packets (.frame descId mem timeMs) = launchPendingPackets s.myMac
          (learned s.jobs.net mem (rxBufferOffset descId)) s.jobs.args timeMs := if_pos hlearns
      have hlength : (learned s.jobs.net mem (rxBufferOffset descId)).routerMac.length = 6 := by
        show ((bytes _ 6).val mem).length = 6
        rw [val_bytes, Memory.length_bytes]
      have hlaunch : AsksAnew s.myMac _ _ _ := AsksAnew.launchPending hlength h.args timeMs
      rw [hpackets, JobEvent.netEvent, netStep_learns hlearns]
      exact hlaunch.from_more (.of_imp (fun hmac => absurd hmac.symm Bool.false_ne_true)
        (fun h => ⟨h, rfl⟩) (fun h => ⟨h, rfl⟩) id)
    · rcases netStep_frame s.jobs.net descId mem timeMs with ⟨-, hsame⟩ | ⟨hdesc, heffect⟩
      · rw [JobEvent.netEvent, hsame]
        exact .refl _
      · rw [JobEvent.netEvent]
        generalize netStep s.jobs.net (.frame descId mem timeMs) = n' at heffect
        cases heffect with
        | arp harp hmac => exact absurd ⟨hdesc, harp, hmac⟩ hlearns
        | echo rttUs =>
          rw [takeEcho, NetDriver.scheduleNextPing]
          split <;> exact .of_imp id (fun hout => absurd hout Bool.false_ne_true)
            (fun h => ⟨h, rfl⟩) id
        | dns =>
          exact .of_imp id (fun h => ⟨h, rfl⟩) (fun h => ⟨h, rfl⟩)
            (fun hout => absurd hout Bool.false_ne_true)
        | ntp =>
          refine .of_imp (fun hmac => ?_) (fun h => ⟨h, rfl⟩) (fun hout => ?_) id
          · exact (pollNtpReply_haveRouterMac ..).symm.trans hmac
          · exact absurd ((NtpClient.pollNtpReply_outstanding ..).symm.trans hout)
              Bool.false_ne_true
        | datagram => exact .of_imp id (fun h => ⟨h, rfl⟩) (fun h => ⟨h, rfl⟩) id
        | ignored => exact .refl _
  | command length regs msg timeMs =>
    exact AsksAnew.handleCommand h.known s.jobs.args length regs msg timeMs
  | turn => exact .of_imp id (fun h => ⟨h, rfl⟩) (fun h => ⟨h, rfl⟩) id
  | pingTimeout timeMs =>
    show AsksAnew _ _ _ (s.jobs.net.checkPingTimeout timeMs)
    rw [NetDriver.checkPingTimeout, NetDriver.scheduleNextPing]
    split_ifs <;> first
      | exact .refl _
      | exact .of_imp id (fun hout => absurd hout Bool.false_ne_true) (fun h => ⟨h, rfl⟩) id
  | pingSend timeMs =>
    by_cases hseries : s.jobs.net.pingSeriesRemaining = 0
    · have hsame : s.jobs.net.checkPingSend timeMs = s.jobs.net := if_pos (by simp [hseries])
      rw [JobEvent.netEvent, netStep, hsame]
      exact .refl _
    · exact AsksAnew.checkPingSend (h.known (h.series hseries)) h.target timeMs
  | ntpResync timeMs uptimeMs => exact AsksAnew.checkNtpResync h.known timeMs uptimeMs
  | bootTimeout uptimeMs =>
    show AsksAnew _ _ _ (s.jobs.net.checkBootNtpTimeout uptimeMs)
    rw [NetDriver.checkBootNtpTimeout, NetDriver.client, NtpClient.checkBootNtpTimeout]
    split_ifs <;> first
      | exact .refl _
      | exact .of_imp id (fun h => ⟨h, rfl⟩) (fun hout => absurd hout Bool.false_ne_true) id

end Station

/-! ## Answers -/

section
variable {myMac mac dst : List UInt8} {p : Packet}

/-- Behind the header there is the body of the IP packet. -/
theorem transportBytes_eq {packet body : List UInt8} {protocol : UInt8}
    (hframe : IsFrame mac myMac 0x0800 packet p) (hip : IsIpv4 protocol dst body packet) :
    transportBytes p = body := by
  have hhead : (virtioNetHdrBytes ++ (mac ++ (myMac ++ be16Bytes 0x0800))).length =
      virtioNetHdr + ethPayload := by
    rw [List.length_append, List.length_append, List.length_append, hframe.dest, hframe.src]
    rfl
  have hbytes : p.bytes = virtioNetHdrBytes ++ (mac ++ (myMac ++ be16Bytes 0x0800)) ++ packet := by
    rw [hframe.bytes, ethernetFrame, List.append_assoc, List.append_assoc, List.append_assoc]
  rw [transportBytes, ← List.drop_drop, hbytes, List.drop_left' hhead, hip.split]

theorem transportBytes_udpPacket (hmy : myMac.length = 6) (hmac : mac.length = 6)
    (hdst : dst.length = 4) (id srcPort dstPort : ℕ) {data : List UInt8}
    (hdata : data.length ≤ 512) :
    transportBytes (udpPacket myMac mac id dst srcPort dstPort data) =
      udpSegment srcPort dstPort data :=
  transportBytes_eq (isFrame_udpPacket hmy hmac hdst id srcPort dstPort hdata)
    (isIpv4_udpIpPacket hdst id srcPort dstPort hdata)

end

section
variable {myMac : List UInt8} {p : Packet} {n : NetDriver} {descId timeMs : ℕ} {mem : Window}

/-- An answer to the echo request repeats its identifier and its number. -/
theorem isEchoReply_answer {base number : ℕ} (hmy : myMac.length = 6)
    (hp : Asks myMac (.echo number) p) (h : Answers p mem base (.echo number)) :
    IsEchoReply mem base number := by
  obtain ⟨hip, htype, hcopy⟩ := h
  cases hp with
  | @echo mac dst _ hmac hdst hpos hlt =>
    rw [transportBytes_eq (isFrame_pingRequest hmy hmac hdst number)
      (isIpv4_echoPacket hdst number)] at hcopy
    obtain ⟨c₀, c₁, heq⟩ := icmpMessage_eq number
    have hdrop : (icmpMessage number).drop 4 =
        be16Bytes 0x1337 ++ (be16Bytes number ++ [80, 79, 78, 71]) := by
      rw [heq]
      rfl
    rw [hdrop] at hcopy
    obtain ⟨hid, hrest⟩ := Memory.stands_append.mp hcopy
    obtain ⟨hseq, -⟩ := Memory.stands_append.mp hrest
    exact ⟨hip, htype, val_be16 hid (by decide), val_be16 hseq hlt⟩

/-- An answer to the SNTP request comes from its port. -/
theorem isUdpFrom_answer {base t1 : ℕ} (hmy : myMac.length = 6) (hp : Asks myMac (.time t1) p)
    (h : Answers p mem base (.time t1)) :
    IsUdpFrom mem base 123 ∧ (ntpPacketOf mem base).accepted = true := by
  obtain ⟨hudp, haccepted⟩ := h
  cases hp with
  | @time mac hmac timeMs =>
    have hdata : (ntpFields (timeMs / 1000)).length ≤ 512 := show 48 ≤ 512 by decide
    rw [ntpRequest, transportBytes_udpPacket hmy hmac rfl _ _ _ hdata,
      (isUdp_segment (by decide) (by decide) (by rw [udpHeader]; omega)).dstPort] at hudp
    exact ⟨hudp, haccepted⟩

/-- An answer to the query comes from its port and has its identifier. -/
theorem carriesResponse_answer {base : ℕ} (hmy : myMac.length = 6) (hp : Asks myMac .name p)
    (h : Answers p mem base .name) :
    ∃ r : DnsResponse, r.WellFormed ∧ r.IsAddress ∧ CarriesResponse mem base r := by
  obtain ⟨r, hr, haddr, hudp, hstands, hfits⟩ := h
  refine ⟨r, hr, haddr, ?_⟩
  cases hp with
  | @name mac domain hmac hdomain =>
    have hdata : (dnsFields domain).length ≤ 512 := by
      rw [length_dnsFields, dnsHeader]
      rw [textSize] at hdomain
      omega
    have hsegment : IsUdp 50053 53 (dnsFields domain) (udpSegment 50053 53 (dnsFields domain)) :=
      isUdp_segment (by decide) (by decide) (by rw [udpHeader]; omega)
    rw [dnsQuery, transportBytes_udpPacket hmy hmac rfl _ _ _ hdata] at hudp hstands
    rw [hsegment.dstPort] at hudp
    rw [hsegment.split] at hstands
    have hbytes : (dnsFields domain).take 2 ++ r.bytes.drop 2 = r.bytes :=
      List.take_append_drop 2 r.bytes
    rw [hbytes] at hstands
    exact ⟨hudp, hstands, hfits⟩

theorem takeNtp_ntpSynced {q : NtpPacket} (timeMs : ℕ) (hout : n.ntpOutstanding = true)
    (haccepted : q.accepted = true) : (takeNtp n q timeMs).ntpSynced = true := by
  have hfinish : ∀ c : NtpClient, c.finishBootSync.ntpSynced = c.ntpSynced := by
    intro c
    rw [NtpClient.finishBootSync]
    split <;> rfl
  show (n.toNtpClient.pollNtpReply q timeMs).1.ntpSynced = true
  rw [NtpClient.pollNtpReply, if_neg (by simp [hout]), if_neg (by simp [haccepted])]
  exact hfinish _

theorem scheduleNextPing_goesOn (n : NetDriver) (timeMs : ℕ) :
    SeriesGoesOn timeMs n (n.scheduleNextPing timeMs) := by
  rw [SeriesGoesOn, NetDriver.scheduleNextPing]
  by_cases hmore : 0 < n.pingSeriesRemaining
  · rw [if_pos hmore, if_pos hmore]
    exact ⟨rfl, rfl, rfl⟩
  · rw [if_neg hmore, if_neg hmore]
    exact ⟨rfl, rfl⟩

/-- A reply that is taken is counted, and the series goes on. -/
theorem takeEcho_learns (n : NetDriver) (rttUs timeMs : ℕ) :
    (takeEcho n rttUs timeMs).pingOutstanding = false ∧
      (takeEcho n rttUs timeMs).pingStats.replyCount = (n.pingStats.replyCount + 1) % 2 ^ 32 ∧
        SeriesGoesOn timeMs n (takeEcho n rttUs timeMs) := by
  have hgoesOn : SeriesGoesOn timeMs n (takeEcho n rttUs timeMs) := scheduleNextPing_goesOn _ timeMs
  refine ⟨?_, ?_, hgoesOn⟩
  · rw [takeEcho, NetDriver.scheduleNextPing]
    split <;> rfl
  · rw [takeEcho, NetDriver.scheduleNextPing]
    split <;> rfl

/-- Whatever a host answers to the packet that asks for it ends the wait. -/
theorem ends_of_answer (hmy : myMac.length = 6) {w : Wait} (hw : n.waitsFor w)
    (hp : Asks myMac w p) (hdesc : descId < 4) (h : Answers p mem (rxBufferOffset descId) w) :
    ¬ (netStep n (.frame descId mem timeMs)).waitsFor w ∧
      Learns mem (rxBufferOffset descId) timeMs n (netStep n (.frame descId mem timeMs)) w := by
  -- by what is waited for; each answer passes the checks of its branch
  cases w with
  | gateway =>
    rw [netStep_learns ⟨hdesc, h, hw⟩]
    refine ⟨fun hno => ?_, gateway_learned _ _ _ _⟩
    have hknown := (SameKnowledge.launchPending
      (n := learned n mem (rxBufferOffset descId)) timeMs).haveRouterMac
    exact absurd (hknown.symm.trans hno) Bool.false_ne_true.symm
  | echo number =>
    obtain ⟨hout, rfl⟩ := hw
    obtain ⟨rttUs, hstep⟩ := netStep_echo timeMs hdesc (isEchoReply_answer hmy hp h) hout
    rw [hstep]
    obtain ⟨hidle, hlearns⟩ := takeEcho_learns n rttUs timeMs
    exact ⟨fun hno => Bool.false_ne_true (hidle.symm.trans hno.1), hlearns⟩
  | time t1 =>
    obtain ⟨hout, rfl⟩ := hw
    obtain ⟨hudp, haccepted⟩ := isUdpFrom_answer hmy hp h
    rw [netStep_ntp hdesc hudp hout]
    refine ⟨fun hno => absurd ((NtpClient.pollNtpReply_outstanding ..).symm.trans hno.1)
      Bool.false_ne_true, takeNtp_ntpSynced timeMs hout haccepted, ?_⟩
    have hoffset :=
      n.toNtpClient.pollNtpReply_offset (ntpPacketOf mem (rxBufferOffset descId)) timeMs
    rw [if_pos (by rw [hout, haccepted]; rfl)] at hoffset
    show n.setOffsets ++ (n.toNtpClient.pollNtpReply _ timeMs).2.toList = _
    rw [hoffset]
    rfl
  | name =>
    obtain ⟨r, hr, haddr, hcarries⟩ := carriesResponse_answer hmy hp h
    have hstep : netStep n (.frame descId mem timeMs) = takeDns n r.rdata := by
      rw [netStep, netPoll_response hdesc hr hcarries, if_pos haddr.2.2]
      rfl
    have hword : (takeDns n r.rdata).dnsAddress = packIp r.rdata := by simp only [takeDns]
    rw [hstep]
    refine ⟨Bool.false_ne_true, r, hcarries, haddr, ?_, rfl⟩
    rw [hword, unpackIpv4_packIp haddr.2.2]

end

namespace Station

variable {s : Station} {es : List JobEvent}

/-- What the driver waits for it has asked for. -/
theorem asked_of_run {uptimeMs : ℕ} {myMac : List UInt8} (hmac : myMac.length = 6)
    (h : Run Step (start uptimeMs myMac) es s) :
    ∀ w, s.jobs.net.waitsFor w → ∃ p ∈ s.sent, Asks s.myMac w p := by
  have hrun := h.invariant (I := fun s => s.Inv ∧
      ∀ w, s.jobs.net.waitsFor w → ∃ p ∈ s.sent, Asks s.myMac w p) ?_ ⟨inv_start hmac uptimeMs, ?_⟩
  · exact hrun.2
  · rintro s e _ ⟨hinv, hasked⟩ rfl
    refine ⟨hinv.step e, fun w hw => ?_⟩
    rcases hinv.asksAnew e w hw with hold | ⟨p, hp, hasks⟩
    · obtain ⟨p, hp, hasks⟩ := hasked w hold
      exact ⟨p, List.mem_append_left _ hp, hasks⟩
    · exact ⟨p, List.mem_append_right _ hp, hasks⟩
  · intro w hw
    cases w with
    | gateway => exact ⟨_, List.mem_singleton.mpr rfl, .gateway⟩
    | echo | time => exact absurd hw.1 Bool.false_ne_true
    | name => exact absurd hw Bool.false_ne_true

/-- **Questions and answers.** In every state that the driver reaches, whatever it has received and
whatever it was asked to do, there is for everything that it waits for a packet among those that it
has sent that asks for it, and whenever a host's answer to that packet lies in a receive buffer it
ends the wait. -/
theorem answered_of_run {uptimeMs : ℕ} {myMac : List UInt8} (hmac : myMac.length = 6)
    (h : Run Step (start uptimeMs myMac) es s) {w : Wait} (hw : s.jobs.net.waitsFor w) :
    ∃ p ∈ s.sent, Asks s.myMac w p ∧
      ∀ (descId timeMs : ℕ) (mem : Window), descId < 4 → Answers p mem (rxBufferOffset descId) w →
        ¬ (s.step (.frame descId mem timeMs)).jobs.net.waitsFor w ∧
          Learns mem (rxBufferOffset descId) timeMs s.jobs.net
            (s.step (.frame descId mem timeMs)).jobs.net w := by
  obtain ⟨p, hp, hasks⟩ := asked_of_run hmac h w hw
  exact ⟨p, hp, hasks, fun descId timeMs mem hdesc hanswers =>
    ends_of_answer (inv_of_run hmac h).myMac hw hasks hdesc hanswers⟩

/-- The SNTP request that follows the gateway's answer is awaited. -/
theorem answered_of_run_gatewayAnswers :
    ∃ p ∈ ((start 0 someMac).step gatewayAnswers).sent, Asks someMac (.time 1) p ∧
      ∀ (descId timeMs : ℕ) (mem : Window), descId < 4 →
        Answers p mem (rxBufferOffset descId) (.time 1) →
          ¬ (((start 0 someMac).step gatewayAnswers).step
            (.frame descId mem timeMs)).jobs.net.waitsFor (.time 1) ∧
          Learns mem (rxBufferOffset descId) timeMs ((start 0 someMac).step gatewayAnswers).jobs.net
            (((start 0 someMac).step gatewayAnswers).step (.frame descId mem timeMs)).jobs.net
              (.time 1) := by
  have hnet : ((start 0 someMac).step gatewayAnswers).jobs.net =
      launchPending (learned (.start 0) (arpReplyFrom gatewayIp) (rxBufferOffset 0)) 1000 :=
    netStep_learns learnsMac_gatewayAnswers
  have hw : ((start 0 someMac).step gatewayAnswers).jobs.net.waitsFor (.time 1) := by
    rw [hnet]
    exact ⟨rfl, rfl⟩
  exact answered_of_run rfl (.single rfl : Run Step (start 0 someMac) _ _) hw

end Station

end PsychWard.Net
