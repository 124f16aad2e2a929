import PsychWard.Net.Frames

/-!
# Answers to requests

Four protocols share the receive loop: ARP, DNS, SNTP and ICMP echo. `Solicited` says of a step that
what the driver learned from it, it learned from the answer to a request of its own that was
outstanding. The receive loop checks this for echo replies. Of an ARP reply it does not check the
sender, of an SNTP reply not the source, and of a DNS answer not that a query is outstanding; `Asked`
says of a frame that it is none of these strangers.
-/

namespace PsychWard.Net

open Clock

/-- The step changed what the driver knows only by the answer to an outstanding request. -/
structure Solicited (n : NetDriver) (e : NetEvent) (n' : NetDriver) : Prop where
  routerMac : n'.routerMac ≠ n.routerMac → ∃ descId mem timeMs, e = .frame descId mem timeMs ∧
    descId < 4 ∧ IsArpReply mem (rxBufferOffset descId) ∧
      arpSender mem (rxBufferOffset descId) = gatewayIp ∧ n.arpOutstanding = true
  dnsAddress : n'.dnsAddress ≠ n.dnsAddress → ∃ descId mem timeMs, e = .frame descId mem timeMs ∧
    descId < 4 ∧ (∃ ip, IsDnsAnswer mem (rxBufferOffset descId) ip) ∧ n.dnsOutstanding = true
  clockOffset : n'.setOffsets ≠ n.setOffsets → ∃ descId mem timeMs, e = .frame descId mem timeMs ∧
    descId < 4 ∧ IsUdpFrom mem (rxBufferOffset descId) 123 ∧
      ipSource mem (rxBufferOffset descId) = ntpServerIp ∧ n.ntpOutstanding = true
  pingStats : n'.pingStats ≠ n.pingStats → ∃ descId mem timeMs, e = .frame descId mem timeMs ∧
    descId < 4 ∧ IsEchoReply mem (rxBufferOffset descId) n.pingOutstandingSeq ∧
      n.pingOutstanding = true

/-- The frame in the buffer at `base` is no stranger: an ARP reply that the driver would take comes
from the gateway, a DNS answer while a query is outstanding, an SNTP reply that the driver would
accept from the server. -/
structure FrameAsked (n : NetDriver) (mem : Window) (base : ℕ) : Prop where
  arp : IsArpReply mem base → n.haveRouterMac = false → arpSender mem base = gatewayIp
  dns : ∀ ip, IsDnsAnswer mem base ip → n.dnsOutstanding = true
  ntp : IsUdpFrom mem base 123 → n.ntpOutstanding = true →
    (ntpPacketOf mem base).accepted = true → ipSource mem base = ntpServerIp

/-- The condition on a step: a frame that the driver takes in is one it asked for. -/
def Asked (n : NetDriver) : NetEvent → Prop
  | .frame descId mem _ => descId < 4 → FrameAsked n mem (rxBufferOffset descId)
  | _ => True

/-! ## What the driver's own functions leave alone -/

/-- Nothing was learned. -/
structure SameKnowledge (n n' : NetDriver) : Prop where
  routerMac : n'.routerMac = n.routerMac
  dnsAddress : n'.dnsAddress = n.dnsAddress
  setOffsets : n'.setOffsets = n.setOffsets
  pingStats : n'.pingStats = n.pingStats
  haveRouterMac : n'.haveRouterMac = n.haveRouterMac
  arpOutstanding : n.arpOutstanding = true → n'.arpOutstanding = true

namespace SameKnowledge

variable {n n' n'' : NetDriver}

/-- Nothing changed. -/
theorem refl (n : NetDriver) : SameKnowledge n n := ⟨rfl, rfl, rfl, rfl, rfl, id⟩

/-- Two steps that learn nothing make one. -/
theorem trans (h : SameKnowledge n n') (h' : SameKnowledge n' n'') : SameKnowledge n n'' where
  routerMac := h'.routerMac.trans h.routerMac
  dnsAddress := h'.dnsAddress.trans h.dnsAddress
  setOffsets := h'.setOffsets.trans h.setOffsets
  pingStats := h'.pingStats.trans h.pingStats
  haveRouterMac := h'.haveRouterMac.trans h.haveRouterMac
  arpOutstanding hout := h'.arpOutstanding (h.arpOutstanding hout)

/-- A change of the clock client alone learns nothing, if it leaves the router alone. -/
theorem client {f : NtpClient → NtpClient}
    (h : (f n.toNtpClient).haveRouterMac = n.haveRouterMac) : SameKnowledge n (n.client f) :=
  ⟨rfl, rfl, rfl, rfl, h, id⟩

/-- The next send of a series learns nothing. -/
theorem scheduleNextPing (timeMs : ℕ) : SameKnowledge n (n.scheduleNextPing timeMs) := by
  rw [NetDriver.scheduleNextPing]
  split <;> exact ⟨rfl, rfl, rfl, rfl, rfl, id⟩

/-- Sending a ping learns nothing. -/
theorem sendNextPing : SameKnowledge n n.sendNextPing := by
  rw [NetDriver.sendNextPing]
  split
  · exact .refl n
  · exact ⟨rfl, rfl, rfl, rfl, rfl, id⟩

/-- Nor does the check of the next send. -/
theorem checkPingSend (timeMs : ℕ) : SameKnowledge n (n.checkPingSend timeMs) := by
  rw [NetDriver.checkPingSend]
  split
  · exact .refl n
  · split
    · refine trans ?_ sendNextPing
      exact ⟨rfl, rfl, rfl, rfl, rfl, id⟩
    · exact .refl n

/-- Nor does the start of a series. -/
theorem startPingSeries (count timeMs : ℕ) :
    SameKnowledge n (n.startPingSeries count timeMs) := by
  rw [NetDriver.startPingSeries]
  refine trans ?_ (checkPingSend timeMs)
  exact ⟨rfl, rfl, rfl, rfl, rfl, id⟩

/-- A timeout learns nothing: it only gives up. -/
theorem checkPingTimeout (timeMs : ℕ) : SameKnowledge n (n.checkPingTimeout timeMs) := by
  rw [NetDriver.checkPingTimeout]
  split
  · exact .refl n
  · split
    · exact .refl n
    · refine trans ?_ (scheduleNextPing timeMs)
      exact ⟨rfl, rfl, rfl, rfl, rfl, id⟩

/-- What waited for the router learns nothing when it is sent. -/
theorem launchPending (timeMs : ℕ) : SameKnowledge n (launchPending n timeMs) := by
  rw [Net.launchPending]
  split
  · exact ⟨rfl, rfl, rfl, rfl, rfl, id⟩
  · refine trans ?_ (startPingSeries _ timeMs)
    exact ⟨rfl, rfl, rfl, rfl, rfl, id⟩
  · exact ⟨rfl, rfl, rfl, rfl, rfl, id⟩
  · exact ⟨rfl, rfl, rfl, rfl, rfl, id⟩
  · exact .refl n

/-- A periodic request learns nothing. -/
theorem checkNtpResync (timeMs uptimeMs : ℕ) :
    SameKnowledge n (n.checkNtpResync timeMs uptimeMs) := by
  rw [NetDriver.checkNtpResync]
  split
  · exact .refl n
  · split
    · exact .refl n
    · split
      · exact ⟨rfl, rfl, rfl, rfl, rfl, id⟩
      · exact ⟨rfl, rfl, rfl, rfl, rfl, fun _ => rfl⟩

/-- The end of the wait at boot learns nothing. -/
theorem checkBootNtpTimeout (uptimeMs : ℕ) :
    SameKnowledge n (n.checkBootNtpTimeout uptimeMs) := by
  apply client
  rw [NtpClient.checkBootNtpTimeout]
  split
  · rfl
  · split <;> rfl

/-- A command learns nothing from the network; an ARP request may go out. -/
theorem handleCommand (m : NetMessage) (timeMs : ℕ) :
    SameKnowledge n (n.handleCommand m timeMs) := by
  have heffect := handleCommand_effect n m timeMs
  generalize n.handleCommand m timeMs = n' at heffect ⊢
  cases heffect with
  | ping => exact startPingSeries _ timeMs
  | asks => exact ⟨rfl, rfl, rfl, rfl, rfl, fun _ => rfl⟩
  | answered | dns | ntp => exact ⟨rfl, rfl, rfl, rfl, rfl, id⟩
  | ignored => exact .refl n

/-- A step by which nothing was learned is solicited. -/
theorem solicited (h : SameKnowledge n n') (e : NetEvent) : Solicited n e n' where
  routerMac hne := absurd h.routerMac hne
  dnsAddress hne := absurd h.dnsAddress hne
  clockOffset hne := absurd h.setOffsets hne
  pingStats hne := absurd h.pingStats hne

end SameKnowledge

/-! ## What a reply changes -/

section
variable {n : NetDriver} {timeMs : ℕ}

/-- A counted echo reply changes the statistics only. -/
theorem takeEcho_same (rttUs : ℕ) : SameKnowledge
    (NetDriver.recordPingRtt { n with pingOutstanding := false } rttUs)
    (takeEcho n rttUs timeMs) :=
  .scheduleNextPing timeMs

/-- The end of the synchronisation at boot keeps the router. -/
theorem finishBootSync_haveRouterMac (c : NtpClient) :
    c.finishBootSync.haveRouterMac = c.haveRouterMac := by
  rw [NtpClient.finishBootSync]
  split <;> rfl

/-- An NTP reply keeps the router. -/
theorem pollNtpReply_haveRouterMac (c : NtpClient) (p : NtpPacket) :
    (c.pollNtpReply p timeMs).1.haveRouterMac = c.haveRouterMac := by
  rw [NtpClient.pollNtpReply]
  split
  · rfl
  · split <;> exact finishBootSync_haveRouterMac _

/-- A packet that the driver does not accept sets no clock. -/
theorem takeNtp_setOffsets {p : NtpPacket} (h : (takeNtp n p timeMs).setOffsets ≠ n.setOffsets) :
    p.accepted = true := by
  by_contra hacc
  apply h
  have hnone : (n.toNtpClient.pollNtpReply p timeMs).2 = none := by
    rw [NtpClient.pollNtpReply_offset, if_neg]
    simp [hacc]
  simp [takeNtp, hnone]

end

/-- The invariant: as long as the driver has no address it asked for one and got no answer. -/
def ArpAsked (n : NetDriver) : Prop := n.haveRouterMac = false → n.arpOutstanding = true

/-- That the router was asked for stays so where nothing is learnt. -/
theorem ArpAsked.of_same {n n' : NetDriver} (h : ArpAsked n) (hs : SameKnowledge n n') :
    ArpAsked n' := fun hmac => hs.arpOutstanding (h (hs.haveRouterMac ▸ hmac))

/-- A call of the main loop that receives nothing teaches the driver nothing. -/
theorem netStep_same (n : NetDriver) {e : NetEvent} (h : ∀ descId mem t, e ≠ .frame descId mem t) :
    SameKnowledge n (netStep n e) := by
  cases e with
  | frame descId mem t => exact absurd rfl (h descId mem t)
  | command m t => exact .handleCommand m t
  | turn => exact ⟨rfl, rfl, rfl, rfl, rfl, id⟩
  | pingTimeout t => exact .checkPingTimeout t
  | pingSend t => exact .checkPingSend t
  | ntpResync t u => exact .checkNtpResync t u
  | bootTimeout u => exact .checkBootNtpTimeout u

/-- What a frame that is no stranger teaches the driver is the answer to a request. -/
theorem FrameEffect.solicited {n n' : NetDriver} {mem : Window} {descId timeMs : ℕ}
    (hdesc : descId < 4) (h : FrameEffect mem (rxBufferOffset descId) n timeMs n')
    (hn : ArpAsked n) (hasked : FrameAsked n mem (rxBufferOffset descId)) :
    Solicited n (.frame descId mem timeMs) n' ∧ ArpAsked n' := by
  -- one case for each branch of the receive loop, and for each the one thing it can teach
  cases h with
  | arp h hmac =>
    have hsame := SameKnowledge.launchPending (n := { n with
      routerMac := (bytes (payloadOf (rxBufferOffset descId) + 8) 6).val mem
      haveRouterMac := true
      arpOutstanding := false }) timeMs
    refine ⟨⟨?_, ?_, ?_, ?_⟩, ?_⟩
    · intro _
      exact ⟨descId, mem, timeMs, rfl, hdesc, h, hasked.arp h hmac, hn hmac⟩
    · intro hne
      exact absurd hsame.dnsAddress hne
    · intro hne
      exact absurd hsame.setOffsets hne
    · intro hne
      exact absurd hsame.pingStats hne
    · intro hmac'
      rw [hsame.haveRouterMac] at hmac'
      cases hmac'
  | echo rttUs h hout =>
    have hsame : SameKnowledge (NetDriver.recordPingRtt { n with pingOutstanding := false } rttUs)
        (takeEcho n rttUs timeMs) := takeEcho_same rttUs
    refine ⟨⟨?_, ?_, ?_, ?_⟩, ?_⟩
    · intro hne
      exact absurd hsame.routerMac hne
    · intro hne
      exact absurd hsame.dnsAddress hne
    · intro hne
      exact absurd hsame.setOffsets hne
    · intro _
      exact ⟨descId, mem, timeMs, rfl, hdesc, h, hout⟩
    · intro hmac
      exact hsame.arpOutstanding (hn (hsame.haveRouterMac ▸ hmac))
  | dns ip h =>
    refine ⟨⟨fun hne => absurd rfl hne, ?_, fun hne => absurd rfl hne, fun hne => absurd rfl hne⟩,
      hn⟩
    intro _
    exact ⟨descId, mem, timeMs, rfl, hdesc, ⟨ip, h⟩, hasked.dns ip h⟩
  | ntp h hout =>
    refine ⟨⟨fun hne => absurd rfl hne, fun hne => absurd rfl hne, ?_, fun hne => absurd rfl hne⟩,
      ?_⟩
    · intro hne
      exact ⟨descId, mem, timeMs, rfl, hdesc, h, hasked.ntp h hout (takeNtp_setOffsets hne), hout⟩
    · intro hmac
      exact hn ((pollNtpReply_haveRouterMac ..).symm.trans hmac)
  | datagram =>
    refine ⟨SameKnowledge.solicited ?_ _, hn⟩
    exact ⟨rfl, rfl, rfl, rfl, rfl, id⟩
  | ignored => exact ⟨(SameKnowledge.refl n).solicited _, hn⟩

/-- One step: what it learns was asked for, and an unknown router has been asked for still. -/
theorem netStep_solicited {n : NetDriver} {e : NetEvent} (hn : ArpAsked n) (h : Asked n e) :
    Solicited n e (netStep n e) ∧ ArpAsked (netStep n e) := by
  by_cases hframe : ∃ descId mem t, e = .frame descId mem t
  · obtain ⟨descId, mem, t, rfl⟩ := hframe
    rcases netStep_frame n descId mem t with ⟨-, hsame⟩ | ⟨hdesc, heffect⟩
    · rw [hsame]
      exact ⟨(SameKnowledge.refl n).solicited _, hn⟩
    · exact heffect.solicited hdesc hn (h hdesc)
  · have hsame := netStep_same n fun descId mem t he => hframe ⟨descId, mem, t, he⟩
    exact ⟨hsame.solicited e, hn.of_same hsame⟩

/-- **Only answers are believed.** In every run of the driver in which no frame is a stranger, every
step is solicited. -/
theorem solicited_of_run {u : ℕ} {es : List NetEvent} {e : NetEvent} {n n' : NetDriver}
    (hrun : Run (guarded NetStep Asked) (.start u) es n) (hstep : guarded NetStep Asked n e n') :
    Solicited n e n' := by
  have hn : ArpAsked n := by
    refine hrun.invariant (fun n e n' hn hstep => ?_) fun _ => rfl
    obtain ⟨hasked, rfl⟩ := hstep
    exact (netStep_solicited hn hasked).2
  obtain ⟨hasked, rfl⟩ := hstep
  exact (netStep_solicited hn hasked).1

/-! The gateway, and a stranger in its place. -/

/-- The reply of the gateway is an ARP frame. -/
theorem arpReply_etherType : etherType (arpReplyFrom gatewayIp) 0x2800 = 0x0806 := by decide +kernel

/-- So it is asked for in every state. -/
theorem arpReply_asked (n : NetDriver) (timeMs : ℕ) :
    Asked n (.frame 0 (arpReplyFrom gatewayIp) timeMs) := by
  have hsender : arpSender (arpReplyFrom gatewayIp) 0x2800 = gatewayIp := by decide +kernel
  have hip : ∀ protocol, ¬ IsIp (arpReplyFrom gatewayIp) 0x2800 protocol := by
    intro protocol hip
    exact absurd (hip.1.symm.trans arpReply_etherType) (by decide)
  intro _
  refine ⟨fun _ _ => hsender, ?_, ?_⟩
  · intro ip hdns
    exact absurd hdns.1.1 (hip 17)
  · intro hntp
    exact absurd hntp.1 (hip 17)

/-- The reply of the time server is asked for in every state that waits for it. -/
theorem ntpReply_asked (n : NetDriver) (timeMs : ℕ) : Asked n (.frame 0 ntpReply timeMs) := by
  have hport : IsUdpFrom ntpReply 0x2800 123 := by decide +kernel
  have hsource : ipSource ntpReply 0x2800 = ntpServerIp := by decide +kernel
  intro _
  refine ⟨fun harp _ => absurd harp hport.1.not_arpReply, ?_, fun _ _ _ => hsource⟩
  intro ip hdns
  exact absurd (hdns.1.2.symm.trans hport.2) (by decide)

/-- The gateway answers, and then the time server: the offset of the clock is set. -/
theorem solicited_of_run_ntpReply :
    let n := netStep (.start 0) (.frame 0 (arpReplyFrom gatewayIp) 0)
    let n' := netStep n (.frame 0 ntpReply 1000)
    Solicited n (.frame 0 ntpReply 1000) n' ∧ n.setOffsets = [] ∧ n'.setOffsets.length = 1 :=
  ⟨solicited_of_run (.single ⟨arpReply_asked _ 0, rfl⟩) ⟨ntpReply_asked _ 1000, rfl⟩,
    by decide +kernel, by decide +kernel⟩

/-- The driver takes its gateway from any host that answers first. -/
theorem not_solicited_stranger : ¬ ∀ (u : ℕ) (es : List NetEvent) (e : NetEvent) (n n' : NetDriver),
    Run NetStep (.start u) es n → NetStep n e n' → Solicited n e n' := by
  intro h
  have hsol := h 0 [] (.frame 0 (arpReplyFrom [10, 0, 2, 99]) 0) _ _ .nil rfl
  obtain ⟨descId, mem, t, he, -, -, hsender, -⟩ := hsol.routerMac (by decide +kernel)
  obtain ⟨rfl, rfl, rfl⟩ := NetEvent.frame.inj he
  exact absurd hsender (by decide +kernel)

end PsychWard.Net
