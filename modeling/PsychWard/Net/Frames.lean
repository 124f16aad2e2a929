import PsychWard.Net.Bounds
import PsychWard.Common.Run

/-!
# What a frame and a turn of the loop can do

`FrameEffect` lists what a received frame does to the driver, one constructor for each protocol, with
what the frame and the driver must have been like. `NetEvent` are the calls that the main loop makes;
their order in a turn of the loop is one of the orders of `NetStep`.
-/

namespace PsychWard.Net

open Clock Traced

/-! ## Kinds of frames -/

section
variable (mem : Window) (base : ℕ)

/-- Where the IP header or the ARP message of the frame starts. -/
def payloadOf : ℕ := base + virtioNetHdr + ethPayload

def etherType : ℕ := (be16 (base + virtioNetHdr + 12)).val mem

def IsArpReply : Prop := etherType mem base = 0x0806 ∧ (be16 (payloadOf base + 6)).val mem = 2

/-- The protocol address of the sender of an ARP message. -/
def arpSender : List UInt8 := (bytes (payloadOf base + 14) 4).val mem

def IsIp (protocol : UInt8) : Prop :=
  etherType mem base = 0x0800 ∧ mem (payloadOf base + 9) = protocol

def ipSource : List UInt8 := (bytes (payloadOf base + 12) 4).val mem

/-- Where the header behind the IP header starts. -/
def transportOf : ℕ := payloadOf base + (headerLength (payloadOf base)).val mem

/-- An echo reply under the driver's identifier. -/
def IsEchoReply (seq : ℕ) : Prop :=
  IsIp mem base 1 ∧ mem (transportOf mem base) = 0 ∧
    (be16 (transportOf mem base + 4)).val mem = 0x1337 ∧
    (be16 (transportOf mem base + 6)).val mem = seq

def IsUdpFrom (port : ℕ) : Prop :=
  IsIp mem base 17 ∧ (be16 (transportOf mem base)).val mem = port

/-- A DNS answer under the driver's identifier that carries the address `ip`. -/
def IsDnsAnswer (ip : List UInt8) : Prop :=
  IsUdpFrom mem base 53 ∧
    (dnsAnswer rxBufferLen (base + rxBufferLen) (transportOf mem base + udpHeader)).val mem =
      some (some ip)

def ntpPacketOf : NtpPacket :=
  (ntpPacket (base + rxBufferLen) (transportOf mem base + udpHeader)).val mem

/-- The driver after it took an SNTP packet for the answer to its request. -/
def takeNtp (n : NetDriver) (p : NtpPacket) (timeMs : ℕ) : NetDriver :=
  { n with
    toNtpClient := (n.toNtpClient.pollNtpReply p timeMs).1
    setOffsets := n.setOffsets ++ (n.toNtpClient.pollNtpReply p timeMs).2.toList }

/-- The driver after the echo reply it waits for. -/
def takeEcho (n : NetDriver) (rttUs timeMs : ℕ) : NetDriver :=
  (NetDriver.recordPingRtt { n with pingOutstanding := false } rttUs).scheduleNextPing timeMs

/-- What a frame does to the driver. -/
inductive FrameEffect (n : NetDriver) (timeMs : ℕ) : NetDriver → Prop
  | arp (h : IsArpReply mem base) (hmac : n.haveRouterMac = false) :
      FrameEffect n timeMs (launchPending
        { n with
          routerMac := (bytes (payloadOf base + 8) 6).val mem
          haveRouterMac := true
          arpOutstanding := false } timeMs)
  | echo (rttUs : ℕ) (h : IsEchoReply mem base n.pingOutstandingSeq)
      (hout : n.pingOutstanding = true) : FrameEffect n timeMs (takeEcho n rttUs timeMs)
  | dns (ip : List UInt8) (h : IsDnsAnswer mem base ip) :
      FrameEffect n timeMs { n with dnsAddress := packIp ip, mailbox := 0, dnsOutstanding := false }
  | ntp (h : IsUdpFrom mem base 123) (hout : n.ntpOutstanding = true) :
      FrameEffect n timeMs (takeNtp n (ntpPacketOf mem base) timeMs)
  | datagram (h : IsIp mem base 17) (data : ℕ → UInt8) (len : ℕ) (srcIp : List UInt8)
      (srcPort : ℕ) : FrameEffect n timeMs { n with
        udpRxData := data, udpRxLen := len, udpRxSrcIp := srcIp, udpRxSrcPort := srcPort,
        udpRxReady := true }
  | ignored (h : IsArpReply mem base → n.haveRouterMac = true) : FrameEffect n timeMs n

end

instance (mem : Window) (base : ℕ) : Decidable (IsArpReply mem base) :=
  inferInstanceAs (Decidable (_ ∧ _))

instance (mem : Window) (base port : ℕ) : Decidable (IsUdpFrom mem base port) :=
  inferInstanceAs (Decidable ((_ ∧ _) ∧ _))

instance (mem : Window) (base seq : ℕ) : Decidable (IsEchoReply mem base seq) :=
  inferInstanceAs (Decidable ((_ ∧ _) ∧ _ ∧ _ ∧ _))

section
variable {mem : Window} {base timeMs : ℕ} {n n' : NetDriver}

theorem IsIp.not_arpReply {protocol : UInt8} (h : IsIp mem base protocol) :
    ¬ IsArpReply mem base := by
  intro harp
  exact absurd (harp.1.symm.trans h.1) (by decide)

/-- A frame of another kind that the driver has no use for. -/
theorem FrameEffect.of_ip {protocol : UInt8} (h : IsIp mem base protocol) :
    FrameEffect mem base n timeMs n :=
  .ignored fun harp => absurd harp h.not_arpReply

theorem receiveArp_effect (htype : etherType mem base = 0x0806)
    (h : (receiveArp (payloadOf base) timeMs n).val mem = n') :
    FrameEffect mem base n timeMs n' := by
  subst h
  rw [receiveArp, val_bind, val_ite]
  split
  · rename_i hreply
    exact .arp ⟨htype, hreply.1⟩ hreply.2
  · rename_i hno
    refine .ignored fun harp => ?_
    by_contra hmac
    exact hno ⟨harp.2, by simpa using hmac⟩

theorem receiveIcmp_effect (hip : IsIp mem base 1)
    (h : (receiveIcmp (payloadOf base) timeMs n).val mem = n') :
    FrameEffect mem base n timeMs n' := by
  subst h
  rw [receiveIcmp, val_bind, val_bind, val_ite]
  split
  · exact .of_ip hip
  · rename_i htype
    rw [val_bind, val_ite]
    split
    · exact .of_ip hip
    · rename_i hid
      simp only [val_bind, val_ite]
      split
      · rename_i hseq
        exact .echo _ ⟨hip, not_not.mp htype, not_not.mp hid, hseq.2⟩ hseq.1
      · exact .of_ip hip

theorem receiveUdp_effect (hip : IsIp mem base 17)
    (h : (receiveUdp rxBufferLen (base + rxBufferLen) (payloadOf base) timeMs n).val mem =
      some n') : FrameEffect mem base n timeMs n' := by
  rw [receiveUdp, val_bind, val_bind, val_ite] at h
  split at h
  · rename_i hport
    rw [receiveDns, val_bind, val_pure, Option.map_eq_some_iff] at h
    obtain ⟨answer, hanswer, rfl⟩ := h
    cases answer with
    | none => exact .of_ip hip
    | some ip => exact .dns ip ⟨⟨hip, hport⟩, hanswer⟩
  · rw [val_ite] at h
    split at h
    · rename_i hport
      rw [val_map] at h
      obtain rfl := Option.some.inj h
      exact .ntp ⟨hip, hport.1⟩ hport.2
    · rw [val_map] at h
      obtain rfl := Option.some.inj h
      exact .datagram hip _ _ _ _

/-- What a frame does is one of the effects. -/
theorem receiveFrame_effect (h : (receiveFrame rxBufferLen base timeMs n).val mem = some n') :
    FrameEffect mem base n timeMs n' := by
  rw [receiveFrame, val_bind, val_ite] at h
  split at h
  · rename_i htype
    rw [val_map] at h
    exact receiveArp_effect htype (Option.some.inj h)
  · rw [val_ite] at h
    split at h
    · rename_i htype
      rw [val_bind, val_ite] at h
      split at h
      · rename_i hprot
        rw [val_map] at h
        exact receiveIcmp_effect ⟨htype, hprot⟩ (Option.some.inj h)
      · rw [val_ite] at h
        split at h
        · rename_i hprot
          exact receiveUdp_effect ⟨htype, hprot⟩ h
        · obtain rfl := Option.some.inj h
          exact .of_ip ⟨htype, rfl⟩
    · rename_i harp _
      obtain rfl := Option.some.inj h
      exact .ignored fun hreply => absurd hreply.1 harp

/-- A datagram is looked at by its source port. -/
theorem receiveFrame_udp {fuel : ℕ} (h : IsIp mem base 17) :
    (receiveFrame fuel base timeMs n).val mem =
      (receiveUdp fuel (base + rxBufferLen) (payloadOf base) timeMs n).val mem := by
  have htype : (be16 (base + virtioNetHdr + 12)).val mem = 0x0800 := h.1
  rw [receiveFrame, val_bind, htype, if_neg (by decide), if_pos rfl, val_bind]
  have hprot : (byte (base + virtioNetHdr + ethPayload + 9)).val mem = 17 := h.2
  rw [hprot, if_neg (by decide), if_pos rfl]
  rfl

theorem receiveFrame_icmp {fuel : ℕ} (h : IsIp mem base 1) :
    (receiveFrame fuel base timeMs n).val mem =
      some ((receiveIcmp (payloadOf base) timeMs n).val mem) := by
  have htype : (be16 (base + virtioNetHdr + 12)).val mem = 0x0800 := h.1
  rw [receiveFrame, val_bind, htype, if_neg (by decide), if_pos rfl, val_bind]
  have hprot : (byte (base + virtioNetHdr + ethPayload + 9)).val mem = 1 := h.2
  rw [hprot, if_pos rfl]
  rfl

/-- The reply to the outstanding request is taken. -/
theorem receiveIcmp_echo (timeMs : ℕ) (h : IsEchoReply mem base n.pingOutstandingSeq)
    (hout : n.pingOutstanding = true) :
    ∃ rttUs, (receiveIcmp (payloadOf base) timeMs n).val mem = takeEcho n rttUs timeMs := by
  obtain ⟨-, htype, hid, hseq⟩ := h
  rw [transportOf] at htype hid hseq
  rw [receiveIcmp, val_bind, val_bind, val_byte, htype, if_neg (by decide), val_bind, hid,
    if_neg (by decide)]
  simp only [val_bind, hseq, hout, and_self, if_true]
  exact ⟨_, rfl⟩

end

/-! ## Commands -/

/-- What a command does to the driver. -/
inductive CommandEffect (n : NetDriver) (m : NetMessage) (timeMs : ℕ) : NetDriver → Prop
  | ping (hcmd : m.cmd = .ping ∧ 3 ≤ m.length) (hmac : n.haveRouterMac = true) :
      CommandEffect n m timeMs (n.startPingSeries (clampPings (m.mr2 % 2 ^ 32)) timeMs)
  | asks (cmd : NetCommand) (count : ℕ) : CommandEffect n m timeMs
      (NetDriver.sendArpRequest { n with pendingPingCount := count, pendingCmd := cmd })
  | answered (ready : Bool) : CommandEffect n m timeMs { n with udpRxReady := ready, mailbox := 0 }
  | dns : CommandEffect n m timeMs n.sendDnsQuery
  | ntp : CommandEffect n m timeMs (n.sendNtpRequest timeMs)
  | ignored : CommandEffect n m timeMs n

section
variable {n n₁ n₂ : NetDriver} {m : NetMessage} {timeMs : ℕ}

theorem CommandEffect.ite {c : Prop} [Decidable c] (h₁ : c → CommandEffect n m timeMs n₁)
    (h₂ : CommandEffect n m timeMs n₂) : CommandEffect n m timeMs (if c then n₁ else n₂) := by
  split
  · rename_i hc
    exact h₁ hc
  · exact h₂

theorem handleCommand_effect (n : NetDriver) (m : NetMessage) (timeMs : ℕ) :
    CommandEffect n m timeMs (n.handleCommand m timeMs) := by
  refine .ite (fun _ => .ignored) (.ite (fun hping => .ite (.ping hping) (.asks _ _)) ?_)
  refine .ite (fun _ => .ite (fun _ => .answered _) (.asks _ n.pendingPingCount)) ?_
  refine .ite (fun _ => .answered _) (.ite (fun _ => .answered _) ?_)
  refine .ite (fun _ => .ite (fun _ => .dns) (.asks _ n.pendingPingCount)) ?_
  exact .ite (fun _ => .ite (fun _ => .answered _)
    (.ite (fun _ => .ntp) (.asks _ n.pendingPingCount))) .ignored

end

/-! ## The calls of the main loop -/

/-- A call that a turn of the main loop makes. -/
inductive NetEvent
  /-- an entry of the used ring, with what lies in the window -/
  | frame (descId : ℕ) (mem : Window) (timeMs : ℕ)
  /-- a message on the driver's endpoint -/
  | command (m : NetMessage) (timeMs : ℕ)
  /-- `g_cpu_loops++` -/
  | turn
  | pingTimeout (timeMs : ℕ)
  | pingSend (timeMs : ℕ)
  | ntpResync (timeMs uptimeMs : ℕ)
  | bootTimeout (uptimeMs : ℕ)

/-- What the call makes of the driver. -/
def netStep (n : NetDriver) : NetEvent → NetDriver
  | .frame descId mem timeMs => ((netPoll rxBufferLen descId timeMs n).val mem).getD n
  | .command m timeMs => n.handleCommand m timeMs
  | .turn => { n with cpuLoops := (n.cpuLoops + 1) % 2 ^ 64 }
  | .pingTimeout timeMs => n.checkPingTimeout timeMs
  | .pingSend timeMs => n.checkPingSend timeMs
  | .ntpResync timeMs uptimeMs => n.checkNtpResync timeMs uptimeMs
  | .bootTimeout uptimeMs => n.checkBootNtpTimeout uptimeMs

def NetStep (n : NetDriver) (e : NetEvent) (n' : NetDriver) : Prop := netStep n e = n'

/-- A frame in the buffer of a descriptor has one of the effects; another descriptor has none. -/
theorem netStep_frame (n : NetDriver) (descId : ℕ) (mem : Window) (timeMs : ℕ) :
    (4 ≤ descId ∧ netStep n (.frame descId mem timeMs) = n) ∨
      (descId < 4 ∧ FrameEffect mem (rxBufferOffset descId) n timeMs
        (netStep n (.frame descId mem timeMs))) := by
  by_cases hdesc : 4 ≤ descId
  · refine .inl ⟨hdesc, ?_⟩
    rw [netStep, netPoll, if_pos hdesc]
    rfl
  · refine .inr ⟨by omega, receiveFrame_effect ?_⟩
    have hsome : (receiveFrame rxBufferLen (rxBufferOffset descId) timeMs n).val mem ≠ none :=
      receiveFrame_ne_none timeMs mem le_rfl
    obtain ⟨n', hn'⟩ := Option.ne_none_iff_exists'.mp hsome
    rw [netStep, netPoll, if_neg hdesc, hn']
    rfl

/-! ## Frames on the wire -/

/-- A window with bytes from `base` on. -/
def windowAt (base : ℕ) (bs : List UInt8) : Window := fun i =>
  if base ≤ i then bs.getD (i - base) 0 else 0

/-- An ARP reply of the host with the protocol address `spa`. -/
def arpReplyFrom (spa : List UInt8) : Window :=
  windowAt 0x2800 (List.replicate 22 0 ++
    [8, 6, 0, 1, 8, 0, 6, 4, 0, 2, 0x52, 0x55, 10, 0, 2, 2] ++ spa)

/-- An SNTP reply of the server, with the Unix epoch in both timestamps. -/
def ntpReply : Window :=
  windowAt 0x2800 (List.replicate 22 0 ++ [8, 0, 0x45, 0, 0, 0, 0, 0, 0, 0, 64, 17, 0, 0] ++
    ntpServerIp ++ [10, 0, 2, 15, 0, 123, 195, 203, 0, 56, 0, 0, 0x24, 1] ++ List.replicate 30 0 ++
      [0x83, 0xAA, 0x7E, 0x80, 0, 0, 0, 0, 0x83, 0xAA, 0x7E, 0x80, 0, 0, 0, 0])

end PsychWard.Net
