import PsychWard.Net.Prints
import PsychWard.Net.Station

/-!
# A text from shell to shell

The way of a text from the command `send` on one machine to `recv` on another: the shell packs it
into message registers, the driver sends it in a datagram, at once or when the ARP reply comes, and
the driver of the other machine keeps it for its shell.

`delivered_of_run` is about the driver that sends, in any run; `Delivers` says of its packet what
every driver makes of it that receives it.
-/

namespace PsychWard.Net

open Clock Traced

/-- The frame of the packet lies in the receive buffer at `base`, behind a header of the device. -/
def Arrives (mem : Window) (base : ℕ) (p : Packet) : Prop :=
  Memory.Stands mem (base + virtioNetHdr) (p.bytes.drop virtioNetHdr)

/-- The driver after a datagram of this driver with the text. -/
def takeText (n : NetDriver) (text : List UInt8) : NetDriver :=
  { n with
    udpRxData := Memory.put n.udpRxData 0 (text ++ [0])
    udpRxLen := text.length
    udpRxSrcIp := localIp
    udpRxSrcPort := 50000
    udpRxReady := true }

/-- Every driver that receives the packet, in whatever state and in whatever buffer, keeps the text
for `recv`, which prints it. -/
def Delivers (p : Packet) (text : List UInt8) : Prop :=
  ∀ (n : NetDriver) (descId : ℕ) (mem : Window) (timeMs : ℕ), descId < 4 →
    Arrives mem (rxBufferOffset descId) p →
      netStep n (.frame descId mem timeMs) = takeText n text ∧ rxText (takeText n text) = text

/-- The packet carries the text to the port of the host, by way of the gateway. -/
structure Carries (myMac mac dstIp : List UInt8) (port : ℕ) (text : List UInt8) (p : Packet) :
    Prop where
  content : ∃ packet segment, IsFrame mac myMac 0x0800 packet p ∧ IsIpv4 17 dstIp segment packet ∧
    IsUdp 50000 port text segment
  delivers : Delivers p text

/-! ## Packets in a receive buffer -/

section
variable {mem : Window} {base : ℕ} {dest src payload : List UInt8} {ethertype : ℕ} {p : Packet}

theorem drop_ethernetFrame : (ethernetFrame dest src ethertype payload).drop virtioNetHdr =
    dest ++ (src ++ (be16Bytes ethertype ++ payload)) := List.drop_left' rfl

/-- The frame has its type, and its payload lies behind the header. -/
theorem Arrives.frame (h : Arrives mem base p) (hp : IsFrame dest src ethertype payload p)
    (htype : ethertype < 2 ^ 16) :
    etherType mem base = ethertype ∧ Memory.Stands mem (payloadOf base) payload := by
  rw [Arrives, hp.bytes, drop_ethernetFrame] at h
  obtain ⟨-, h⟩ := Memory.stands_append.mp h
  obtain ⟨-, h⟩ := Memory.stands_append.mp h
  obtain ⟨htypeBytes, hpayload⟩ := Memory.stands_append.mp h
  rw [hp.dest, hp.src] at htypeBytes hpayload
  exact ⟨val_be16 htypeBytes htype, hpayload⟩

/-- What the driver reads of an IP packet that a driver has sent. -/
structure ArrivedIp (mem : Window) (base : ℕ) (protocol : UInt8) (body : List UInt8) : Prop where
  ip : IsIp mem base protocol
  transport : transportOf mem base = payloadOf base + 20
  source : ipSource mem base = localIp
  body : Memory.Stands mem (transportOf mem base) body

theorem Arrives.ip {totLen id : ℕ} {protocol : UInt8} {daddr body : List UInt8}
    (h : Arrives mem base p)
    (hp : IsFrame dest src 0x0800 (ipv4Header totLen id protocol daddr ++ body) p)
    (hdst : daddr.length = 4) : ArrivedIp mem base protocol body := by
  obtain ⟨htype, hpacket⟩ := h.frame hp (by decide)
  obtain ⟨hheader, hbody⟩ := Memory.stands_append.mp hpacket
  rw [length_ipv4Header hdst] at hbody
  obtain ⟨c₀, c₁, heq⟩ := ipv4Header_eq totLen id protocol daddr
  rw [heq] at hheader
  obtain ⟨hversion, hrest⟩ := Memory.stands_append.mp hheader
  obtain ⟨-, hrest⟩ := Memory.stands_append.mp hrest
  obtain ⟨-, hrest⟩ := Memory.stands_append.mp hrest
  obtain ⟨hfields, hrest⟩ := Memory.stands_append.mp hrest
  obtain ⟨hsource, -⟩ := Memory.stands_append.mp hrest
  have hprotocol : mem (payloadOf base + 9) = protocol := hfields.2.2.2.1
  have htransport : transportOf mem base = payloadOf base + 20 := by
    rw [transportOf, headerLength, val_bind, val_byte, hversion.1]
    rfl
  refine ⟨⟨htype, hprotocol⟩, htransport, ?_, htransport ▸ hbody⟩
  rw [ipSource, val_bytes]
  exact Memory.stands_bytes hsource

/-- What the driver reads of a datagram that a driver has sent. -/
theorem ArrivedIp.udp {srcPort dstPort len : ℕ} {data : List UInt8}
    (h : ArrivedIp mem base 17 (udpHeaderBytes srcPort dstPort len ++ data))
    (hsrc : srcPort < 2 ^ 16) (hlen : len < 2 ^ 16) :
    (be16 (transportOf mem base)).val mem = srcPort ∧
      (be16 (transportOf mem base + 4)).val mem = len ∧
        Memory.Stands mem (transportOf mem base + udpHeader) data := by
  obtain ⟨hheader, hdata⟩ := Memory.stands_append.mp h.body
  obtain ⟨hsrcBytes, hrest⟩ := Memory.stands_append.mp hheader
  obtain ⟨-, hrest⟩ := Memory.stands_append.mp hrest
  obtain ⟨hlenBytes, -⟩ := Memory.stands_append.mp hrest
  exact ⟨val_be16 hsrcBytes hsrc, val_be16 hlenBytes hlen, hdata⟩

end

/-- `recv` prints the text that was kept. -/
theorem rxText_takeText (n : NetDriver) {text : List UInt8} (htext : text.length < textSize)
    (hnul : 0 ∉ text) : rxText (takeText n text) = text := by
  have hfits : (text ++ [0]).length ≤ udpRxSize := by
    rw [List.length_append, List.length_singleton]
    exact (Nat.succ_le_of_lt htext).trans (by decide)
  obtain ⟨k, hk⟩ := Nat.exists_eq_add_of_le hfits
  have hkept : Memory.bytes (takeText n text).udpRxData 0 udpRxSize =
      text ++ [0] ++ Memory.bytes (takeText n text).udpRxData (text ++ [0]).length k := by
    rw [hk, Memory.bytes_add, Nat.zero_add,
      show (takeText n text).udpRxData = Memory.put n.udpRxData 0 (text ++ [0]) from rfl,
      Memory.bytes_put le_rfl, List.take_length]
  have hall : ∀ b ∈ text, decide (b ≠ 0) = true := fun b hb =>
    decide_eq_true fun hb0 => hnul (hb0 ▸ hb)
  rw [rxText, hkept, List.append_assoc, List.takeWhile_append_of_pos hall]
  exact List.append_nil text

/-- A text of the shell arrives as it was sent. -/
theorem delivers_udpMessage {myMac mac dstIp text : List UInt8} {port : ℕ} (hmy : myMac.length = 6)
    (hmac : mac.length = 6) (hdst : dstIp.length = 4) (hport : port < 2 ^ 16)
    (htext : text.length < textSize) (hnul : 0 ∉ text) :
    Carries myMac mac dstIp port text (udpMessage myMac mac dstIp port text) := by
  have hsize : textSize = 64 := rfl
  have hdata : text.length ≤ 512 := by omega
  have hlen : udpHeader + text.length < 2 ^ 16 := by rw [udpHeader]; omega
  have hframe := isFrame_udpPacket hmy hmac hdst 0x7777 50000 port hdata
  refine ⟨⟨_, _, hframe, isIpv4_udpIpPacket hdst _ _ _ hdata, isUdp_segment (by decide) hport hlen⟩,
    fun n descId mem timeMs hdesc harrives => ?_⟩
  obtain ⟨hip, htransport, hsource, hbody⟩ := harrives.ip hframe hdst
  obtain ⟨hsrcPort, hlength, hstands⟩ := ArrivedIp.udp ⟨hip, htransport, hsource, hbody⟩
    (by decide) hlen
  have hplain : IsPlain mem (rxBufferOffset descId) n :=
    ⟨hip, by rw [hsrcPort]; decide, fun h => absurd (hsrcPort.symm.trans h.1) (by decide)⟩
  have hkept : keptLen mem (rxBufferOffset descId) = text.length := by
    rw [keptLen, hlength, htransport, payloadOf, Nat.add_sub_cancel_left]
    show min 255 (min (rxBufferOffset descId + 1536 -
      (rxBufferOffset descId + 10 + 14 + 20 + 8)) _) = _
    omega
  constructor
  · rw [netStep_plain hdesc timeMs hplain, takeDatagram, takeText, hkept, hsource, hsrcPort,
      Memory.stands_bytes hstands]
  · exact rxText_takeText n htext hnul

/-! ## The text of the shell -/

theorem zero_notMem_clippedText (text : List UInt8) : 0 ∉ clippedText text := fun h => by
  have hmem := List.mem_takeWhile_imp ((List.take_sublist _ _).subset h)
  simp at hmem

/-- An array that holds a text and a NUL behind it. -/
theorem textOf_eq {a : ℤ → UInt8} {text : List UInt8} (hlen : text.length < textSize)
    (hnul : 0 ∉ text) (h : ∀ i : ℕ, i ≤ text.length → a i = text.getD i 0) : textOf a = text := by
  obtain ⟨k, hk⟩ := Nat.exists_eq_add_of_lt hlen
  have hall : ∀ b ∈ text, decide (b ≠ 0) = true := fun b hb =>
    decide_eq_true fun hb0 => hnul (hb0 ▸ hb)
  have hfront : (List.range text.length).map (fun i : ℕ => a i) = text := by
    refine List.ext_getElem (by rw [List.length_map, List.length_range]) fun i h1 h2 => ?_
    rw [List.getElem_map, List.getElem_range, h i h2.le, List.getD_eq_getElem _ _ h2]
  have hend : a (text.length : ℕ) = 0 := by
    rw [h _ le_rfl, List.getD_eq_default _ _ le_rfl]
  rw [textOf, hk, Nat.add_assoc, List.range_add, List.map_append, hfront,
    List.takeWhile_append_of_pos hall, List.range_succ_eq_map, List.map_cons, List.map_cons,
    Nat.add_zero, hend, List.takeWhile_cons_of_neg (by simp), List.append_nil]

/-- `NET_CMD_SEND` -/
def netCmdSend : ℕ := 2

/-- The registers hold the message that the shell's `send` sends. -/
def HoldsSend (ip port : ℕ) (text : List UInt8) (length : ℕ) (regs : Registers) : Prop :=
  ∃ old, length = (netSendTextCommand old netCmdSend ip port (some text)).length ∧
    ∀ i < length, regs i = (netSendTextCommand old netCmdSend ip port (some text)).regs i

section
variable {ip port length : ℕ} {text : List UInt8} {regs : Registers}

/-- The driver reads the command with its arguments. -/
theorem HoldsSend.command (h : HoldsSend ip port text length regs) (dst : ℤ → UInt8) :
    netCommand (regs 0) = .send ∧ 4 ≤ length ∧
      textOf (commandText dst length regs) = clippedText text := by
  obtain ⟨old, rfl, hregs⟩ := h
  have hfour : 4 ≤ (netSendTextCommand old netCmdSend ip port (some text)).length :=
    Nat.le_add_right 4 _
  refine ⟨by rw [hregs 0 (by omega)]; rfl, hfour, ?_⟩
  have hlen := length_clippedText text
  refine textOf_eq (hlen.trans_lt (by decide)) (zero_notMem_clippedText text) fun i hi => ?_
  exact commandText_val old netCmdSend ip port (some text) hregs hi

theorem HoldsSend.commandJob (h : HoldsSend ip port text length regs) :
    commandJob length regs = some (.send (sendIp regs) (sendPort regs) (clippedText text)) := by
  obtain ⟨hcmd, hfour, htext⟩ := h.command fun _ => 0
  rw [Net.commandJob, if_neg (by omega), hcmd]
  show (if 4 ≤ length then _ else none) = _
  rw [if_pos hfour, htext]

end

namespace Station

/-- What has become of a text: it waits for the gateway's address, or a packet has been sent that
carries it. -/
inductive Sending (dstIp : List UInt8) (port : ℕ) (text : List UInt8) (s : Station) : Prop
  | waits (unknown : s.jobs.net.gateway = none)
      (waiting : s.jobs.pending = some (.send dstIp port text))
  | sent (mac : List UInt8) (known : s.jobs.net.gateway = some mac) (p : Packet) (mem : p ∈ s.sent)
      (carries : Carries s.myMac mac dstIp port text p)

section
variable {s s' : Station} {e : JobEvent} {es : List JobEvent} {dstIp text : List UInt8} {port : ℕ}

/-- A job that waits is carried out by the ARP reply that is taken. -/
theorem packets_learns {descId timeMs : ℕ} {mem : Window} {j : Job}
    (h : LearnsMac s.jobs.net descId mem) (hj : s.jobs.pending = some j) :
    s.packets (.frame descId mem timeMs) =
      jobPackets s.myMac (learned s.jobs.net mem (rxBufferOffset descId)) timeMs j := by
  have hlearned :
      pendingJob (learned s.jobs.net mem (rxBufferOffset descId)) s.jobs.args = some j := hj
  rw [packets.eq_def]
  show (if LearnsMac s.jobs.net descId mem then _ else _) = _
  rw [if_pos h, launchPendingPackets_eq, hlearned]
  rfl

/-- The ARP reply that is taken makes the address known. -/
theorem gateway_learns {descId : ℕ} {mem : Window} (h : LearnsMac s.jobs.net descId mem)
    (timeMs : ℕ) :
    (s.step (.frame descId mem timeMs)).jobs.net.gateway =
      some ((bytes (payloadOf (rxBufferOffset descId) + 8) 6).val mem) := by
  show (netStep s.jobs.net (.frame descId mem timeMs)).gateway = _
  rw [netStep_learns h, gateway_learned]

theorem gateway_none {n : NetDriver} : n.gateway = none ↔ n.haveRouterMac = false := by
  rw [NetDriver.gateway]
  cases n.haveRouterMac with
  | true => exact iff_of_false (Option.some_ne_none _) (fun h => Bool.false_ne_true h.symm)
  | false => exact iff_of_true rfl rfl

/-- While the address stays unknown and no job is accepted, the job that waits stays, unless it is
the SNTP request. -/
theorem pending_step {j : Job} (hunknown : (s.step e).jobs.net.gateway = none)
    (hnow : s.jobs.acceptedNow e = none) (hmac : s.jobs.net.gateway = none)
    (hj : s.jobs.pending = some j) (hntp : j ≠ .ntp) : (s.step e).jobs.pending = some j := by
  have hknown : s.jobs.net.haveRouterMac = true → s.jobs.pending = none := fun h => by
    rw [gateway_none.mp hmac] at h
    cases h
  cases step_effect hknown e with
  | accepts i haccepts =>
    rw [hnow] at haccepts
    cases haccepts
  | carriesOut _ _ hcarried =>
    have hcarries : s.jobs.carriedOutNow e = some j := by
      have htoList := List.append_cancel_left (hcarried : s.jobs.carriedOut ++ _ = _)
      rw [hj] at htoList
      cases hout : s.jobs.carriedOutNow e with
      | none =>
        rw [hout] at htoList
        cases htoList
      | some i =>
        rw [hout] at htoList
        exact congrArg some (List.singleton_inj.mp htoList)
    -- Only the reply makes the driver carry out a job, and then the address is known.
    cases e with
    | frame descId mem timeMs =>
      obtain ⟨hlearns, -⟩ := Option.ite_none_right_eq_some.mp hcarries
      rw [gateway_learns hlearns] at hunknown
      cases hunknown
    | command | turn | pingTimeout | pingSend | ntpResync | bootTimeout => cases hcarries
  | timesOut _ _ _ _ hwas =>
    rw [hj] at hwas
    exact absurd (Option.some.inj hwas) hntp
  | same _ _ _ _ hpending => exact hpending.trans hj

/-- A packet that carries the text is sent for a job of the shell. -/
theorem Inv.carries (h : s.Inv) {mac : List UInt8} (hmac : mac.length = 6) {regs : Registers}
    (text : List UInt8) : Carries s.myMac mac (sendIp regs) (sendPort regs) (clippedText text)
      (udpMessage s.myMac mac (sendIp regs) (sendPort regs) (clippedText text)) :=
  delivers_udpMessage h.myMac hmac (length_sendIp regs) (sendPort_lt regs)
    ((length_clippedText text).trans_lt (by decide)) (zero_notMem_clippedText text)

variable {regs : Registers}

/-- One call. -/
theorem Sending.step (h : Sending (sendIp regs) (sendPort regs) (clippedText text) s) (hinv : s.Inv)
    (hnow : s.jobs.acceptedNow e = none) :
    Sending (sendIp regs) (sendPort regs) (clippedText text) (s.step e) := by
  cases h with
  | waits hunknown hwaits =>
    rcases netStep_gateway s.jobs.net e.netEvent with hsame | ⟨descId, mem, t, he, hlearns⟩
    · have hunknown' : (s.step e).jobs.net.gateway = none := hsame.trans hunknown
      exact .waits hunknown' (pending_step hunknown' hnow hunknown hwaits fun h => nomatch h)
    · obtain rfl : e = .frame descId mem t := by
        cases e with
        | frame => simpa [JobEvent.netEvent] using he
        | command | turn | pingTimeout | pingSend | ntpResync | bootTimeout => cases he
      refine .sent _ (gateway_learns hlearns t) _ ?_ (hinv.carries ?_ text)
      · refine List.mem_append_right _ ?_
        rw [packets_learns hlearns hwaits]
        exact List.mem_singleton.mpr rfl
      · rw [val_bytes, Memory.length_bytes]
  | sent mac hknown p hp hcarries =>
    exact .sent mac (gateway_step hknown e.netEvent) p (List.mem_append_left _ hp) hcarries

/-- The command itself. -/
theorem sending_command (hinv : s.Inv) {ip portWord length : ℕ}
    (h : HoldsSend ip portWord text length regs) (msg : ℤ → UInt8) (timeMs : ℕ) :
    Sending (sendIp regs) (sendPort regs) (clippedText text)
      (s.step (.command length regs msg timeMs)) := by
  obtain ⟨hcmd, hfour, htext⟩ := h.command msg
  cases hmac : s.jobs.net.haveRouterMac with
  | true =>
    have hknown := gateway_eq hmac
    refine .sent _ (gateway_step hknown _) _ ?_ (hinv.carries (hinv.known hmac) text)
    refine List.mem_append_right _ ?_
    show _ ∈ handleCommandPackets s.myMac s.jobs.net s.jobs.args length regs msg timeMs
    rw [handleCommandPackets, if_neg (by omega), hcmd]
    show _ ∈ if 4 ≤ length then _ else _
    rw [if_pos hfour, if_pos hmac, htext]
    exact List.mem_singleton.mpr rfl
  | false =>
    obtain ⟨hunknown, hpending⟩ := handleCommand_unknown hmac s.jobs.args length regs msg timeMs
    refine .waits (gateway_none.mpr hunknown) (hpending.trans ?_)
    rw [if_neg (fun h => by rw [hcmd] at h; exact absurd h.1 (by decide)), h.commandJob]
    rfl

/-- **The way of a text.** Whatever has happened before, and whatever happens after it but another
job for later: the text of the shell's `send` waits for the gateway's address as long as that is
unknown, and as soon as it is known a packet has been sent that carries the text, to be kept and
printed by the driver that receives it. -/
theorem delivered_of_run {uptimeMs : ℕ} {myMac : List UInt8} {s₀ : Station} {es₀ : List JobEvent}
    (hmac : myMac.length = 6) (h₀ : Run Step (start uptimeMs myMac) es₀ s₀) {ip portWord length : ℕ}
    (hsend : HoldsSend ip portWord text length regs) (msg : ℤ → UInt8) (timeMs : ℕ)
    (h : Run (guarded Step fun s e => s.jobs.acceptedNow e = none)
      (s₀.step (.command length regs msg timeMs)) es s) :
    Sending (sendIp regs) (sendPort regs) (clippedText text) s := by
  have hinv := inv_of_run hmac h₀
  have hrun := h.invariant (I := fun s => s.Inv ∧
      Sending (sendIp regs) (sendPort regs) (clippedText text) s) ?_
    ⟨hinv.step _, sending_command hinv hsend msg timeMs⟩
  · exact hrun.2
  · rintro s e _ ⟨hinv, hsending⟩ ⟨hnow, rfl⟩
    exact ⟨hinv.step e, hsending.step hinv hnow⟩

/-- The message of `send hi`. -/
def sendHi : TextMessage :=
  netSendTextCommand (fun _ => 0) netCmdSend 0x0A000202 8080 (some [104, 105])

/-- It is typed before the gateway has answered. -/
theorem delivered_of_run_sendHi : Sending [10, 0, 2, 2] 8080 [104, 105]
    (((start 0 someMac).step (.command sendHi.length sendHi.regs (fun _ => 0) 0)).step
      gatewayAnswers) := by
  have hsend : HoldsSend 0x0A000202 8080 [104, 105] sendHi.length sendHi.regs :=
    ⟨fun _ => 0, rfl, fun _ _ => rfl⟩
  exact delivered_of_run (rfl : someMac.length = 6) (.nil : Run Step (start 0 someMac) [] _) hsend
    (fun _ => 0) 0 (.single (e := gatewayAnswers) ⟨rfl, rfl⟩)

end

end Station

end PsychWard.Net
