import PsychWard.Net.Checksum
import PsychWard.Net.DnsAnswer

/-!
# What the driver sends

The frames of `net_send_arp_request`, `net_send_ping`, `net_send_udp`, `net_send_ntp_request` and
`net_send_dns_query`. Each function fills in the packed structures one behind the other from offset
0x280 of the window on, and tells `net_send_packet` how many bytes the device has to take from
there; `Packet` has both. The order in which the fields are filled in does not matter, since nothing
reads them before, except for the checksums.

`IsIpv4`, `IsUdp` and `IsEchoRequest` say what the formats require; the packets meet them.
-/

namespace PsychWard.Net

open Clock

/-- The bytes from offset 0x280 of the window on, and the length that `net_send_packet` is given. -/
structure Packet where
  bytes : List UInt8
  totalLen : ℕ

/-- Where packets are built, and where the mailbox is. -/
def txOffset : ℕ := 0x280
def mailboxOffset : ℕ := 4060

/-! ## The structures -/

/-- `virtio_net_hdr` -/
def virtioNetHdrBytes : List UInt8 := List.replicate virtioNetHdr 0

/-- The address of the driver, in every packet. -/
def localIp : List UInt8 := [10, 0, 2, 15]

def broadcastMac : List UInt8 := List.replicate 6 0xFF

/-- `sizeof(ipv4_header)`, `sizeof(icmp_header)` and `sizeof(arp_ipv4)` -/
def ipv4HeaderLen : ℕ := 20
def icmpHeaderLen : ℕ := 8
def arpLen : ℕ := 28

/-- `ethernet_frame` behind the header of virtio. -/
def ethernetFrame (dest src : List UInt8) (ethertype : ℕ) (payload : List UInt8) : List UInt8 :=
  virtioNetHdrBytes ++ (dest ++ (src ++ (be16Bytes ethertype ++ payload)))

/-- `ipv4_header` with a zero in `check`. -/
def ipv4Fields (totLen id : ℕ) (protocol : UInt8) (daddr : List UInt8) : List UInt8 :=
  [0x45, 0] ++ (be16Bytes totLen ++ (be16Bytes id ++
    ([0, 0, 64, protocol, 0, 0] ++ (localIp ++ daddr))))

def ipv4Header (totLen id : ℕ) (protocol : UInt8) (daddr : List UInt8) : List UInt8 :=
  storeHost16 (ipv4Fields totLen id protocol daddr) 10
    (calculateChecksum (ipv4Fields totLen id protocol daddr))

/-- `udp_header`, without a checksum. -/
def udpHeaderBytes (srcPort dstPort len : ℕ) : List UInt8 :=
  be16Bytes srcPort ++ (be16Bytes dstPort ++ (be16Bytes len ++ [0, 0]))

/-- `icmp_header` of an echo request with a zero in `checksum`, and `PONG`. -/
def icmpFields (seq : ℕ) : List UInt8 :=
  [8, 0, 0, 0] ++ (be16Bytes 0x1337 ++ (be16Bytes seq ++ [80, 79, 78, 71]))

def icmpMessage (seq : ℕ) : List UInt8 :=
  storeHost16 (icmpFields seq) 2 (calculateChecksum (icmpFields seq))

/-- `arp_ipv4` of a request for the gateway. -/
def arpFields (myMac : List UInt8) : List UInt8 :=
  be16Bytes 1 ++ (be16Bytes 0x0800 ++ ([6, 4] ++ (be16Bytes 1 ++ (myMac ++ (localIp ++
    (List.replicate 6 0 ++ gatewayIp))))))

/-- `ntp_packet` of a request at a time in seconds. -/
def ntpFields (ourEpochS : ℕ) : List UInt8 :=
  0x23 :: (List.replicate 39 0 ++ (be32Bytes ((ourEpochS + ntpUnixEpochDelta) % 2 ^ 32) ++
    List.replicate 4 0))

/-- The name in a query as `dns_format_name` leaves it. -/
def queryName (domain : List UInt8) : List UInt8 :=
  let name := dnsFormatName (fun _ => 0) domain
  Memory.bytes name.1 0 name.2

/-- `dns_header`, the name, its type and its class. -/
def dnsFields (domain : List UInt8) : List UInt8 :=
  be16Bytes dnsId ++ (be16Bytes 0x0100 ++ (be16Bytes 1 ++ (be16Bytes 0 ++ (be16Bytes 0 ++
    (be16Bytes 0 ++ (queryName domain ++ (be16Bytes 1 ++ be16Bytes 1)))))))

/-- The IP packet of an echo request. -/
def echoPacket (dstIp : List UInt8) (seq : ℕ) : List UInt8 :=
  ipv4Header (ipv4HeaderLen + icmpHeaderLen + 4) 0x1234 1 dstIp ++ icmpMessage seq

/-- A datagram, and the IP packet that carries it. -/
def udpSegment (srcPort dstPort : ℕ) (data : List UInt8) : List UInt8 :=
  udpHeaderBytes srcPort dstPort (udpHeader + data.length) ++ data

def udpIpPacket (id : ℕ) (dstIp : List UInt8) (srcPort dstPort : ℕ) (data : List UInt8) :
    List UInt8 :=
  ipv4Header (ipv4HeaderLen + (udpHeader + data.length)) id 17 dstIp ++
    udpSegment srcPort dstPort data

/-! ## The packets -/

section
variable (myMac routerMac : List UInt8)

/-- `net_send_arp_request` -/
def arpRequest : Packet where
  bytes := ethernetFrame broadcastMac myMac 0x0806 (arpFields myMac)
  totalLen := virtioNetHdr + ethPayload + arpLen

/-- `net_send_ping` -/
def pingRequest (dstIp : List UInt8) (seq : ℕ) : Packet where
  bytes := ethernetFrame routerMac myMac 0x0800 (echoPacket dstIp seq)
  totalLen := virtioNetHdr + ethPayload + ipv4HeaderLen + icmpHeaderLen + 4

/-- What `net_send_udp`, `net_send_ntp_request` and `net_send_dns_query` have in common. -/
def udpPacket (id : ℕ) (dstIp : List UInt8) (srcPort dstPort : ℕ) (data : List UInt8) : Packet where
  bytes := ethernetFrame routerMac myMac 0x0800 (udpIpPacket id dstIp srcPort dstPort data)
  totalLen := virtioNetHdr + ethPayload + ipv4HeaderLen + (udpHeader + data.length)

/-- `net_send_udp` -/
def udpMessage (dstIp : List UInt8) (dstPort : ℕ) (message : List UInt8) : Packet :=
  udpPacket myMac routerMac 0x7777 dstIp 50000 dstPort message

/-- `net_send_ntp_request` -/
def ntpRequest (timeMs : ℕ) : Packet :=
  udpPacket myMac routerMac 0x4E54 ntpServerIp 50123 123 (ntpFields (timeMs / 1000))

/-- `net_send_dns_query` -/
def dnsQuery (domain : List UInt8) : Packet :=
  udpPacket myMac routerMac 0xABCD [8, 8, 8, 8] 50053 53 (dnsFields domain)

end

/-! ## What the formats require -/

/-- A frame of the length that is told, which ends in front of the mailbox. -/
structure IsFrame (dest src : List UInt8) (ethertype : ℕ) (payload : List UInt8) (p : Packet) :
    Prop where
  bytes : p.bytes = ethernetFrame dest src ethertype payload
  dest : dest.length = 6
  src : src.length = 6
  totalLen : p.totalLen = p.bytes.length
  window : txOffset + p.bytes.length ≤ mailboxOffset

/-- An IPv4 packet without options and fragments. -/
structure IsIpv4 (protocol : UInt8) (dst body packet : List UInt8) : Prop where
  split : packet.drop 20 = body
  version : packet.getD 0 0 = 0x45
  length : wordAt packet 2 = packet.length
  header : 20 ≤ packet.length
  fragment : wordAt packet 6 = 0
  ttl : 0 < packet.getD 8 0
  protocol : packet.getD 9 0 = protocol
  checksum : calculateChecksum (packet.take 20) = 0
  src : (packet.drop 12).take 4 = localIp
  dst : (packet.drop 16).take 4 = dst

/-- A datagram whose length field counts the header and the data. -/
structure IsUdp (srcPort dstPort : ℕ) (data segment : List UInt8) : Prop where
  split : segment.drop 8 = data
  srcPort : wordAt segment 0 = srcPort
  dstPort : wordAt segment 2 = dstPort
  length : wordAt segment 4 = segment.length
  checksum : wordAt segment 6 = 0

/-- An echo request under the driver's identifier. -/
structure IsEchoRequest (number : ℕ) (message : List UInt8) : Prop where
  type : message.take 2 = [8, 0]
  id : wordAt message 4 = 0x1337
  seq : wordAt message 6 = number
  pos : 0 < number
  checksum : calculateChecksum message = 0

/-! ## Checksums -/

theorem calculateChecksum_eq_zero {data : List UInt8}
    (h : (networkWords data).sum ≡ 0 [MOD 2 ^ 16 - 1]) : calculateChecksum data = 0 := by
  rw [calculateChecksum, checksumAcc_eq, foldl_onesAdd_ones_eq (networkWords_lt _) (by decide) h]
  rfl

/-- With the checksum in its field, the words come to zero. -/
theorem calculateChecksum_stored {data : List UInt8} {p : ℕ} (heven : p % 2 = 0)
    (hp : p + 1 < data.length) (h₀ : data.getD p 0 = 0) (h₁ : data.getD (p + 1) 0 = 0) :
    calculateChecksum (storeHost16 data p (calculateChecksum data)) = 0 := by
  have hwords := networkWords_lt data
  have hle : checksumAcc data 0xffff ≤ 2 ^ 16 - 1 := by
    have hlt := foldl_onesAdd_lt (a := 2 ^ 16 - 1) hwords (by decide)
    rw [checksumAcc_eq]
    omega
  have hacc : checksumAcc data 0xffff ≡ 2 ^ 16 - 1 + (networkWords data).sum [MOD 2 ^ 16 - 1] := by
    rw [checksumAcc_eq]
    exact foldl_onesAdd_modEq hwords (by decide)
  refine calculateChecksum_eq_zero ?_
  rw [sum_networkWords_store heven hp h₀ h₁, htons_calculateChecksum, onesNot]
  calc (networkWords data).sum + (2 ^ 16 - 1 - checksumAcc data 0xffff)
      ≡ checksumAcc data 0xffff + (2 ^ 16 - 1 - checksumAcc data 0xffff) [MOD 2 ^ 16 - 1] :=
        (Nat.ModEq.trans (Nat.add_mod_left _ _).symm hacc.symm).add_right _
    _ ≡ 0 [MOD 2 ^ 16 - 1] := by
        rw [Nat.add_sub_cancel' hle]
        rfl

/-! ## Headers -/

section
variable {totLen id number : ℕ} {protocol : UInt8} {daddr : List UInt8}

theorem wordAt_append (pre l : List UInt8) (i : ℕ) :
    wordAt (pre ++ l) (pre.length + i) = wordAt l i := by
  rw [wordAt, wordAt, List.getD_append_right _ _ _ _ (Nat.le_add_right _ _),
    Nat.add_sub_cancel_left,
    Nat.add_assoc, List.getD_append_right _ _ _ _ (Nat.le_add_right _ _), Nat.add_sub_cancel_left]

/-- The bytes of a field, put together again. -/
theorem wordAt_be16Bytes {v : ℕ} (h : v < 2 ^ 16) (l : List UInt8) :
    wordAt (be16Bytes v ++ l) 0 = v := by
  have hhi : (be16Bytes v ++ l).getD 0 0 = UInt8.ofNat (v / 2 ^ 8) := rfl
  have hlo : (be16Bytes v ++ l).getD 1 0 = UInt8.ofNat v := rfl
  rw [wordAt, hhi, hlo, UInt8.toNat_ofNat', UInt8.toNat_ofNat']
  omega

theorem wordAt_zero (l : List UInt8) : wordAt (0 :: 0 :: l) 0 = 0 := by
  rw [wordAt, List.getD_cons_zero, List.getD_cons_succ, List.getD_cons_zero, UInt8.toNat_zero,
    Nat.zero_mul]

/-- The header with its checksum. -/
theorem ipv4Header_eq (totLen id : ℕ) (protocol : UInt8) (daddr : List UInt8) :
    ∃ c₀ c₁, ipv4Header totLen id protocol daddr = [0x45, 0] ++ (be16Bytes totLen ++
      (be16Bytes id ++ ([0, 0, 64, protocol, c₀, c₁] ++ (localIp ++ daddr)))) := ⟨_, _, rfl⟩

theorem length_ipv4Header (h : daddr.length = 4) :
    (ipv4Header totLen id protocol daddr).length = ipv4HeaderLen := by
  obtain ⟨c₀, c₁, heq⟩ := ipv4Header_eq totLen id protocol daddr
  rw [heq]
  show daddr.length + 16 = 20
  rw [h]

theorem calculateChecksum_ipv4Header (h : daddr.length = 4) :
    calculateChecksum (ipv4Header totLen id protocol daddr) = 0 := by
  refine calculateChecksum_stored (by decide) ?_ rfl rfl
  show 11 < daddr.length + 16
  omega

/-- A packet with the header that the driver makes. -/
theorem isIpv4_packet {body : List UInt8} (hdst : daddr.length = 4)
    (hlen : totLen = ipv4HeaderLen + body.length) (hlt : totLen < 2 ^ 16) :
    IsIpv4 protocol daddr body (ipv4Header totLen id protocol daddr ++ body) := by
  have hheader : (ipv4Header totLen id protocol daddr).length = ipv4HeaderLen :=
    length_ipv4Header hdst
  have hsum : calculateChecksum (ipv4Header totLen id protocol daddr) = 0 :=
    calculateChecksum_ipv4Header hdst
  have htake : (ipv4Header totLen id protocol daddr ++ body).take 20 =
      ipv4Header totLen id protocol daddr := List.take_left' hheader
  obtain ⟨c₀, c₁, heq⟩ := ipv4Header_eq totLen id protocol daddr
  refine
    { split := List.drop_left' hheader
      version := by rw [heq]; rfl
      length := ?_
      header := by rw [List.length_append, hheader]; exact Nat.le_add_right _ _
      fragment := ?_
      ttl := by rw [heq]; exact (by decide : (0 : UInt8) < 64)
      protocol := by rw [heq]; rfl
      checksum := by rw [htake, hsum]
      src := by rw [heq]; rfl
      dst := ?_ }
  · rw [List.length_append, hheader, ← hlen, heq, List.append_assoc, List.append_assoc]
    exact (wordAt_append [0x45, 0] _ 0).trans (wordAt_be16Bytes hlt _)
  · rw [heq]
    simp [wordAt, be16Bytes]
  · rw [heq]
    show (daddr ++ body).take 4 = daddr
    exact List.take_left' hdst

/-- A segment with the header that the driver makes. -/
theorem isUdp_segment {srcPort dstPort : ℕ} {data : List UInt8} (hsrc : srcPort < 2 ^ 16)
    (hdst : dstPort < 2 ^ 16) (hlen : udpHeader + data.length < 2 ^ 16) :
    IsUdp srcPort dstPort data (udpSegment srcPort dstPort data) where
  split := rfl
  srcPort := wordAt_be16Bytes hsrc _
  dstPort := (wordAt_append (be16Bytes srcPort) _ 0).trans (wordAt_be16Bytes hdst _)
  length := (wordAt_append (be16Bytes srcPort ++ be16Bytes dstPort) _ 0).trans
    ((wordAt_be16Bytes hlen _).trans (Nat.add_comm _ _))
  checksum := (wordAt_append (be16Bytes srcPort ++ be16Bytes dstPort ++
    be16Bytes (udpHeader + data.length)) _ 0).trans (wordAt_zero _)

/-- The message with its checksum. -/
theorem icmpMessage_eq (number : ℕ) : ∃ c₀ c₁, icmpMessage number =
    [8, 0, c₀, c₁] ++ (be16Bytes 0x1337 ++ (be16Bytes number ++ [80, 79, 78, 71])) := ⟨_, _, rfl⟩

theorem isEchoRequest_icmpMessage (hpos : 0 < number) (hlt : number < 2 ^ 16) :
    IsEchoRequest number (icmpMessage number) := by
  have hsum : calculateChecksum (icmpMessage number) = 0 :=
    calculateChecksum_stored (by decide) (by show 3 < 12; decide) rfl rfl
  obtain ⟨c₀, c₁, heq⟩ := icmpMessage_eq number
  refine ⟨by rw [heq]; rfl, ?_, ?_, hpos, hsum⟩
  · rw [heq]
    exact (wordAt_append [8, 0, c₀, c₁] _ 0).trans (wordAt_be16Bytes (by decide) _)
  · rw [heq]
    exact (wordAt_append [8, 0, c₀, c₁] _ 2).trans
      ((wordAt_append (be16Bytes 0x1337) _ 0).trans (wordAt_be16Bytes hlt _))

end

/-! ## Frames -/

theorem length_ethernetFrame {dest src : List UInt8} (ethertype : ℕ) (payload : List UInt8)
    (hdest : dest.length = 6) (hsrc : src.length = 6) :
    (ethernetFrame dest src ethertype payload).length =
      virtioNetHdr + ethPayload + payload.length := by
  have hhdr : virtioNetHdrBytes.length = virtioNetHdr := rfl
  have htype : (be16Bytes ethertype).length = 2 := rfl
  rw [ethernetFrame, List.length_append, List.length_append, List.length_append, List.length_append,
    hhdr, hdest, hsrc, htype, virtioNetHdr, ethPayload]
  omega

section
variable {myMac routerMac dstIp : List UInt8}

/-- The packets that the driver can make are frames. -/
theorem isFrame_arpRequest (hmy : myMac.length = 6) :
    IsFrame broadcastMac myMac 0x0806 (arpFields myMac) (arpRequest myMac) := by
  have hlen : (arpFields myMac).length = arpLen := by
    show (myMac ++ (localIp ++ (List.replicate 6 0 ++ gatewayIp))).length + 8 = 28
    rw [List.length_append, hmy]
    rfl
  have hbytes := length_ethernetFrame 0x0806 (arpFields myMac)
    (show broadcastMac.length = 6 from rfl) hmy
  rw [hlen] at hbytes
  exact ⟨rfl, rfl, hmy, hbytes.symm, by
    rw [show (arpRequest myMac).bytes.length = _ from hbytes]; decide⟩

theorem isIpv4_echoPacket (hdst : dstIp.length = 4) (number : ℕ) :
    IsIpv4 1 dstIp (icmpMessage number) (echoPacket dstIp number) :=
  isIpv4_packet hdst
    (show ipv4HeaderLen + icmpHeaderLen + 4 = ipv4HeaderLen + (icmpMessage number).length from rfl)
    (by decide)

theorem isFrame_pingRequest (hmy : myMac.length = 6) (hrouter : routerMac.length = 6)
    (hdst : dstIp.length = 4) (number : ℕ) :
    IsFrame routerMac myMac 0x0800 (echoPacket dstIp number)
      (pingRequest myMac routerMac dstIp number) := by
  have hbytes := length_ethernetFrame 0x0800 (echoPacket dstIp number) hrouter hmy
  rw [echoPacket, List.length_append, length_ipv4Header hdst] at hbytes
  refine ⟨rfl, hrouter, hmy, hbytes.symm, ?_⟩
  rw [show (pingRequest myMac routerMac dstIp number).bytes.length = _ from hbytes]
  show 640 + (10 + 14 + (20 + 12)) ≤ 4060
  decide

theorem length_udpSegment (srcPort dstPort : ℕ) (data : List UInt8) :
    (udpSegment srcPort dstPort data).length = udpHeader + data.length := by
  rw [udpSegment, List.length_append]
  rfl

theorem isIpv4_udpIpPacket (hdst : dstIp.length = 4) (id srcPort dstPort : ℕ) {data : List UInt8}
    (hdata : data.length ≤ 512) : IsIpv4 17 dstIp (udpSegment srcPort dstPort data)
      (udpIpPacket id dstIp srcPort dstPort data) := by
  refine isIpv4_packet hdst ?_ (by rw [ipv4HeaderLen, udpHeader]; omega)
  rw [length_udpSegment]

theorem isFrame_udpPacket (hmy : myMac.length = 6) (hrouter : routerMac.length = 6)
    (hdst : dstIp.length = 4) (id srcPort dstPort : ℕ) {data : List UInt8}
    (hdata : data.length ≤ 512) :
    IsFrame routerMac myMac 0x0800 (udpIpPacket id dstIp srcPort dstPort data)
      (udpPacket myMac routerMac id dstIp srcPort dstPort data) := by
  have hbytes := length_ethernetFrame 0x0800 (udpIpPacket id dstIp srcPort dstPort data) hrouter
    hmy
  rw [udpIpPacket, List.length_append, length_ipv4Header hdst, length_udpSegment] at hbytes
  refine ⟨rfl, hrouter, hmy, (Nat.add_assoc _ _ _).trans hbytes.symm, ?_⟩
  rw [show (udpPacket myMac routerMac id dstIp srcPort dstPort data).bytes.length = _ from hbytes]
  show 640 + (10 + 14 + (20 + (8 + data.length))) ≤ 4060
  omega

end

/-- The name of a query is the encoding of the domain. -/
theorem queryName_eq (domain : List UInt8) : queryName domain = nameBytes (domain.splitOn dot) ∧
    (queryName domain).length = domain.length + 2 := by
  obtain ⟨label, labels, hsplit⟩ := List.exists_cons_of_ne_nil (List.splitOn_ne_nil dot domain)
  have htext : domainText (label :: labels) = domain := by
    rw [← hsplit]
    exact List.intercalate_splitOn dot
  have hlen : (nameBytes (label :: labels)).length = domain.length + 2 := by
    rw [length_nameBytes, htext]
  have hwrite := foldl_name (fun l hl => not_mem_of_mem_splitOn (hsplit ▸ hl)) (fun _ => 0) 0
  rw [htext, Nat.zero_add] at hwrite
  have hname : queryName domain = nameBytes (label :: labels) := by
    rw [queryName, dnsFormatName, hwrite]
    exact (Memory.bytes_put hlen.ge).trans (List.take_of_length_le hlen.le)
  rw [hsplit, hname]
  exact ⟨rfl, hlen⟩

theorem length_dnsFields (domain : List UInt8) :
    (dnsFields domain).length = dnsHeader + domain.length + 6 := by
  have hname := (queryName_eq domain).2
  rw [dnsFields]
  generalize queryName domain = name at hname ⊢
  have hlen : (be16Bytes dnsId ++ (be16Bytes 0x0100 ++ (be16Bytes 1 ++ (be16Bytes 0 ++
      (be16Bytes 0 ++ (be16Bytes 0 ++ (name ++ (be16Bytes 1 ++ be16Bytes 1)))))))).length =
        (name ++ (be16Bytes 1 ++ be16Bytes 1)).length + 12 := rfl
  have hend : (be16Bytes 1 ++ be16Bytes 1).length = 4 := rfl
  rw [hlen, List.length_append, hend, hname, dnsHeader]
  omega

end PsychWard.Net
