import PsychWard.Net.DnsName
import PsychWard.Net.Frames

/-!
# What a DNS response makes the driver publish

`net_poll` finds the end of the question's name, and from there it goes by distances: over the type
and the class of the question, over the owner, the type, the class and the time to live of the first
record, to the length of its data. Four bytes of data are taken for an address, whatever the type of
the record says. So the driver is right about a response exactly when its first record does not have
four bytes of something else.
-/

namespace PsychWard.Net

open Traced

/-! ## Responses -/

/-- The two bytes of a field, in network byte order. -/
def be16Bytes (v : ℕ) : List UInt8 := [UInt8.ofNat (v / 2 ^ 8), UInt8.ofNat v]

def be32Bytes (v : ℕ) : List UInt8 := be16Bytes (v / 2 ^ 16) ++ be16Bytes v

/-- A response with one question; what follows the first record of the answer is `rest`. -/
structure DnsResponse where
  flags : ℕ
  ansCount : ℕ
  authCount : ℕ
  addCount : ℕ
  qname : List (List UInt8)
  qtype : ℕ
  qclass : ℕ
  owner : ℕ
  type : ℕ
  cls : ℕ
  ttl : ℕ
  rdata : List UInt8
  rest : List UInt8

namespace DnsResponse

variable (r : DnsResponse)

def header : List UInt8 :=
  be16Bytes dnsId ++ be16Bytes r.flags ++ be16Bytes 1 ++ be16Bytes r.ansCount ++
    (be16Bytes r.authCount ++ be16Bytes r.addCount)

def question : List UInt8 := be16Bytes r.qtype ++ be16Bytes r.qclass

/-- The first record up to the length of its data; the owner is a pointer. -/
def recordHeader : List UInt8 :=
  be16Bytes (0xC000 + r.owner) ++ be16Bytes r.type ++ be16Bytes r.cls ++ be32Bytes r.ttl

def bytes : List UInt8 :=
  r.header ++ (nameBytes r.qname ++ (r.question ++ r.recordHeader ++
    (be16Bytes r.rdata.length ++ (r.rdata ++ r.rest))))

/-- The fields are in their ranges, and there is an answer. -/
structure WellFormed : Prop where
  flags : 2 ^ 15 ≤ r.flags ∧ r.flags < 2 ^ 16
  ansCount : 0 < r.ansCount ∧ r.ansCount < 2 ^ 16
  authCount : r.authCount < 2 ^ 16
  addCount : r.addCount < 2 ^ 16
  label : ∀ l ∈ r.qname, IsLabel l
  qname : (nameBytes r.qname).length ≤ 255
  qtype : r.qtype < 2 ^ 16
  qclass : r.qclass < 2 ^ 16
  owner : r.owner < 2 ^ 14
  type : r.type < 2 ^ 16
  cls : r.cls < 2 ^ 16
  ttl : r.ttl < 2 ^ 32
  rdata : r.rdata.length < 2 ^ 16

/-- The first record is an address of the internet. -/
def IsAddress : Prop := r.type = 1 ∧ r.cls = 1 ∧ r.rdata.length = 4

end DnsResponse

/-- The buffer at `base` holds a frame with the response, which ends inside the buffer. -/
structure CarriesResponse (mem : Window) (base : ℕ) (r : DnsResponse) : Prop where
  udp : IsUdpFrom mem base 53
  bytes : Memory.Stands mem (transportOf mem base + udpHeader) r.bytes
  fits : transportOf mem base + udpHeader + r.bytes.length ≤ base + rxBufferLen

/-- `unpack_ipv4`, as the shell unpacks the published word too. -/
def unpackIpv4 (packed : ℕ) : List UInt8 :=
  [UInt8.ofNat (packed / 2 ^ 24), UInt8.ofNat (packed / 2 ^ 16), UInt8.ofNat (packed / 2 ^ 8),
    UInt8.ofNat packed]

/-- The driver after an answer with the address `ip`. -/
def takeDns (n : NetDriver) (ip : List UInt8) : NetDriver :=
  { n with dnsAddress := packIp ip, mailbox := 0, dnsOutstanding := false }

/-- What the response should make of the driver: the address of its first record is published, or
nothing. -/
structure PublishesAddress (r : DnsResponse) (n n' : NetDriver) : Prop where
  address : r.IsAddress → n' = takeDns n r.rdata ∧ unpackIpv4 n'.dnsAddress = r.rdata
  other : ¬ r.IsAddress → n' = n

/-! ## Reading the fields -/

theorem val_be16 {mem : Window} {offset v : ℕ} (h : Memory.Stands mem offset (be16Bytes v))
    (hv : v < 2 ^ 16) : (be16 offset).val mem = v := by
  have hval : (be16 offset).val mem = (mem offset).toNat * 2 ^ 8 + (mem (offset + 1)).toNat := rfl
  have hhi : (UInt8.ofNat (v / 2 ^ 8)).toNat = v / 2 ^ 8 % 2 ^ 8 := rfl
  have hlo : (UInt8.ofNat v).toNat = v % 2 ^ 8 := rfl
  rw [hval, h.1, h.2.1, hhi, hlo]
  omega

/-- The low half of the word is the address. -/
theorem unpackIpv4_packIp {ip : List UInt8} (h : ip.length = 4) : unpackIpv4 (packIp ip) = ip := by
  obtain ⟨a, b, c, d, rfl⟩ : ∃ a b c d, ip = [a, b, c, d] := by
    match ip, h with
    | [a, b, c, d], _ => exact ⟨a, b, c, d, rfl⟩
  have hword : packIp [a, b, c, d] % 2 ^ 32 =
      a.toNat * 2 ^ 24 + b.toNat * 2 ^ 16 + c.toNat * 2 ^ 8 + d.toNat := by
    have ha := a.toNat_lt
    have hb := b.toNat_lt
    have hc := c.toNat_lt
    have hd := d.toNat_lt
    rw [packIp, toWord_toInt32_mod]
    simp only [List.getD_cons_zero, List.getD_cons_succ]
    omega
  have ha := a.toNat_lt
  have hb := b.toNat_lt
  have hc := c.toNat_lt
  have hd := d.toNat_lt
  have hdigit : ∀ (w : ℕ) (x : UInt8), w % 2 ^ 8 = x.toNat → UInt8.ofNat w = x := fun w x hw =>
    UInt8.toNat_inj.mp (UInt8.toNat_ofNat'.trans hw)
  rw [unpackIpv4, hdigit _ a (by omega), hdigit _ b (by omega), hdigit _ c (by omega),
    hdigit _ d (by omega)]

/-! ## The answer -/

theorem DnsResponse.length_bytes (r : DnsResponse) : r.bytes.length =
    dnsHeader + (nameBytes r.qname).length + 16 + r.rdata.length + r.rest.length := by
  have hheader : r.header.length = dnsHeader := rfl
  have hmiddle : (r.question ++ r.recordHeader).length = 14 := rfl
  have hcount : (be16Bytes r.rdata.length).length = 2 := rfl
  rw [bytes]
  generalize r.question ++ r.recordHeader = middle at hmiddle ⊢
  rw [List.length_append, List.length_append, List.length_append, List.length_append,
    List.length_append, hheader, hmiddle, hcount]
  omega

/-- The fields of a response that the driver looks at, and where they are. -/
structure Fields (mem : Window) (dns : ℕ) (r : DnsResponse) : Prop where
  id : (be16 dns).val mem = dnsId
  ansCount : (be16 (dns + 6)).val mem = r.ansCount
  qname : Memory.Stands mem (dns + dnsHeader) (nameBytes r.qname)
  dataLen : (be16 (dns + dnsHeader + (nameBytes r.qname).length + 14)).val mem = r.rdata.length
  rdata : Memory.Stands mem (dns + dnsHeader + (nameBytes r.qname).length + 16) r.rdata

section
variable {mem : Window} {base dns : ℕ} {r : DnsResponse}

theorem fields_of_stands (hr : r.WellFormed) (hmem : Memory.Stands mem dns r.bytes) :
    Fields mem dns r := by
  obtain ⟨hheader, hmem⟩ := Memory.stands_append.mp hmem
  obtain ⟨hqname, hmem⟩ := Memory.stands_append.mp hmem
  obtain ⟨hlength, hmem⟩ := Memory.stands_append.mp (Memory.stands_append.mp hmem).2
  have hcounts := (Memory.stands_append.mp hheader).1
  have hid := (Memory.stands_append.mp (Memory.stands_append.mp
    (Memory.stands_append.mp hcounts).1).1).1
  exact ⟨val_be16 hid (by decide), val_be16 (Memory.stands_append.mp hcounts).2 hr.ansCount.2,
    hqname, val_be16 hlength hr.rdata, (Memory.stands_append.mp hmem).1⟩

/-- What the driver finds in a response: the data of the first record, if it has four bytes. -/
theorem dnsAnswer_response (hr : r.WellFormed) (hmem : Memory.Stands mem dns r.bytes)
    (hbase : base ≤ dns) (hend : dns + r.bytes.length ≤ base + rxBufferLen) :
    (dnsAnswer rxBufferLen (base + rxBufferLen) dns).val mem =
      some (if r.rdata.length = 4 then some r.rdata else none) := by
  have hf := fields_of_stands hr hmem
  have hname : 0 < (nameBytes r.qname).length := by
    rw [nameBytes, List.length_append]
    exact Nat.succ_pos _
  rw [r.length_bytes] at hend
  have hskip := skipName_nameBytes hr.label hf.qname
    (show dns + dnsHeader + (nameBytes r.qname).length ≤ base + rxBufferLen by omega)
    (show base + rxBufferLen ≤ dns + dnsHeader + rxBufferLen by omega)
  obtain ⟨reader, hreader⟩ : ∃ reader, reader + 1 = dns + dnsHeader + (nameBytes r.qname).length :=
    ⟨_, Nat.sub_add_cancel (by omega)⟩
  rw [← hreader, Nat.add_sub_cancel] at hskip
  have hlength := hf.dataLen
  have hrdata := Memory.stands_bytes hf.rdata
  rw [← hreader, Nat.add_assoc] at hlength hrdata
  rw [dnsAnswer, val_bind, val_ite, hf.id, if_neg (not_not.mpr rfl), val_bind, val_ite, hf.ansCount,
    if_neg (Nat.pos_iff_ne_zero.mp hr.ansCount.1)]
  rw [val_ite, if_neg (by omega), val_bind, hskip]
  change (dnsRecord (base + rxBufferLen) reader).val mem = _
  rw [dnsRecord, val_ite]
  split
  · -- the buffer ends where the data would be
    rw [if_neg (by omega)]
    rfl
  · rw [val_bind, val_ite, Nat.add_assoc, hlength]
    by_cases hfour : r.rdata.length = 4
    · rw [if_pos ⟨hfour, by omega⟩, if_pos hfour, val_bind, val_bytes, Nat.add_assoc, ← hfour, hrdata]
      rfl
    · rw [if_neg fun h => hfour h.1, if_neg hfour]
      rfl

/-- A response in the buffer of a descriptor: four bytes of data are published. -/
theorem netPoll_response {descId : ℕ} (hdesc : descId < 4) (hr : r.WellFormed)
    (hframe : CarriesResponse mem (rxBufferOffset descId) r) (timeMs : ℕ) (n : NetDriver) :
    (netPoll rxBufferLen descId timeMs n).val mem =
      some (if r.rdata.length = 4 then takeDns n r.rdata else n) := by
  have hport := hframe.udp.2
  have hanswer := dnsAnswer_response hr hframe.bytes
    (by rw [transportOf, payloadOf]; omega) hframe.fits
  have hudp : transportOf mem (rxBufferOffset descId) =
      payloadOf (rxBufferOffset descId) +
        (headerLength (payloadOf (rxBufferOffset descId))).val mem := rfl
  rw [hudp] at hport hanswer
  rw [netPoll, if_neg (Nat.not_le.mpr hdesc), receiveFrame_udp hframe.udp.1, receiveUdp, val_bind,
    val_bind, val_ite, if_pos hport, receiveDns, val_bind, hanswer]
  by_cases hfour : r.rdata.length = 4
  · rw [if_pos hfour, if_pos hfour]
    rfl
  · rw [if_neg hfour, if_neg hfour]
    rfl

/-- The driver while the shell waits for an answer. -/
def waitingDriver : NetDriver := { NetDriver.start 0 with mailbox := 1 }

/-- Four bytes of something else are published too. -/
theorem not_publishesAddress {descId : ℕ} (hdesc : descId < 4) (hr : r.WellFormed)
    (hframe : CarriesResponse mem (rxBufferOffset descId) r) (hfour : r.rdata.length = 4)
    (hno : ¬ r.IsAddress) : ¬ ∃ n', (netPoll rxBufferLen descId 0 waitingDriver).val mem = some n' ∧
      PublishesAddress r waitingDriver n' := by
  rintro ⟨n', hn', hpub⟩
  rw [netPoll_response hdesc hr hframe, if_pos hfour, Option.some.injEq] at hn'
  have hsame := congrArg (·.mailbox) (hn'.trans (hpub.other hno))
  exact absurd hsame Nat.zero_ne_one

/-- **The published address.** The driver makes of a response what it should, whatever it was doing,
if and only if four bytes of data in the first record are an address of the internet. -/
theorem publishesAddress_iff {descId : ℕ} (hdesc : descId < 4) (hr : r.WellFormed)
    (hframe : CarriesResponse mem (rxBufferOffset descId) r) :
    (∀ (timeMs : ℕ) (n : NetDriver), ∃ n', (netPoll rxBufferLen descId timeMs n).val mem = some n' ∧
        PublishesAddress r n n') ↔
      (r.rdata.length = 4 → r.type = 1 ∧ r.cls = 1) := by
  constructor
  · intro h hfour
    by_contra hno
    exact not_publishesAddress hdesc hr hframe hfour (fun haddr => hno ⟨haddr.1, haddr.2.1⟩)
      (h 0 waitingDriver)
  · intro h timeMs n
    refine ⟨_, netPoll_response hdesc hr hframe timeMs n, ?_⟩
    by_cases hfour : r.rdata.length = 4
    · rw [if_pos hfour]
      obtain ⟨htype, hcls⟩ := h hfour
      have hword : (takeDns n r.rdata).dnsAddress = packIp r.rdata := by simp only [takeDns]
      exact ⟨fun _ => ⟨rfl, hword ▸ unpackIpv4_packIp hfour⟩,
        fun hno => absurd (show r.IsAddress from ⟨htype, hcls, hfour⟩) hno⟩
    · rw [if_neg hfour]
      exact ⟨fun haddr => absurd haddr.2.2 hfour, fun _ => rfl⟩

end

/-! ## Two responses -/

/-- A response about `ya.ru` with one record. -/
def shortResponse (type : ℕ) (rdata : List UInt8) : DnsResponse where
  flags := 0x8180
  ansCount := 1
  authCount := 0
  addCount := 0
  qname := [[121, 97], [114, 117]]
  qtype := 1
  qclass := 1
  owner := 12
  type := type
  cls := 1
  ttl := 60
  rdata := rdata
  rest := []

/-- The frame with a response, in the first receive buffer. -/
def responseWindow (r : DnsResponse) : Window :=
  windowAt 0x2800 (List.replicate 22 0 ++ [8, 0, 0x45, 0, 0, 0, 0, 0, 0, 0, 64, 17, 0, 0, 8, 8, 8, 8,
    10, 0, 2, 15, 0, 53, 195, 133, 0, 0, 0, 0] ++ r.bytes)

theorem stands_windowAt (base : ℕ) (l l' : List UInt8) :
    Memory.Stands (windowAt base (l ++ l')) (base + l.length) l' := by
  refine Memory.stands_of_getD fun k _ => ?_
  rw [windowAt, if_pos (by omega), Nat.add_assoc, Nat.add_sub_cancel_left,
    List.getD_append_right _ _ _ _ (Nat.le_add_right _ _), Nat.add_sub_cancel_left]

theorem carriesResponse_short {type : ℕ} {rdata : List UInt8} (h : rdata.length ≤ 1000)
    (hudp : IsUdpFrom (responseWindow (shortResponse type rdata)) (rxBufferOffset 0) 53)
    (htransport : transportOf (responseWindow (shortResponse type rdata)) (rxBufferOffset 0) =
      0x2800 + 44) :
    CarriesResponse (responseWindow (shortResponse type rdata)) (rxBufferOffset 0)
      (shortResponse type rdata) := by
  have hlen : (shortResponse type rdata).bytes.length = 12 + 7 + 16 + rdata.length + 0 :=
    (shortResponse type rdata).length_bytes
  have hbase : rxBufferOffset 0 = 0x2800 := rfl
  refine ⟨hudp, ?_, ?_⟩
  · rw [htransport]
    exact stands_windowAt _ _ _
  · rw [htransport, hlen, hbase, udpHeader, rxBufferLen]
    omega

theorem wellFormed_short {type : ℕ} (htype : type < 2 ^ 16) {rdata : List UInt8}
    (h : rdata.length ≤ 1000) : (shortResponse type rdata).WellFormed where
  flags := by simp [shortResponse]
  ansCount := by simp [shortResponse]
  authCount := by simp [shortResponse]
  addCount := by simp [shortResponse]
  label := show ∀ l ∈ [[121, 97], [114, 117]], IsLabel l by decide
  qname := show (nameBytes [[121, 97], [114, 117]]).length ≤ 255 by decide
  qtype := by simp [shortResponse]
  qclass := by simp [shortResponse]
  owner := by simp [shortResponse]
  type := htype
  cls := by simp [shortResponse]
  ttl := by simp [shortResponse]
  rdata := Nat.lt_of_le_of_lt h (by decide)

/-- An address record. -/
theorem publishesAddress_short : ∃ n', (netPoll rxBufferLen 0 0 (.start 0)).val
      (responseWindow (shortResponse 1 [5, 255, 255, 242])) = some n' ∧
    PublishesAddress (shortResponse 1 [5, 255, 255, 242]) (.start 0) n' := by
  have hlen : ([5, 255, 255, 242] : List UInt8).length ≤ 1000 := by decide
  have hframe := @carriesResponse_short 1 _ hlen
    ⟨⟨by decide +kernel, by decide +kernel⟩, by decide +kernel⟩ (by decide +kernel)
  exact (publishesAddress_iff (by decide) (wellFormed_short (by decide) hlen) hframe).mpr
    (fun _ => ⟨rfl, rfl⟩) 0 (.start 0)

/-- The canonical name `a.ya.ru`, one letter and a pointer, is published as an address. -/
theorem not_publishesAddress_cname : ¬ ∀ (mem : Window) (descId : ℕ) (r : DnsResponse), descId < 4 →
    r.WellFormed → CarriesResponse mem (rxBufferOffset descId) r → ∀ (timeMs : ℕ) (n : NetDriver),
      ∃ n', (netPoll rxBufferLen descId timeMs n).val mem = some n' ∧ PublishesAddress r n n' := by
  intro h
  have hlen : ([1, 97, 0xC0, 12] : List UInt8).length ≤ 1000 := by decide
  have hr := @wellFormed_short 5 (by decide) _ hlen
  have hframe := @carriesResponse_short 5 _ hlen
    ⟨⟨by decide +kernel, by decide +kernel⟩, by decide +kernel⟩ (by decide +kernel)
  exact not_publishesAddress (by decide) hr hframe rfl (fun haddr => absurd haddr.1 (by decide))
    (h _ 0 _ (by decide) hr hframe 0 waitingDriver)

end PsychWard.Net
