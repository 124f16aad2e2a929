import PsychWard.Common.Traced
import PsychWard.Net.Driver

/-!
# The receive loop

One turn of the loop of `net_poll`, for an entry of the used ring: the frame is parsed where it lies
in the shared window, and the driver acts on it. Every byte that is read of the frame and every byte
that is stored in `g_udp_rx_data` is logged. Offsets count from the start of the window; multi-byte
fields are read in network byte order, which is what `htons` and `bswap32` make of them.

The four receive buffers lie one behind the other, so a read past the end of one reaches the next.
-/

namespace PsychWard.Net

open Clock

/-- The shared window. -/
abbrev Window := ℕ → UInt8

/-- What the receive loop touches. -/
inductive Access
  /-- a byte of the window is read -/
  | load (offset : ℕ)
  /-- an element of `g_udp_rx_data` is written -/
  | store (index : ℕ)
deriving DecidableEq, Repr

abbrev Rx := Traced Window Access

/-- `rx_buffer_offsets`. -/
def rxBufferOffset (descId : ℕ) : ℕ := [0x2800, 0x2E00, 0x3400, 0x3A00].getD descId 0

/-- The length of a receive buffer. -/
def rxBufferLen : ℕ := 1536

/-- `sizeof(virtio_net_hdr)`, `sizeof(udp_header)`, `sizeof(dns_header)`, `sizeof(ntp_packet)` and
the offset of `payload` in `ethernet_frame`. -/
def virtioNetHdr : ℕ := 10
def udpHeader : ℕ := 8
def dnsHeader : ℕ := 12
def ntpPacketLen : ℕ := 48
def ethPayload : ℕ := 14

/-- `sizeof(g_udp_rx_data)`. -/
def udpRxSize : ℕ := 256

/-! ## Fields -/

def byte (offset : ℕ) : Rx UInt8 := .access (.load offset) (· offset)

def be16 (offset : ℕ) : Rx ℕ := do
  let hi ← byte offset
  let lo ← byte (offset + 1)
  return hi.toNat * 2 ^ 8 + lo.toNat

def be32 (offset : ℕ) : Rx ℕ := do
  let hi ← be16 offset
  let lo ← be16 (offset + 2)
  return hi * 2 ^ 16 + lo

/-- `n` bytes from `offset` on. -/
def bytes (offset : ℕ) : ℕ → Rx (List UInt8)
  | 0 => return []
  | n + 1 => do
    let b ← byte offset
    let bs ← bytes (offset + 1) n
    return b :: bs

/-- The length of the IP header at `ip`. -/
def headerLength (ip : ℕ) : Rx ℕ := do
  let b ← byte ip
  return b.toNat % 2 ^ 4 * 4

/-! ## ARP -/

/-- What waits for the address of the gateway is sent. -/
def launchPending (n : NetDriver) (timeMs : ℕ) : NetDriver :=
  match n.pendingCmd with
  | .resolve => NetDriver.sendDnsQuery { n with pendingCmd := .none }
  | .ping => NetDriver.startPingSeries { n with pendingCmd := .none } n.pendingPingCount timeMs
  | .send => { n.sendUdp with pendingCmd := .none }
  | .ntp => NetDriver.sendNtpRequest { n with pendingCmd := .none } timeMs
  | _ => n

def receiveArp (arp timeMs : ℕ) (n : NetDriver) : Rx NetDriver := do
  let oper ← be16 (arp + 6)
  if oper = 2 ∧ n.haveRouterMac = false then
    let sha ← bytes (arp + 8) 6
    return launchPending
      { n with routerMac := sha, haveRouterMac := true, arpOutstanding := false } timeMs
  else return n

/-! ## ICMP -/

def receiveIcmp (ip timeMs : ℕ) (n : NetDriver) : Rx NetDriver := do
  let ihl ← headerLength ip
  let icmp := ip + ihl
  let type ← byte icmp
  if type ≠ 0 then return n
  else
    let id ← be16 (icmp + 4)
    if id ≠ 0x1337 then return n
    else
      let seq ← be16 (icmp + 6)
      -- what is printed about the reply
      let _ ← headerLength ip
      let _ ← be16 (ip + 2)
      let _ ← bytes (ip + 12) 4
      let _ ← byte (ip + 8)
      if n.pingOutstanding = true ∧ seq = n.pingOutstandingSeq then
        let loops := if n.loopsPassed = 0 then 1 else n.loopsPassed
        return (NetDriver.recordPingRtt { n with pingOutstanding := false }
          (loops * 15 % 2 ^ 64)).scheduleNextPing timeMs
      else return n

/-! ## DNS -/

/-- The loop that follows the labels of a name: the offset of its end, `none` when the buffer ends
before the name; the outer `none` is for want of fuel. -/
def skipName (bufferEnd : ℕ) : ℕ → ℕ → Rx (Option (Option ℕ))
  | 0, _ => return none
  | fuel + 1, reader => do
    let len ← byte reader
    if len = 0 then return some (some reader)
    else if bufferEnd ≤ reader + len.toNat + 1 then return some none
    else skipName bufferEnd fuel (reader + len.toNat + 1)

/-- `packed_ip`: the shifts are made in `int`, so the word is the sign extension of 32 bits. -/
def packIp (ip : List UInt8) : ℕ :=
  toWord (toInt32 (((ip.getD 0 0).toNat * 2 ^ 24) + ((ip.getD 1 0).toNat * 2 ^ 16) +
    ((ip.getD 2 0).toNat * 2 ^ 8) + (ip.getD 3 0).toNat))

/-- The address in the first record, behind the name that ends at `reader`. -/
def dnsRecord (bufferEnd reader : ℕ) : Rx (Option (Option (List UInt8))) := do
  if bufferEnd ≤ reader + 5 + 10 + 2 then return some none
  else
    let dataLen ← be16 (reader + 5 + 10)
    let data := reader + 5 + 10 + 2
    if dataLen = 4 ∧ data + 4 ≤ bufferEnd then
      let ip ← bytes data 4
      return some (some ip)
    else return some none

/-- The address that a DNS answer at `dns` carries; `none` when the driver ignores it. -/
def dnsAnswer (fuel bufferEnd dns : ℕ) : Rx (Option (Option (List UInt8))) := do
  let id ← be16 dns
  if id ≠ dnsId then return some none
  else
    let answers ← be16 (dns + 6)
    if answers = 0 then return some none
    else
      let reader := dns + dnsHeader
      if bufferEnd ≤ reader then return some none
      else
        let name ← skipName bufferEnd fuel reader
        match name with
        | none => return none
        | some none => return some none
        | some (some reader) => dnsRecord bufferEnd reader

def receiveDns (fuel bufferEnd dns : ℕ) (n : NetDriver) : Rx (Option NetDriver) := do
  let answer ← dnsAnswer fuel bufferEnd dns
  return answer.map fun
    | none => n
    | some ip => { n with dnsAddress := packIp ip, mailbox := 0, dnsOutstanding := false }

/-! ## NTP and other datagrams -/

/-- The fields of the SNTP packet at `data`, when it lies inside the buffer. -/
def ntpPacket (bufferEnd data : ℕ) : Rx NtpPacket := do
  if bufferEnd < data + ntpPacketLen then
    return { fits := false, liVnMode := 0, stratum := 0, rxTsSec := 0, txTsSec := 0 }
  else
    let stratum ← byte (data + 1)
    let liVnMode ← byte data
    let rxTsSec ← be32 (data + 32)
    let txTsSec ← be32 (data + 40)
    return { fits := true, liVnMode := liVnMode.toNat, stratum := stratum.toNat,
             rxTsSec := rxTsSec, txTsSec := txTsSec }

def receiveNtp (bufferEnd data timeMs : ℕ) (n : NetDriver) : Rx NetDriver := do
  let p ← ntpPacket bufferEnd data
  let r := n.toNtpClient.pollNtpReply p timeMs
  return { n with toNtpClient := r.1, setOffsets := n.setOffsets ++ r.2.toList }

/-- Store `k` bytes of the window in `g_udp_rx_data` from index `i` on, and the zero behind them. -/
def storeUdp (data i : ℕ) (old : ℕ → UInt8) : ℕ → Rx (ℕ → UInt8)
  | 0 => .access (.store i) fun _ => Function.update old i 0
  | k + 1 => do
    let b ← byte (data + i)
    let new ← .access (.store i) fun _ => Function.update old i b
    storeUdp data (i + 1) new k

/-- A datagram that answers no request is kept for `recv`. -/
def receiveDatagram (bufferEnd ip udp : ℕ) (n : NetDriver) : Rx NetDriver := do
  let data := udp + udpHeader
  let udpLen ← be16 (udp + 4)
  let payloadLen := if udpHeader < udpLen then udpLen - udpHeader else 0
  let avail := if data < bufferEnd then bufferEnd - data else 0
  let payloadLen := if avail < payloadLen then avail else payloadLen
  let payloadLen := if udpRxSize - 1 < payloadLen then udpRxSize - 1 else payloadLen
  let rx ← storeUdp data 0 n.udpRxData payloadLen
  let srcIp ← bytes (ip + 12) 4
  let srcPort ← be16 udp
  return { n with
    udpRxData := rx, udpRxLen := payloadLen, udpRxSrcIp := srcIp, udpRxSrcPort := srcPort,
    udpRxReady := true }

def receiveUdp (fuel bufferEnd ip timeMs : ℕ) (n : NetDriver) : Rx (Option NetDriver) := do
  let ihl ← headerLength ip
  let udp := ip + ihl
  let srcPort ← be16 udp
  if srcPort = 53 then receiveDns fuel bufferEnd (udp + udpHeader) n
  else if srcPort = 123 ∧ n.ntpOutstanding = true then
    some <$> receiveNtp bufferEnd (udp + udpHeader) timeMs n
  else some <$> receiveDatagram bufferEnd ip udp n

/-! ## A frame -/

/-- The frame in the buffer that starts at `base`. -/
def receiveFrame (fuel base timeMs : ℕ) (n : NetDriver) : Rx (Option NetDriver) := do
  let eth := base + virtioNetHdr
  let bufferEnd := base + rxBufferLen
  let type ← be16 (eth + 12)
  let payload := eth + ethPayload
  if type = 0x0806 then some <$> receiveArp payload timeMs n
  else if type = 0x0800 then
    let protocol ← byte (payload + 9)
    if protocol = 1 then some <$> receiveIcmp payload timeMs n
    else if protocol = 17 then receiveUdp fuel bufferEnd payload timeMs n
    else return some n
  else return some n

/-- One turn of the loop of `net_poll`, for the descriptor that the device reports. -/
def netPoll (fuel descId timeMs : ℕ) (n : NetDriver) : Rx (Option NetDriver) :=
  if 4 ≤ descId then return some n
  else receiveFrame fuel (rxBufferOffset descId) timeMs n

end PsychWard.Net
