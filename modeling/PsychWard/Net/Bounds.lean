import PsychWard.Common.Memory
import PsychWard.Net.Receive
import Mathlib.Tactic.Ring

/-!
# The bounds of the receive loop

Whatever lies in the receive buffers and whatever descriptor the device reports, a turn of the
receive loop reads inside the buffer of that descriptor, writes inside `g_udp_rx_data`, and comes to
an end: the labels of a name are followed at most 1536 times.
-/

namespace PsychWard.Net

open Traced

/-! ## What the fields are -/

/-- A byte read with its access is the byte of the window. -/
theorem val_byte (offset : ℕ) (mem : Window) : (byte offset).val mem = mem offset := rfl

/-- A run of bytes read with its accesses is the run in the window. -/
theorem val_bytes (mem : Window) (offset n : ℕ) :
    (bytes offset n).val mem = Memory.bytes mem offset n := by
  induction n generalizing offset with
  | zero => rfl
  | succ n ih =>
    rw [bytes, val_bind, val_bind, val_pure, val_byte, ih, Memory.bytes_succ]

/-! ## Accesses -/

/-- The access stays inside the receive buffer that starts at `base`, or inside `g_udp_rx_data`. -/
def InBuffer (base : ℕ) : Access → Prop
  | .load offset => base ≤ offset ∧ offset < base + rxBufferLen
  | .store index => index < udpRxSize

section
variable {base offset : ℕ}

/-- One byte of the receive buffer. -/
theorem within_byte (h₀ : base ≤ offset) (h : offset + 1 ≤ base + rxBufferLen) :
    (byte offset).Within (InBuffer base) :=
  .access _ ⟨h₀, h⟩

/-- Two bytes of the receive buffer in network order. -/
theorem within_be16 (h₀ : base ≤ offset) (h : offset + 2 ≤ base + rxBufferLen) :
    (be16 offset).Within (InBuffer base) := by
  apply Within.seq (within_byte h₀ (by omega))
  intro hi
  apply Within.seq (within_byte (by omega) h)
  intro lo
  exact .pure _

/-- Four bytes of the receive buffer in network order. -/
theorem within_be32 (h₀ : base ≤ offset) (h : offset + 4 ≤ base + rxBufferLen) :
    (be32 offset).Within (InBuffer base) := by
  apply Within.seq (within_be16 h₀ (by omega))
  intro hi
  apply Within.seq (within_be16 (by omega) h)
  intro lo
  exact .pure _

/-- A run of `n` bytes that ends inside the receive buffer. -/
theorem within_bytes (n : ℕ) (h₀ : base ≤ offset) (h : offset + n ≤ base + rxBufferLen) :
    (bytes offset n).Within (InBuffer base) := by
  induction n generalizing offset with
  | zero => exact .pure _
  | succ n ih =>
    apply Within.seq (within_byte h₀ (by omega))
    intro b
    apply Within.seq (ih (by omega) (by omega))
    intro bs
    exact .pure _

/-- The length of an IP header is read from its first byte. -/
theorem within_headerLength (h₀ : base ≤ offset) (h : offset + 1 ≤ base + rxBufferLen) :
    (headerLength offset).Within (InBuffer base) := by
  apply Within.seq (within_byte h₀ h)
  intro b
  exact .pure _

/-- The length field of an IP header counts at most fifteen words. -/
theorem headerLength_le (ip : ℕ) (mem : Window) : (headerLength ip).val mem ≤ 60 := by
  have hmod : (mem ip).toNat % 2 ^ 4 < 2 ^ 4 := Nat.mod_lt _ (by decide)
  have hval : (headerLength ip).val mem = (mem ip).toNat % 2 ^ 4 * 4 := rfl
  omega

end

/-! ## The loops -/

/-- The labels of a name end inside the buffer, or the driver gives up. -/
theorem skipName_lt {bufferEnd fuel reader r : ℕ} {mem : Window} (h : reader < bufferEnd)
    (hval : (skipName bufferEnd fuel reader).val mem = some (some r)) :
    reader ≤ r ∧ r < bufferEnd := by
  induction fuel generalizing reader with
  | zero => cases hval
  | succ fuel ih =>
    rw [skipName, val_bind, val_ite, val_ite] at hval
    split at hval
    · obtain rfl : reader = r := Option.some.inj (Option.some.inj hval)
      exact ⟨le_rfl, h⟩
    · split at hval
      · cases Option.some.inj hval
      · obtain ⟨hle, hlt⟩ := ih (by omega) hval
        exact ⟨by omega, hlt⟩

/-- As many turns as there are bytes left are enough: each label takes at least one. -/
theorem skipName_ne_none {bufferEnd fuel reader : ℕ} {mem : Window}
    (h : reader < bufferEnd) (hfuel : bufferEnd ≤ reader + fuel) :
    (skipName bufferEnd fuel reader).val mem ≠ none := by
  induction fuel generalizing reader with
  | zero => omega
  | succ fuel ih =>
    rw [skipName, val_bind, val_ite, val_ite]
    split
    · exact Option.some_ne_none _
    · split
      · exact Option.some_ne_none _
      · exact ih (by omega) (by omega)

/-- Each step of the loop that skips a name tests the reader against `bufferEnd` first. -/
theorem within_skipName {base fuel reader : ℕ} (h₀ : base ≤ reader)
    (h : reader < base + rxBufferLen) :
    (skipName (base + rxBufferLen) fuel reader).Within (InBuffer base) := by
  induction fuel generalizing reader with
  | zero => exact .pure _
  | succ fuel ih =>
    apply Within.seq (within_byte h₀ h)
    intro len
    apply Within.ite
    · intro _
      exact .pure _
    · intro _
      apply Within.ite
      · intro _
        exact .pure _
      · intro hlt
        exact ih (by omega) (by omega)

/-- The copy into `udp_rx_data` stops at the end of both buffers; no byte at all is read when none
is due. -/
theorem within_storeUdp {base data : ℕ} (k : ℕ) {i : ℕ} {old : ℕ → UInt8} (h₀ : base ≤ data)
    (h : data + i + k ≤ base + rxBufferLen ∨ k = 0) (hi : i + k < udpRxSize) :
    (storeUdp data i old k).Within (InBuffer base) := by
  induction k generalizing i old with
  | zero => exact .access _ hi
  | succ k ih =>
    apply Within.seq (within_byte (by omega) (by omega))
    intro b
    have hstore : InBuffer base (.store i) := show i < udpRxSize by omega
    apply Within.seq (.access _ hstore)
    intro new
    exact ih (by omega) (by omega)

/-! ## The branches -/

section
variable {base : ℕ} {n : NetDriver}

/-- An ARP packet is 28 bytes. -/
theorem within_receiveArp {arp timeMs : ℕ} (h₀ : base ≤ arp) (h : arp + 28 ≤ base + rxBufferLen) :
    (receiveArp arp timeMs n).Within (InBuffer base) := by
  apply Within.seq (within_be16 (by omega) (by omega))
  intro oper
  apply Within.ite
  · intro _
    apply Within.seq (within_bytes 6 (by omega) (by omega))
    intro sha
    exact .pure _
  · intro _
    exact .pure _

/-- The longest IP header and the ICMP header behind it fit the buffer. -/
theorem within_receiveIcmp {ip timeMs : ℕ} (h₀ : base ≤ ip) (h : ip + 68 ≤ base + rxBufferLen) :
    (receiveIcmp ip timeMs n).Within (InBuffer base) := by
  apply Within.bind (within_headerLength h₀ (by omega))
  intro mem
  have hihl := headerLength_le ip mem
  generalize (headerLength ip).val mem = ihl at hihl
  apply Within.seq (within_byte (by omega) (by omega))
  intro type
  apply Within.ite
  · intro _
    exact .pure _
  · intro _
    apply Within.seq (within_be16 (by omega) (by omega))
    intro id
    apply Within.ite
    · intro _
      exact .pure _
    · intro _
      apply Within.seq (within_be16 (by omega) (by omega))
      intro seq
      apply Within.seq (within_headerLength h₀ (by omega))
      intro _
      apply Within.seq (within_be16 (by omega) (by omega))
      intro _
      apply Within.seq (within_bytes 4 (by omega) (by omega))
      intro _
      apply Within.seq (within_byte (by omega) (by omega))
      intro _
      apply Within.ite
      · intro _
        exact .pure _
      · intro _
        exact .pure _

/-- `buffer_end` is tested before the header of a record and again before its data. -/
theorem within_dnsRecord {reader : ℕ} (h₀ : base ≤ reader) :
    (dnsRecord (base + rxBufferLen) reader).Within (InBuffer base) := by
  apply Within.ite
  · intro _
    exact .pure _
  · intro hlt
    apply Within.seq (within_be16 (by omega) (by omega))
    intro dataLen
    apply Within.ite
    · intro hfit
      apply Within.seq (within_bytes 4 (by omega) hfit.2)
      intro ip
      exact .pure _
    · intro _
      exact .pure _

/-- The fuel never runs out within a record: what is parsed is a value. -/
theorem dnsRecord_ne_none (bufferEnd reader : ℕ) (mem : Window) :
    (dnsRecord bufferEnd reader).val mem ≠ none := by
  rw [dnsRecord, val_ite]
  split
  · exact Option.some_ne_none _
  · rw [val_bind, val_ite]
    split <;> exact Option.some_ne_none _

/-- The header is 12 bytes; question and answers are read behind the test of `skipName`. -/
theorem within_dnsAnswer {fuel dns : ℕ} (h₀ : base ≤ dns) (h : dns + 12 ≤ base + rxBufferLen) :
    (dnsAnswer fuel (base + rxBufferLen) dns).Within (InBuffer base) := by
  apply Within.seq (within_be16 h₀ (by omega))
  intro id
  apply Within.ite
  · intro _
    exact .pure _
  · intro _
    apply Within.seq (within_be16 (by omega) (by omega))
    intro answers
    apply Within.ite
    · intro _
      exact .pure _
    · intro _
      apply Within.ite
      · intro _
        exact .pure _
      · intro hlt
        apply Within.bind (within_skipName (by omega) (by omega))
        intro mem
        cases hname : (skipName (base + rxBufferLen) fuel (dns + dnsHeader)).val mem with
        | none => exact .pure _
        | some end? =>
          cases end? with
          | none => exact .pure _
          | some reader =>
            have hreader := skipName_lt (by omega) hname
            exact within_dnsRecord (by omega)

/-- A reader that advances at each step ends the parse before the fuel does. -/
theorem dnsAnswer_ne_none {fuel bufferEnd dns : ℕ} {mem : Window} (hfuel : bufferEnd ≤ dns + fuel) :
    (dnsAnswer fuel bufferEnd dns).val mem ≠ none := by
  rw [dnsAnswer, val_bind, val_ite]
  split
  · exact Option.some_ne_none _
  · rw [val_bind, val_ite]
    split
    · exact Option.some_ne_none _
    · rw [val_ite]
      split
      · exact Option.some_ne_none _
      · have hname : (skipName bufferEnd fuel (dns + dnsHeader)).val mem ≠ none :=
          skipName_ne_none (by omega) (by omega)
        rw [val_bind]
        cases hn : (skipName bufferEnd fuel (dns + dnsHeader)).val mem with
        | none => exact absurd hn hname
        | some end? =>
          cases end? with
          | none => exact Option.some_ne_none _
          | some reader => exact dnsRecord_ne_none bufferEnd reader mem

/-- `receiveNtp` reads its 48 bytes only after it found them inside the buffer. -/
theorem within_receiveNtp {data timeMs : ℕ} (h₀ : base ≤ data) :
    (receiveNtp (base + rxBufferLen) data timeMs n).Within (InBuffer base) := by
  apply Within.seq
  · apply Within.ite
    · intro _
      exact .pure _
    · intro hfit
      rw [ntpPacketLen] at hfit
      apply Within.seq (within_byte (by omega) (by omega))
      intro stratum
      apply Within.seq (within_byte (by omega) (by omega))
      intro liVnMode
      apply Within.seq (within_be32 (by omega) (by omega))
      intro rx
      apply Within.seq (within_be32 (by omega) (by omega))
      intro tx
      exact .pure _
  · intro p
    exact .pure _

/-- The two clamps of the UDP copy are minima. -/
theorem ite_lt_eq_min (a b : ℕ) : (if a < b then a else b) = min a b := by
  split <;> omega

/-- The length of a datagram is cut to what is left of the buffer and to the array. -/
theorem within_receiveDatagram {ip udp : ℕ} (h₀ : base ≤ ip) (hudp : ip ≤ udp)
    (hip : ip + 20 ≤ base + rxBufferLen) (h : udp + 8 ≤ base + rxBufferLen) :
    (receiveDatagram (base + rxBufferLen) ip udp n).Within (InBuffer base) := by
  apply Within.seq (within_be16 (by omega) (by omega))
  intro udpLen
  apply Within.seq
  · apply within_storeUdp _ (by omega)
    · simp only [ite_lt_eq_min]
      split_ifs <;> omega
    · simp only [ite_lt_eq_min, udpRxSize]
      omega
  · intro rx
    apply Within.seq (within_bytes 4 (by omega) (by omega))
    intro srcIp
    apply Within.seq (within_be16 (by omega) (by omega))
    intro srcPort
    exact .pure _

/-- The lengths come from the packet, so each is clamped to the buffer before it is used. -/
theorem within_receiveUdp {fuel ip timeMs : ℕ} (h₀ : base ≤ ip) (h : ip + 80 ≤ base + rxBufferLen) :
    (receiveUdp fuel (base + rxBufferLen) ip timeMs n).Within (InBuffer base) := by
  apply Within.bind (within_headerLength h₀ (by omega))
  intro mem
  have hihl := headerLength_le ip mem
  generalize (headerLength ip).val mem = ihl at hihl
  apply Within.seq (within_be16 (by omega) (by omega))
  intro srcPort
  apply Within.ite
  · intro _
    apply Within.seq (within_dnsAnswer (by rw [udpHeader]; omega) (by rw [udpHeader]; omega))
    intro answer
    exact .pure _
  · intro _
    apply Within.ite
    · intro _
      exact .map _ (within_receiveNtp (by omega))
    · intro _
      exact .map _ (within_receiveDatagram h₀ (by omega) (by omega) (by omega))

/-- Ethernet and IP headers lie at fixed offsets, and the shortest buffer has room for the longest
header behind them. -/
theorem within_receiveFrame (fuel timeMs : ℕ) :
    (receiveFrame fuel base timeMs n).Within (InBuffer base) := by
  have hpayload : base + virtioNetHdr + ethPayload = base + 24 := rfl
  have hlen : rxBufferLen = 1536 := rfl
  apply Within.seq (within_be16 (by omega) (by rw [virtioNetHdr]; omega))
  intro type
  apply Within.ite
  · intro _
    exact .map _ (within_receiveArp (by omega) (by omega))
  · intro _
    apply Within.ite
    · intro _
      apply Within.seq (within_byte (by omega) (by omega))
      intro protocol
      apply Within.ite
      · intro _
        exact .map _ (within_receiveIcmp (by omega) (by omega))
      · intro _
        apply Within.ite
        · intro _
          exact within_receiveUdp (by omega) (by omega)
        · intro _
          exact .pure _
    · intro _
      exact .pure _

/-- The parser ends on every frame. -/
theorem receiveFrame_ne_none {fuel : ℕ} (timeMs : ℕ) (mem : Window) (hfuel : rxBufferLen ≤ fuel) :
    (receiveFrame fuel base timeMs n).val mem ≠ none := by
  rw [receiveFrame, val_bind, val_ite]
  split
  · exact Option.some_ne_none _
  · rw [val_ite]
    split
    · rw [val_bind, val_ite]
      split
      · exact Option.some_ne_none _
      · rw [val_ite]
        split
        · rw [receiveUdp, val_bind, val_bind, val_ite]
          split
          · rw [receiveDns, val_bind]
            intro hnone
            exact dnsAnswer_ne_none (by omega) (Option.map_eq_none_iff.mp hnone)
          · rw [val_ite]
            split <;> exact Option.some_ne_none _
        · exact Option.some_ne_none _
    · exact Option.some_ne_none _

end

/-- **A received frame stays in its buffer.** For every content of the window and every descriptor
that the device reports: what is read is inside the 1536 bytes of that descriptor's buffer, what is
written in `g_udp_rx_data` is inside the array, and the loops end. -/
theorem netPoll_inBuffer (n : NetDriver) (mem : Window) (descId timeMs : ℕ) :
    (∀ a ∈ (netPoll rxBufferLen descId timeMs n).log mem,
        descId < 4 ∧ InBuffer (rxBufferOffset descId) a) ∧
      (netPoll rxBufferLen descId timeMs n).val mem ≠ none := by
  by_cases hdesc : 4 ≤ descId
  · rw [netPoll, if_pos hdesc]
    refine ⟨?_, Option.some_ne_none _⟩
    intro a ha
    cases ha
  · rw [netPoll, if_neg hdesc]
    refine ⟨?_, receiveFrame_ne_none timeMs mem le_rfl⟩
    intro a ha
    exact ⟨by omega, within_receiveFrame rxBufferLen timeMs mem a ha⟩

end PsychWard.Net
