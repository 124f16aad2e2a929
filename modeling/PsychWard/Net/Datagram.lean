import PsychWard.Net.Frames

/-!
# What a datagram leaves behind

A datagram that answers no request is kept for `recv`. The driver takes its length from the length
field of the datagram, cuts it to the receive buffer and to its own array, and never asks how many
bytes the device has received. So what it keeps depends on the received bytes alone exactly when
everything that it looks at was received.
-/

namespace PsychWard.Net

open Traced

section
variable (mem : Window) (base : ℕ) (n : NetDriver)

/-- How many bytes of the datagram the driver keeps: what the length field says, cut to the buffer
and to the array. -/
def keptLen : ℕ :=
  min (udpRxSize - 1) (min (base + rxBufferLen - (transportOf mem base + udpHeader))
    ((be16 (transportOf mem base + 4)).val mem - udpHeader))

/-- The driver takes the frame for a datagram that answers no request. -/
structure IsPlain : Prop where
  ip : IsIp mem base 17
  dns : (be16 (transportOf mem base)).val mem ≠ 53
  ntp : ¬ ((be16 (transportOf mem base)).val mem = 123 ∧ n.ntpOutstanding = true)

/-- The driver after such a datagram. -/
def takeDatagram : NetDriver :=
  { n with
    udpRxData := Memory.put n.udpRxData 0
      (Memory.bytes mem (transportOf mem base + udpHeader) (keptLen mem base) ++ [0])
    udpRxLen := keptLen mem base
    udpRxSrcIp := ipSource mem base
    udpRxSrcPort := (be16 (transportOf mem base)).val mem
    udpRxReady := true }

/-- Everything that the driver looks at lies in the first `r` bytes of the buffer. -/
structure Received (r : ℕ) : Prop where
  source : payloadOf base + 16 ≤ base + r
  length : transportOf mem base + 6 ≤ base + r
  data : 0 < keptLen mem base →
    transportOf mem base + udpHeader + keptLen mem base ≤ base + r

end

/-- Two contents of a buffer of which the device has received `r` bytes. -/
def SameReceived (base r : ℕ) (mem mem' : Window) : Prop :=
  ∀ o, o < base + r ∨ base + rxBufferLen ≤ o → mem' o = mem o

/-- The datagram that is kept for `recv` is the same. -/
structure SameDatagram (n n' : NetDriver) : Prop where
  data : n'.udpRxData = n.udpRxData
  len : n'.udpRxLen = n.udpRxLen
  srcIp : n'.udpRxSrcIp = n.udpRxSrcIp
  srcPort : n'.udpRxSrcPort = n.udpRxSrcPort

/-! ## The datagram that is kept -/

section
variable {mem mem' : Window} {base : ℕ} {n : NetDriver}

theorem val_storeUdp (mem : Window) (data i : ℕ) (old : ℕ → UInt8) (k : ℕ) :
    (storeUdp data i old k).val mem =
      Memory.put old i (Memory.bytes mem (data + i) k ++ [0]) := by
  induction k generalizing i old with
  | zero => exact Memory.update_eq_put old i 0
  | succ k ih =>
    rw [storeUdp, val_bind, val_byte, val_bind, val_access, ih, Memory.update_eq_put,
      Memory.bytes_succ]
    exact Memory.put_put old i [mem (data + i)] _

theorem val_receiveDatagram (mem : Window) (base : ℕ) (n : NetDriver) :
    (receiveDatagram (base + rxBufferLen) (payloadOf base) (transportOf mem base) n).val mem =
      takeDatagram mem base n := by
  have hpayload : ∀ len, (if udpHeader < len then len - udpHeader else 0) = len - udpHeader := by
    intro len
    split <;> omega
  have havail : ∀ data, (if data < base + rxBufferLen then base + rxBufferLen - data else 0) =
      base + rxBufferLen - data := by
    intro data
    split <;> omega
  rw [receiveDatagram, val_bind, val_bind, val_storeUdp, val_bind, val_bind, val_pure, Nat.add_zero]
  simp only [hpayload, havail, ite_lt_eq_min]
  rfl

/-- What becomes of a plain datagram. -/
theorem netStep_plain {descId : ℕ} (hdesc : descId < 4) (timeMs : ℕ)
    (h : IsPlain mem (rxBufferOffset descId) n) :
    netStep n (.frame descId mem timeMs) = takeDatagram mem (rxBufferOffset descId) n := by
  have hval := val_receiveDatagram mem (rxBufferOffset descId) n
  have hdns := h.dns
  have hntp := h.ntp
  rw [transportOf] at hval hdns hntp
  rw [netStep, netPoll, if_neg (Nat.not_le.mpr hdesc), receiveFrame_udp h.ip, receiveUdp, val_bind,
    val_bind, val_ite, if_neg hdns, val_ite, if_neg hntp, val_map, hval]
  rfl

theorem takeDatagram_udpRxData (mem : Window) (base : ℕ) (n : NetDriver) :
    (takeDatagram mem base n).udpRxData = Memory.put n.udpRxData 0
      (Memory.bytes mem (transportOf mem base + udpHeader) (keptLen mem base) ++ [0]) := by
  simp only [takeDatagram]

theorem takeDatagram_data {k : ℕ} (hk : k < keptLen mem base) :
    (takeDatagram mem base n).udpRxData k = mem (transportOf mem base + udpHeader + k) := by
  have hput := Memory.put_of_mem (m := n.udpRxData) (i := 0) (k := k)
    (l := Memory.bytes mem (transportOf mem base + udpHeader) (keptLen mem base) ++ [0])
    (by rw [List.length_append, Memory.length_bytes]; omega)
  rw [Nat.zero_add] at hput
  rw [takeDatagram_udpRxData, hput, List.getD_append _ _ _ _ (by rwa [Memory.length_bytes]),
    Memory.getD_bytes hk]

/-- The bytes are stored with a NUL behind them. -/
theorem takeDatagram_nul (mem : Window) (base : ℕ) (n : NetDriver) :
    (takeDatagram mem base n).udpRxData (keptLen mem base) = 0 := by
  have hput := Memory.put_of_mem (m := n.udpRxData) (i := 0) (k := keptLen mem base)
    (l := Memory.bytes mem (transportOf mem base + udpHeader) (keptLen mem base) ++ [0])
    (by rw [List.length_append, Memory.length_bytes]; exact Nat.lt_succ_self _)
  rw [Nat.zero_add, List.getD_append_right _ _ _ _ (by rw [Memory.length_bytes]),
    Memory.length_bytes, Nat.sub_self] at hput
  rw [takeDatagram_udpRxData, hput, List.getD_cons_zero]

/-! ## Changing a byte -/

/-- The bytes that decide what the driver takes the frame for. -/
def headerOffsets (mem : Window) (base : ℕ) : List ℕ :=
  [base + 22, base + 23, payloadOf base, payloadOf base + 9, transportOf mem base,
    transportOf mem base + 1]

/-- A content with the same headers. -/
structure SameHeaders (mem mem' : Window) (base : ℕ) : Prop where
  transport : transportOf mem' base = transportOf mem base
  srcPort : (be16 (transportOf mem base)).val mem' = (be16 (transportOf mem base)).val mem
  plain : ∀ n, IsPlain mem base n → IsPlain mem' base n

theorem be16_congr {o : ℕ} (h₀ : mem' o = mem o) (h₁ : mem' (o + 1) = mem (o + 1)) :
    (be16 o).val mem' = (be16 o).val mem := by
  rw [be16, val_bind, val_bind, val_bind, val_bind, val_byte, val_byte, val_byte, val_byte, h₀, h₁]
  rfl

theorem sameHeaders (h : ∀ o ∈ headerOffsets mem base, mem' o = mem o) :
    SameHeaders mem mem' base := by
  simp only [headerOffsets, List.forall_mem_cons] at h
  obtain ⟨h22, h23, hihl, hprot, hport₀, hport₁, -⟩ := h
  have htype : etherType mem' base = etherType mem base := be16_congr h22 h23
  have htransport : transportOf mem' base = transportOf mem base := by
    rw [transportOf, transportOf, headerLength, val_bind, val_bind, val_byte, val_byte, hihl]
    rfl
  have hport := be16_congr hport₀ hport₁
  refine ⟨htransport, hport, fun n hn => ⟨⟨?_, ?_⟩, ?_, ?_⟩⟩
  · rw [htype, hn.ip.1]
  · rw [hprot, hn.ip.2]
  · rw [htransport, hport]
    exact hn.dns
  · rw [htransport, hport]
    exact hn.ntp

theorem SameHeaders.keptLen (h : SameHeaders mem mem' base)
    (h₀ : mem' (transportOf mem base + 4) = mem (transportOf mem base + 4))
    (h₁ : mem' (transportOf mem base + 5) = mem (transportOf mem base + 5)) :
    keptLen mem' base = keptLen mem base := by
  rw [Net.keptLen, Net.keptLen, h.transport, be16_congr h₀ h₁]

/-- The header behind the IP header starts a whole number of words behind its start, and its length
field lies well inside the buffer. -/
theorem transportOf_eq (mem : Window) (base : ℕ) :
    ∃ w ≤ 15, transportOf mem base = base + 24 + w * 4 :=
  ⟨(mem (payloadOf base)).toNat % 2 ^ 4, by omega, rfl⟩

theorem keptLen_le (mem : Window) (base : ℕ) :
    keptLen mem base = 0 ∨
      transportOf mem base + udpHeader + keptLen mem base ≤ base + rxBufferLen := by
  rw [keptLen]
  omega

/-! ## Received and other bytes -/

variable {r : ℕ}

theorem SameReceived.datagram (hsame : SameReceived base r mem mem') (h : Received mem base r) :
    SameHeaders mem mem' base ∧ SameDatagram (takeDatagram mem base n) (takeDatagram mem' base n) := by
  have hsource := h.source
  have hlength := h.length
  have hagree : ∀ o, o < base + r → mem' o = mem o := fun o ho => hsame o (.inl ho)
  obtain ⟨w, -, htransport⟩ := transportOf_eq mem base
  have hpayload : payloadOf base = base + 24 := rfl
  have hheaders : SameHeaders mem mem' base := by
    refine sameHeaders ?_
    simp only [headerOffsets, List.forall_mem_cons]
    refine ⟨hagree _ ?_, hagree _ ?_, hagree _ ?_, hagree _ ?_, hagree _ ?_, hagree _ ?_, by simp⟩ <;>
      omega
  have hkept := hheaders.keptLen (hagree _ (by omega)) (hagree _ (by omega))
  refine ⟨hheaders, ?_, hkept, ?_, ?_⟩
  · simp only [takeDatagram, hheaders.transport, hkept]
    rw [Memory.bytes_congr fun k hk => hagree _ ?_]
    have hdata := h.data (by omega)
    omega
  · simp only [takeDatagram, ipSource, val_bytes]
    exact Memory.bytes_congr fun k hk => hagree _ (by omega)
  · simp only [takeDatagram, hheaders.transport]
    exact hheaders.srcPort

/-- A byte that was not received may have been anything. -/
theorem sameReceived_update {pos : ℕ} (hr : base + r ≤ pos) (hpos : pos < base + rxBufferLen)
    (b : UInt8) : SameReceived base r mem (Function.update mem pos b) := fun o ho =>
  Function.update_of_ne (by omega) _ _

/-- A byte behind the headers leaves them as they are. -/
theorem sameHeaders_update {pos : ℕ} (hpos : base + 34 ≤ pos) (h₀ : pos ≠ transportOf mem base)
    (h₁ : pos ≠ transportOf mem base + 1) (b : UInt8) :
    SameHeaders mem (Function.update mem pos b) base := by
  have hpayload : payloadOf base = base + 24 := rfl
  refine sameHeaders ?_
  simp only [headerOffsets, List.forall_mem_cons]
  refine ⟨?_, ?_, ?_, ?_, ?_, ?_, by simp⟩ <;> exact Function.update_of_ne (by omega) _ _

/-- The last byte of the source address is kept. -/
theorem leak_source (h : ¬ payloadOf base + 16 ≤ base + r) : ∃ mem', SameReceived base r mem mem' ∧
    SameHeaders mem mem' base ∧ ¬ SameDatagram (takeDatagram mem base n) (takeDatagram mem' base n) := by
  obtain ⟨w, -, htransport⟩ := transportOf_eq mem base
  have hpayload : payloadOf base = base + 24 := rfl
  have hlen : rxBufferLen = 1536 := rfl
  refine ⟨Function.update mem (payloadOf base + 15) (mem (payloadOf base + 15) + 1),
    sameReceived_update (by omega) (by omega) _,
    sameHeaders_update (by omega) (by omega) (by omega) _, fun hsame => ?_⟩
  have hip := congrArg (List.getD · 3 0) hsame.srcIp
  simp only [takeDatagram, ipSource, val_bytes] at hip
  rw [Memory.getD_bytes (by decide), Memory.getD_bytes (by decide)] at hip
  rw [show payloadOf base + 12 + 3 = payloadOf base + 15 from rfl, Function.update_self] at hip
  exact absurd hip (by simp)

/-- The last byte of the data is kept. -/
theorem leak_data (hsource : payloadOf base + 16 ≤ base + r) (hkept : 0 < keptLen mem base)
    (h : base + r < transportOf mem base + udpHeader + keptLen mem base) :
    ∃ mem', SameReceived base r mem mem' ∧ SameHeaders mem mem' base ∧
      ¬ SameDatagram (takeDatagram mem base n) (takeDatagram mem' base n) := by
  have hpayload : payloadOf base = base + 24 := rfl
  have hudp : udpHeader = 8 := rfl
  have hle := keptLen_le mem base
  obtain ⟨k, hk⟩ := Nat.exists_eq_succ_of_ne_zero hkept.ne'
  have hheaders : SameHeaders mem (Function.update mem (transportOf mem base + udpHeader + k)
      (mem (transportOf mem base + udpHeader + k) + 1)) base :=
    sameHeaders_update (by omega) (by omega) (by omega) _
  have hkept' := hheaders.keptLen (Function.update_of_ne (by omega) _ _)
    (Function.update_of_ne (by omega) _ _)
  refine ⟨_, sameReceived_update (by omega) (by omega) _, hheaders, fun hsame => ?_⟩
  have hdata := congrFun hsame.data k
  rw [takeDatagram_data (by omega), takeDatagram_data (by omega), hheaders.transport,
    Function.update_self] at hdata
  exact absurd hdata (by simp)

/-- The length field itself was not received. -/
theorem leak_length (hsource : payloadOf base + 16 ≤ base + r) (hkept : keptLen mem base = 0)
    (h : base + r < transportOf mem base + 6) : ∃ mem', SameReceived base r mem mem' ∧
      SameHeaders mem mem' base ∧
      ¬ SameDatagram (takeDatagram mem base n) (takeDatagram mem' base n) := by
  have hpayload : payloadOf base = base + 24 := rfl
  have hbuffer : rxBufferLen = 1536 := rfl
  have hudp : udpHeader = 8 := rfl
  have hsize : udpRxSize = 256 := rfl
  obtain ⟨w, hw, htransport⟩ := transportOf_eq mem base
  have hval : ∀ m : Window, (be16 (transportOf mem base + 4)).val m =
      (m (transportOf mem base + 4)).toNat * 2 ^ 8 + (m (transportOf mem base + 5)).toNat :=
    fun _ => rfl
  have hheaders : SameHeaders mem (Function.update mem (transportOf mem base + 5) 9) base :=
    sameHeaders_update (by omega) (by omega) (by omega) _
  refine ⟨_, sameReceived_update (by omega) (by omega) _, hheaders, fun hsame => ?_⟩
  have hlen : keptLen (Function.update mem (transportOf mem base + 5) 9) base = keptLen mem base :=
    hsame.len
  have hnine : (9 : UInt8).toNat = 9 := rfl
  rw [hkept, keptLen, hheaders.transport, hval, Function.update_self, hnine] at hlen
  omega

/-- **What `recv` shows.** For a plain datagram of which `r` bytes were received, what the driver
keeps is the same for all contents with the same received bytes if and only if the bytes that it
looks at were received. -/
theorem sameDatagram_iff {descId : ℕ} (hdesc : descId < 4)
    (h : IsPlain mem (rxBufferOffset descId) n) :
    (∀ mem', SameReceived (rxBufferOffset descId) r mem mem' → ∀ timeMs,
        SameDatagram (netStep n (.frame descId mem timeMs))
          (netStep n (.frame descId mem' timeMs))) ↔
      Received mem (rxBufferOffset descId) r := by
  constructor
  · intro hall
    by_contra hno
    have hleak : ∃ mem', SameReceived (rxBufferOffset descId) r mem mem' ∧
        SameHeaders mem mem' (rxBufferOffset descId) ∧
        ¬ SameDatagram (takeDatagram mem (rxBufferOffset descId) n)
          (takeDatagram mem' (rxBufferOffset descId) n) := by
      by_cases hsource : payloadOf (rxBufferOffset descId) + 16 ≤ rxBufferOffset descId + r
      · have hudp : udpHeader = 8 := rfl
        by_cases hkept : keptLen mem (rxBufferOffset descId) = 0
        · exact leak_length hsource hkept (Nat.lt_of_not_le fun hlen =>
            hno ⟨hsource, hlen, fun hpos => absurd hkept hpos.ne'⟩)
        · refine leak_data hsource (Nat.pos_of_ne_zero hkept) (Nat.lt_of_not_le fun hdata => ?_)
          exact hno ⟨hsource, by omega, fun _ => hdata⟩
      · exact leak_source hsource
    obtain ⟨mem', hsame, hheaders, hdiff⟩ := hleak
    have hstep := hall mem' hsame 0
    rw [netStep_plain hdesc 0 h, netStep_plain hdesc 0 (hheaders.plain n h)] at hstep
    exact hdiff hstep
  · intro hreceived mem' hsame timeMs
    obtain ⟨hheaders, hdatagram⟩ := hsame.datagram (n := n) hreceived
    rw [netStep_plain hdesc timeMs h, netStep_plain hdesc timeMs (hheaders.plain n h)]
    exact hdatagram

end

/-- A datagram from port 1234; its length field says that it has nine bytes. -/
def datagramWindow : Window :=
  windowAt 0x2800 (List.replicate 22 0 ++ [8, 0, 0x45, 0, 0, 0, 0, 0, 0, 0, 64, 17, 0, 0, 10, 0, 2, 2,
    10, 0, 2, 15, 4, 210, 31, 144, 0, 9, 0, 0, 33])

theorem isPlain_datagram : IsPlain datagramWindow (rxBufferOffset 0) (.start 0) :=
  ⟨⟨by decide +kernel, by decide +kernel⟩, by decide +kernel, by decide +kernel⟩

/-- All 53 bytes were received, and the buffer holds an old packet behind them. -/
theorem sameDatagram_whole : SameDatagram (netStep (.start 0) (.frame 0 datagramWindow 0))
    (netStep (.start 0) (.frame 0 (Function.update datagramWindow 0x2835 7) 0)) := by
  have hreceived : Received datagramWindow (rxBufferOffset 0) 53 :=
    ⟨by decide +kernel, by decide +kernel, by decide +kernel⟩
  exact (sameDatagram_iff (by decide) isPlain_datagram).mpr hreceived _
    (sameReceived_update (by decide) (by decide) 7) 0

/-- The device has received the headers alone: the byte behind them is an old one. -/
theorem not_sameDatagram_short : ¬ ∀ (mem mem' : Window) (descId r timeMs : ℕ) (n : NetDriver),
    descId < 4 → IsPlain mem (rxBufferOffset descId) n → IsPlain mem' (rxBufferOffset descId) n →
      SameReceived (rxBufferOffset descId) r mem mem' →
      SameDatagram (netStep n (.frame descId mem timeMs)) (netStep n (.frame descId mem' timeMs)) := by
  intro h
  obtain ⟨mem', hsame, hheaders, hdiff⟩ :=
    @leak_data datagramWindow (rxBufferOffset 0) (.start 0) 52 (by decide +kernel)
      (by decide +kernel) (by decide +kernel)
  have hplain := isPlain_datagram
  have hstep := h _ mem' 0 52 0 (.start 0) (by decide) hplain (hheaders.plain _ hplain) hsame
  rw [netStep_plain (by decide) 0 hplain, netStep_plain (by decide) 0 (hheaders.plain _ hplain)]
    at hstep
  exact hdiff hstep

end PsychWard.Net
