import PsychWard.Net.BootSync
import PsychWard.Clock.Synchronisation
import Mathlib.Data.List.Induction

/-!
# The range of the clock arithmetic

The two drivers together, with the clock register read anew for each call. The timer driver computes
the corrected time in signed seconds, but it answers in unsigned milliseconds, and the network driver
divides these: a time before 1970 arrives as a second count near `2 ^ 64 / 1000`. `shownSeconds` is
that count. The offset formula has room for it. The offset that comes out of it may be too far below
zero for the product of the next `SYS_GET_TIME`, and `KeepsRange` says when it is not.
-/

namespace PsychWard.Net

open Clock Clock.NtpClient

/-- The value of a signed 64-bit expression that does not overflow. -/
def Fits64 (x : ℤ) : Prop := -2 ^ 63 ≤ x ∧ x < 2 ^ 63

/-- The call, made when the timer answers `timeMs`. -/
def NetEvent.askedAt (timeMs : ℕ) : NetEvent → NetEvent
  | .frame descId mem _ => .frame descId mem timeMs
  | .command m _ => .command m timeMs
  | .turn => .turn
  | .pingTimeout _ => .pingTimeout timeMs
  | .pingSend _ => .pingSend timeMs
  | .ntpResync _ uptimeMs => .ntpResync timeMs uptimeMs
  | .bootTimeout uptimeMs => .bootTimeout uptimeMs

/-- The two drivers. -/
structure Clocks where
  timer : TimerDriver
  net : NetDriver

namespace Clocks

def start (rtcDr uptimeMs : ℕ) : Clocks := ⟨.start rtcDr, .start uptimeMs⟩

/-- A call of the network driver's main loop while the clock register reads `rtcDr`. The timer driver
serves the `SYS_SET_TIME_OFFSET` calls that are made in it. -/
def call (c : Clocks) (rtcDr : ℕ) (e : NetEvent) : Clocks :=
  let net := netStep c.net (e.askedAt (c.timer.getTime rtcDr))
  { timer := (net.setOffsets.drop c.net.setOffsets.length).foldl
      (fun t offset => (t.serve rtcDr netDriverPid sysSetTimeOffset offset).2) c.timer
    net := net }

/-- The register is 32 bits wide. -/
def Step (c : Clocks) (e : ℕ × NetEvent) (c' : Clocks) : Prop :=
  e.1 < 2 ^ 32 ∧ c.call e.1 e.2 = c'

/-- No reading of the register and no reply makes an expression overflow: neither the corrected time
and its product with 1000, nor the sum in the offset formula. -/
structure ArithmeticFits (c : Clocks) : Prop where
  corrected : ∀ rtcDr < 2 ^ 32, Fits64 ((rtcDr : ℕ) + c.timer.ntpOffsetSeconds)
  product : ∀ rtcDr < 2 ^ 32, Fits64 (((rtcDr : ℕ) + c.timer.ntpOffsetSeconds) * 1000)
  formula : c.net.ntpOutstanding = true → ∀ rtcDr < 2 ^ 32, ∀ p : NtpPacket,
    p.rxTsSec < 2 ^ 32 → p.txTsSec < 2 ^ 32 →
      Fits64 (wrap64 ((toWord (p.rxTsSec - ntpUnixEpochDelta) : ℤ) - c.net.ntpT1EpochS) +
        wrap64 ((toWord (p.txTsSec - ntpUnixEpochDelta) : ℤ) -
          (c.timer.getTime rtcDr / 1000 : ℕ)))

end Clocks

/-! ## Times before 1970 -/

/-- The whole seconds in `2 ^ 64` milliseconds. -/
def wordSeconds : ℤ := 18446744073709551

/-- The first second whose product with 1000 fits. -/
def firstSecond : ℤ := -9223372036854775

/-- What the network driver takes for the second `c` of the corrected clock. -/
def shownSeconds (c : ℤ) : ℤ := if 0 ≤ c then c else c + wordSeconds

/-- The second of the corrected clock that the network driver keeps as `t`. -/
def dateOf (t : ℕ) : ℤ := if (t : ℤ) ≤ -firstSecond then t else t - wordSeconds

/-- The sum of the two timestamps of a reply, from 1970 on. -/
def serverSeconds (p : NtpPacket) : ℤ :=
  (p.rxTsSec - ntpUnixEpochDelta) + (p.txTsSec - ntpUnixEpochDelta)

/-- The clock is not before 1970 at either end of the exchange, or it is so at one end and its two
times are not later than the server's; when it is so at both ends, they are far before the server's. -/
def KeepsRange (sent received server : ℤ) : Prop :=
  if sent < 0 ∧ received < 0 then sent + received + wordSeconds ≤ server
  else if sent < 0 ∨ received < 0 then sent + received ≤ server
  else True

/-- A reply that the driver accepts keeps the range. -/
def Admissible (c : Clocks) : ℕ × NetEvent → Prop
  | (rtcDr, .frame descId mem timeMs) => TakesNtpReply c.net (.frame descId mem timeMs) →
    (ntpPacketOf mem (rxBufferOffset descId)).accepted = true →
      KeepsRange (dateOf c.net.ntpT1EpochS) (rtcDr + c.timer.ntpOffsetSeconds)
        (serverSeconds (ntpPacketOf mem (rxBufferOffset descId)))
  | _ => True

section
variable {t : ℕ} {c sent received server : ℤ}

theorem shownSeconds_le (hhigh : c < 2 ^ 34) : shownSeconds c ≤ wordSeconds := by
  rw [shownSeconds, wordSeconds]
  split <;> omega

theorem dateOf_shownSeconds (hlow : firstSecond ≤ c) (hhigh : c < 2 ^ 34)
    (h : (t : ℤ) = shownSeconds c) : dateOf t = c := by
  rw [firstSecond] at hlow
  rw [shownSeconds] at h
  by_cases hc : 0 ≤ c
  · rw [if_pos hc] at h
    rw [dateOf, if_pos (by rw [firstSecond]; omega), h]
  · rw [if_neg hc, wordSeconds] at h
    rw [dateOf, if_neg (by rw [firstSecond]; omega), wordSeconds]
    omega

/-- Half of a number, rounded towards zero. -/
theorem tdiv_two (x : ℤ) : (0 ≤ x ∧ 2 * x.tdiv 2 ≤ x ∧ x ≤ 2 * x.tdiv 2 + 1) ∨
    (x ≤ 0 ∧ x ≤ 2 * x.tdiv 2 ∧ 2 * x.tdiv 2 ≤ x + 1) := by
  rcases Int.le_total 0 x with hx | hx
  · rw [Int.tdiv_eq_ediv_of_nonneg hx]
    omega
  · have hneg : x.tdiv 2 = -(-x / 2) := by
      rw [← Int.tdiv_eq_ediv_of_nonneg (by omega), Int.neg_tdiv, neg_neg]
    rw [hneg]
    omega

/-- The condition says that the offset, as the formula has it, is no second before the first. -/
theorem keepsRange_iff (hsent : firstSecond ≤ sent ∧ sent < 2 ^ 34)
    (hreceived : firstSecond ≤ received ∧ received < 2 ^ 34) (hserver : -2 ^ 33 ≤ server) :
    KeepsRange sent received server ↔
      firstSecond ≤ (server - shownSeconds sent - shownSeconds received).tdiv 2 := by
  have hdiv : ∀ x : ℤ, firstSecond ≤ x.tdiv 2 ↔ -wordSeconds ≤ x := by
    intro x
    have hx := tdiv_two x
    simp only [firstSecond, wordSeconds]
    omega
  rw [hdiv]
  simp only [KeepsRange, shownSeconds, wordSeconds, firstSecond] at *
  by_cases hs : sent < 0
  · rw [if_neg (not_le.mpr hs)]
    by_cases hr : received < 0
    · rw [if_pos ⟨hs, hr⟩, if_neg (not_le.mpr hr)]
      omega
    · rw [if_neg (fun h => hr h.2), if_pos (.inl hs), if_pos (not_lt.mp hr)]
      omega
  · rw [if_pos (not_lt.mp hs)]
    by_cases hr : received < 0
    · rw [if_neg (fun h => hs h.1), if_pos (.inr hr), if_neg (not_le.mpr hr)]
      omega
    · rw [if_neg (fun h => hs h.1), if_neg (not_or.mpr ⟨hs, hr⟩), if_pos (not_lt.mp hr)]
      exact ⟨fun _ => by omega, fun _ => trivial⟩

/-- A difference of the formula, computed in unsigned words, is the difference of the numbers. -/
theorem wrap64_toWord_sub {x : ℤ} (hlow : -2 ^ 33 ≤ x) (hhigh : x < 2 ^ 33)
    (ht : (t : ℤ) ≤ wordSeconds) : wrap64 ((toWord x : ℤ) - t) = x - t := by
  have hword : (toWord x : ℤ) = x % 2 ^ 64 := Int.toNat_of_nonneg (Int.emod_nonneg _ (by norm_num))
  have hmod : wrap64 (x % 2 ^ 64 - t) = wrap64 (x - t) := Int.emod_sub_bmod x (2 ^ 64)
  rw [hword, hmod]
  simp only [wordSeconds] at ht
  exact wrap64_eq_self (by omega) (by omega)

theorem toWord_mul_div (hlow : firstSecond ≤ c) (hhigh : c < 2 ^ 34) :
    ((toWord (c * 1000) / 1000 : ℕ) : ℤ) = shownSeconds c := by
  simp only [shownSeconds, toWord, wordSeconds, firstSecond] at *
  by_cases hc : 0 ≤ c
  · have hmod : c * 1000 % 2 ^ 64 = c * 1000 := Int.emod_eq_of_lt (by omega) (by omega)
    rw [if_pos hc, hmod]
    omega
  · have hmod : c * 1000 % 2 ^ 64 = c * 1000 + 2 ^ 64 := by
      rw [← Int.add_emod_right, Int.emod_eq_of_lt (by omega) (by omega)]
    rw [if_neg hc, hmod]
    omega

theorem getTime_seconds (timer : TimerDriver) (rtcDr : ℕ)
    (hlow : firstSecond ≤ rtcDr + timer.ntpOffsetSeconds)
    (hhigh : rtcDr + timer.ntpOffsetSeconds < 2 ^ 34) :
    ((timer.getTime rtcDr / 1000 : ℕ) : ℤ) = shownSeconds (rtcDr + timer.ntpOffsetSeconds) := by
  have hlow' := hlow
  rw [firstSecond] at hlow'
  have hsum : wrap64 (rtcDr + timer.ntpOffsetSeconds) = rtcDr + timer.ntpOffsetSeconds :=
    wrap64_eq_self (by omega) (by omega)
  have hproduct : wrap64 ((rtcDr + timer.ntpOffsetSeconds) * 1000) =
      (rtcDr + timer.ntpOffsetSeconds) * 1000 := wrap64_eq_self (by omega) (by omega)
  rw [← toWord_mul_div hlow hhigh, ← hproduct, ← hsum]
  rfl

theorem getTime_le (timer : TimerDriver) (rtcDr : ℕ) :
    ((timer.getTime rtcDr / 1000 : ℕ) : ℤ) ≤ wordSeconds := by
  simp only [TimerDriver.getTime, toWord, wordSeconds]
  omega

end

/-! ## The formula -/

section
variable {t1 t4 : ℕ} {p : NtpPacket}

/-- The two differences of the formula have room, and so has their sum. -/
theorem offsetS_tdiv (ht1 : (t1 : ℤ) ≤ wordSeconds) (ht4 : (t4 : ℤ) ≤ wordSeconds)
    (hrx : p.rxTsSec < 2 ^ 32) (htx : p.txTsSec < 2 ^ 32) :
    Fits64 (wrap64 ((toWord (p.rxTsSec - ntpUnixEpochDelta) : ℤ) - t1) +
        wrap64 ((toWord (p.txTsSec - ntpUnixEpochDelta) : ℤ) - t4)) ∧
      offsetS t1 t4 p = (serverSeconds p - t1 - t4).tdiv 2 := by
  have hdelta : ntpUnixEpochDelta = 2208988800 := rfl
  have hsent : wrap64 ((toWord (p.rxTsSec - ntpUnixEpochDelta) : ℤ) - t1) =
      p.rxTsSec - ntpUnixEpochDelta - t1 := wrap64_toWord_sub (by omega) (by omega) ht1
  have hreceived : wrap64 ((toWord (p.txTsSec - ntpUnixEpochDelta) : ℤ) - t4) =
      p.txTsSec - ntpUnixEpochDelta - t4 := wrap64_toWord_sub (by omega) (by omega) ht4
  rw [wordSeconds] at ht1 ht4
  have hfits : Fits64 ((p.rxTsSec - ntpUnixEpochDelta - t1 : ℤ) +
      (p.txTsSec - ntpUnixEpochDelta - t4)) := ⟨by omega, by omega⟩
  rw [hsent, hreceived]
  refine ⟨hfits, ?_⟩
  simp only [offsetS, hsent, hreceived, wrap64_eq_self hfits.1 hfits.2, serverSeconds]
  congr 1
  omega

theorem ntpPacketOf_lt (mem : Window) (base : ℕ) :
    (ntpPacketOf mem base).rxTsSec < 2 ^ 32 ∧ (ntpPacketOf mem base).txTsSec < 2 ^ 32 := by
  have hword : ∀ offset, (be32 offset).val mem < 2 ^ 32 := by
    intro offset
    have h0 := (mem offset).toNat_lt
    have h1 := (mem (offset + 1)).toNat_lt
    have h2 := (mem (offset + 2)).toNat_lt
    have h3 := (mem (offset + 2 + 1)).toNat_lt
    simp only [be32, be16, byte, Traced.val_bind, Traced.val_access, Traced.val_pure]
    omega
  rw [ntpPacketOf, ntpPacket, Traced.val_ite]
  split
  · rw [Traced.val_pure]
    exact ⟨by norm_num, by norm_num⟩
  · simp only [Traced.val_bind, Traced.val_pure]
    exact ⟨hword _, hword _⟩

end

/-! ## The two drivers -/

section
variable {c : Clocks} {rtcDr : ℕ} {e : NetEvent}

/-- What keeps the formula from overflowing, whatever the offset is. -/
structure ClockBound (c : Clocks) : Prop where
  high : c.timer.ntpOffsetSeconds < 2 ^ 33
  t1 : c.net.ntpOutstanding = true → (c.net.ntpT1EpochS : ℤ) ≤ wordSeconds

/-- Only an offset far below zero makes the product overflow. -/
theorem ClockBound.fits_iff (h : ClockBound c) :
    c.ArithmeticFits ↔ firstSecond ≤ c.timer.ntpOffsetSeconds := by
  have hhigh := h.high
  constructor
  · intro hfits
    obtain ⟨hlow, -⟩ := hfits.product 0 (by norm_num)
    rw [firstSecond]
    push_cast at hlow
    omega
  · intro hlow
    rw [firstSecond] at hlow
    refine ⟨fun r hr => ⟨by omega, by omega⟩, fun r hr => ⟨by omega, by omega⟩, ?_⟩
    intro hout r hr p hrx htx
    exact (offsetS_tdiv (h.t1 hout) (getTime_le _ r) hrx htx).1

/-- The invariant: the offset is not too far below zero, and the T1 of an outstanding request is a
second that was read from such a clock. -/
structure RangeInv (c : Clocks) : Prop where
  low : firstSecond ≤ c.timer.ntpOffsetSeconds
  high : c.timer.ntpOffsetSeconds < 2 ^ 33
  t1 : c.net.ntpOutstanding = true →
    ∃ d, firstSecond ≤ d ∧ d < 2 ^ 34 ∧ (c.net.ntpT1EpochS : ℤ) = shownSeconds d

theorem RangeInv.bound (h : RangeInv c) : ClockBound c := by
  refine ⟨h.high, fun hout => ?_⟩
  obtain ⟨d, -, hhigh, ht1⟩ := h.t1 hout
  exact ht1 ▸ shownSeconds_le hhigh

theorem rangeInv_start (rtcDr uptimeMs : ℕ) : RangeInv (.start rtcDr uptimeMs) :=
  ⟨show firstSecond ≤ 0 by decide, show (0 : ℤ) < 2 ^ 33 by omega, fun hout => by cases hout⟩

theorem takesNtpReply_askedAt {n : NetDriver} (timeMs : ℕ) :
    TakesNtpReply n (e.askedAt timeMs) ↔ TakesNtpReply n e := by
  cases e <;> rfl

/-- A call that takes no reply is admissible. -/
theorem admissible_of_no_reply (rtcDr : ℕ) (h : ¬ TakesNtpReply c.net e) : Admissible c (rtcDr, e) := by
  cases e with
  | frame => exact fun hreply => absurd hreply h
  | command | turn | pingTimeout | pingSend | ntpResync | bootTimeout => trivial

theorem Clocks.call_timer (h : (c.call rtcDr e).net.setOffsets = c.net.setOffsets) :
    (c.call rtcDr e).timer = c.timer := by
  have hdrop : (c.call rtcDr e).net.setOffsets.drop c.net.setOffsets.length = [] := by
    rw [h, List.drop_length]
  rw [Clocks.call] at hdrop ⊢
  simp only [hdrop, List.foldl_nil]

/-- A reply that the driver accepts sets the clock to the offset of the formula. -/
theorem Clocks.call_reply (rtcDr : ℕ) {descId timeMs : ℕ} {mem : Window}
    (h : TakesNtpReply c.net (.frame descId mem timeMs))
    (hacc : (ntpPacketOf mem (rxBufferOffset descId)).accepted = true) :
    (c.call rtcDr (.frame descId mem timeMs)).timer.ntpOffsetSeconds =
      wrap64 (offsetS c.net.ntpT1EpochS (c.timer.getTime rtcDr / 1000)
        (ntpPacketOf mem (rxBufferOffset descId))) := by
  obtain ⟨hdesc, hudp, hout⟩ := h
  have hoffset := c.net.toNtpClient.pollNtpReply_offset (ntpPacketOf mem (rxBufferOffset descId))
    (c.timer.getTime rtcDr)
  rw [if_pos (by rw [hout, hacc]; rfl)] at hoffset
  have hserve := fun offset => c.timer.serve_setTimeOffset netDriverPid_ne rtcDr offset
  rw [Clocks.call, NetEvent.askedAt, netStep_ntp hdesc hudp hout]
  simp only [takeNtp, hoffset, Option.toList_some, List.drop_left, List.foldl_cons, List.foldl_nil,
    hserve]

/-- What one call leaves: the formula has room, the offset is in range exactly when the call is
admissible, and a request remembers a second of a clock in range. -/
structure CallKeeps (c : Clocks) (rtcDr : ℕ) (e : NetEvent) (c' : Clocks) : Prop where
  high : c'.timer.ntpOffsetSeconds < 2 ^ 33
  low : firstSecond ≤ c'.timer.ntpOffsetSeconds ↔ Admissible c (rtcDr, e)
  t1 : c'.net.ntpOutstanding = true →
    ∃ d, firstSecond ≤ d ∧ d < 2 ^ 34 ∧ (c'.net.ntpT1EpochS : ℤ) = shownSeconds d

/-- A call that sets no clock keeps the range; the request that it may send reads the clock. -/
theorem RangeInv.call_same (h : RangeInv c) (hr : rtcDr < 2 ^ 32) (hadm : Admissible c (rtcDr, e))
    (hoffsets : (c.call rtcDr e).net.setOffsets = c.net.setOffsets)
    (hreq : RequestStep c.net.toNtpClient (c.call rtcDr e).net.toNtpClient
      (e.askedAt (c.timer.getTime rtcDr)).timeMs) : CallKeeps c rtcDr e (c.call rtcDr e) := by
  have htimer := Clocks.call_timer hoffsets
  have hlow := h.low
  have hhigh := h.high
  refine ⟨by rw [htimer]; exact hhigh, by rw [htimer]; exact iff_of_true hlow hadm, fun hout => ?_⟩
  rcases hreq with ⟨hsame, ht1, -⟩ | ⟨hnone, -⟩ | ⟨-, ht1, -⟩
  · rw [ht1]
    exact h.t1 (hsame ▸ hout)
  · rw [hnone] at hout
    cases hout
  · have htime : (e.askedAt (c.timer.getTime rtcDr)).timeMs = c.timer.getTime rtcDr ∨
        (e.askedAt (c.timer.getTime rtcDr)).timeMs = 0 := by
      cases e with
      | turn | bootTimeout => exact .inr rfl
      | frame | command | pingTimeout | pingSend | ntpResync => exact .inl rfl
    rcases htime with htime | htime
    · rw [ht1, htime]
      exact ⟨_, by omega, by omega, getTime_seconds _ _ (by omega) (by omega)⟩
    · rw [ht1, htime]
      exact ⟨0, by decide, by omega, rfl⟩

theorem RangeInv.call_reply (h : RangeInv c) (hr : rtcDr < 2 ^ 32) {descId timeMs : ℕ}
    {mem : Window} (hreply : TakesNtpReply c.net (.frame descId mem timeMs)) :
    CallKeeps c rtcDr (.frame descId mem timeMs) (c.call rtcDr (.frame descId mem timeMs)) := by
  have hnet : (c.call rtcDr (.frame descId mem timeMs)).net =
      takeNtp c.net (ntpPacketOf mem (rxBufferOffset descId)) (c.timer.getTime rtcDr) :=
    netStep_ntp hreply.1 hreply.2.1 hreply.2.2
  have hdone : (c.call rtcDr (.frame descId mem timeMs)).net.ntpOutstanding = false := by
    rw [hnet]
    exact pollNtpReply_outstanding _ _ _
  have hlow := h.low
  have hhigh := h.high
  by_cases hacc : (ntpPacketOf mem (rxBufferOffset descId)).accepted = true
  · obtain ⟨d, hdlow, hdhigh, ht1⟩ := h.t1 hreply.2.2
    obtain ⟨hrx, htx⟩ := ntpPacketOf_lt mem (rxBufferOffset descId)
    have ht4 := getTime_seconds c.timer rtcDr (by omega) (by omega)
    have hoffset := Clocks.call_reply rtcDr hreply hacc
    have hval := (offsetS_tdiv (h.bound.t1 hreply.2.2) (getTime_le c.timer rtcDr) hrx htx).2
    have hserver : -2 ^ 33 ≤ serverSeconds (ntpPacketOf mem (rxBufferOffset descId)) ∧
        serverSeconds (ntpPacketOf mem (rxBufferOffset descId)) < 2 ^ 33 := by
      rw [serverSeconds, ntpUnixEpochDelta]
      omega
    -- what the call admits, in terms of the offset: the day shown must not leave the range
    have hadm : Admissible c (rtcDr, .frame descId mem timeMs) ↔
        KeepsRange d (rtcDr + c.timer.ntpOffsetSeconds)
          (serverSeconds (ntpPacketOf mem (rxBufferOffset descId))) := by
      rw [← dateOf_shownSeconds hdlow hdhigh ht1]
      exact ⟨fun h => h hreply hacc, fun h _ _ => h⟩
    have hrange := keepsRange_iff ⟨hdlow, hdhigh⟩
      (show _ ≤ rtcDr + c.timer.ntpOffsetSeconds ∧ _ from ⟨by omega, by omega⟩) hserver.1
    rw [← ht1, ← ht4] at hrange
    have hhalf := tdiv_two (serverSeconds (ntpPacketOf mem (rxBufferOffset descId)) -
      c.net.ntpT1EpochS - (c.timer.getTime rtcDr / 1000 : ℕ))
    have hbound := h.bound.t1 hreply.2.2
    have hbound' := getTime_le c.timer rtcDr
    rw [wordSeconds] at hbound hbound'
    rw [hval, wrap64_eq_self (by omega) (by omega)] at hoffset
    refine ⟨?_, ?_, fun hout => by rw [hdone] at hout; cases hout⟩
    · rw [hoffset]
      omega
    · rw [hoffset, hadm, hrange]
  -- a reply that is not accepted leaves the offset
  · have hoffset := c.net.toNtpClient.pollNtpReply_offset (ntpPacketOf mem (rxBufferOffset descId))
      (c.timer.getTime rtcDr)
    rw [if_neg (by simp [hacc])] at hoffset
    refine h.call_same hr (fun _ h => absurd h hacc) ?_ (.inr (.inl ⟨hdone, ?_⟩))
    · rw [hnet, takeNtp, hoffset, Option.toList_none, List.append_nil]
    · rw [hnet]
      exact pollNtpReply_requestsSent _ _ _

theorem RangeInv.call (h : RangeInv c) (hr : rtcDr < 2 ^ 32) (e : NetEvent) :
    CallKeeps c rtcDr e (c.call rtcDr e) := by
  by_cases hreply : TakesNtpReply c.net e
  · cases e with
    | frame descId mem timeMs => exact h.call_reply hr hreply
    | command | turn | pingTimeout | pingSend | ntpResync | bootTimeout => exact hreply.elim
  · have hadm := admissible_of_no_reply rtcDr hreply
    have heffect := netStep_client c.net (e.askedAt (c.timer.getTime rtcDr))
    generalize hnet : netStep c.net (e.askedAt (c.timer.getTime rtcDr)) = n' at heffect
    have hcall : (c.call rtcDr e).net = n' := hnet
    cases heffect with
    | quiet _ _ hquiet =>
      rw [← hcall] at hquiet
      exact h.call_same hr hadm hquiet.setOffsets hquiet.request
    | reply _ _ _ _ htakes => exact absurd ((takesNtpReply_askedAt _).mp htakes) hreply
    | deadline =>
      refine h.call_same hr hadm ?_ (.inr (.inl ?_))
      · rw [hcall]
      · rw [hcall]
        exact ⟨rfl, rfl⟩

end

/-! ## Runs -/

section
variable {c : Clocks} {rtcDr uptimeMs : ℕ} {es : List (ℕ × NetEvent)}

theorem CallKeeps.bound {e : NetEvent} {c' : Clocks} (h : CallKeeps c rtcDr e c') :
    ClockBound c' := by
  refine ⟨h.high, fun hout => ?_⟩
  obtain ⟨d, -, hhigh, ht1⟩ := h.t1 hout
  exact ht1 ▸ shownSeconds_le hhigh

theorem rangeInv_of_run (h : Run (guarded Clocks.Step Admissible) (.start rtcDr uptimeMs) es c) :
    RangeInv c := by
  refine h.invariant (I := RangeInv) ?_ (rangeInv_start rtcDr uptimeMs)
  rintro c ⟨r, e⟩ _ hinv ⟨hadm, hr, rfl⟩
  have hkeeps := hinv.call hr e
  exact ⟨hkeeps.low.mpr hadm, hkeeps.high, hkeeps.t1⟩

/-- As long as every accepted reply is admissible nothing overflows, and the first one that is not
makes the arithmetic overflow. -/
theorem clockArithmetic_fits
    (h : Run (guarded Clocks.Step Admissible) (.start rtcDr uptimeMs) es c) :
    c.ArithmeticFits ∧
      ∀ r < 2 ^ 32, ∀ e, (c.call r e).ArithmeticFits ↔ Admissible c (r, e) := by
  have hinv := rangeInv_of_run h
  refine ⟨hinv.bound.fits_iff.mpr hinv.low, fun r hr e => ?_⟩
  have hkeeps := hinv.call hr e
  rw [hkeeps.bound.fits_iff, hkeeps.low]

end

/-! The clock is right in 2023, and the timestamps start again from zero in 2036. -/

/-- Calls that are all made while the register reads `rtcDr`. -/
def callsAt (rtcDr : ℕ) (es : List NetEvent) : Clocks :=
  es.foldl (fun c e => c.call rtcDr e) (.start rtcDr 0)

theorem callsAt_run {rtcDr : ℕ} (hr : rtcDr < 2 ^ 32) (es : List NetEvent) :
    Run Clocks.Step (.start rtcDr 0) (es.map fun e => (rtcDr, e)) (callsAt rtcDr es) := by
  induction es using List.reverseRecOn with
  | nil => exact .nil
  | append_singleton es e ih =>
    rw [List.map_append, callsAt, List.foldl_append]
    exact ih.snoc ⟨hr, rfl⟩

/-- An SNTP reply with `seconds` in both timestamps. -/
def ntpReplyAt (seconds : List UInt8) : Window :=
  windowAt 0x2800 (List.replicate 22 0 ++ [8, 0, 0x45, 0, 0, 0, 0, 0, 0, 0, 64, 17, 0, 0] ++
    ntpServerIp ++ [10, 0, 2, 15, 0, 123, 195, 203, 0, 56, 0, 0, 0x24, 1] ++ List.replicate 30 0 ++
      seconds ++ [0, 0, 0, 0] ++ seconds ++ [0, 0, 0, 0])

/-- The driver right after the gateway has answered, in November 2023. -/
def gatewayKnown : Clocks := callsAt 1700000000 [.frame 0 (arpReplyFrom gatewayIp) 0]

/-- The answer to its boot-time request. -/
def bootReply : ℕ × NetEvent := (1700000000, .frame 0 (ntpReplyAt [0xE8, 0xFD, 0x7F, 0x80]) 0)

theorem bootReply_admissible : Admissible gatewayKnown bootReply := by
  have hsent : dateOf gatewayKnown.net.ntpT1EpochS = 1700000000 := by decide +kernel
  have hoffset : gatewayKnown.timer.ntpOffsetSeconds = 0 := by decide +kernel
  intro _ _
  rw [hsent, hoffset, KeepsRange, if_neg (by omega), if_neg (by omega)]
  trivial

theorem bootReply_run : Run (guarded Clocks.Step Admissible) (.start 1700000000 0)
    [(1700000000, .frame 0 (arpReplyFrom gatewayIp) 0), bootReply]
    (gatewayKnown.call bootReply.1 bootReply.2) := by
  refine .cons (t := gatewayKnown) ⟨?_, ?_, rfl⟩ (.single ⟨bootReply_admissible, ?_, rfl⟩)
  · exact fun h => absurd h.2.2 (by decide)
  · exact show 1700000000 < 2 ^ 32 by omega
  · exact show 1700000000 < 2 ^ 32 by omega

theorem clockArithmetic_fits_bootReply :
    (gatewayKnown.call bootReply.1 bootReply.2).ArithmeticFits ∧ ∀ r < 2 ^ 32, ∀ e,
      ((gatewayKnown.call bootReply.1 bootReply.2).call r e).ArithmeticFits ↔
        Admissible (gatewayKnown.call bootReply.1 bootReply.2) (r, e) :=
  clockArithmetic_fits bootReply_run

/-- Two synchronisations four seconds into the second era of the timestamps. -/
def eraTwo : List NetEvent :=
  [.frame 0 (arpReplyFrom gatewayIp) 0, .frame 0 (ntpReplyAt [0, 0, 0, 4]) 0,
    .command ⟨4, .ntp, 0⟩ 0, .frame 0 (ntpReplyAt [0, 0, 0, 4]) 0]

theorem not_arithmeticFits_eraTwo : ¬ ∀ (rtcDr uptimeMs : ℕ) (es : List (ℕ × NetEvent))
    (c : Clocks), Run Clocks.Step (.start rtcDr uptimeMs) es c → c.ArithmeticFits := by
  intro h
  have hr : 2085978500 < 2 ^ 32 := by omega
  have hfits := h _ _ _ _ (callsAt_run hr eraTwo)
  have hoffset : (callsAt 2085978500 eraTwo).timer.ntpOffsetSeconds = -18446744073709551 := by
    decide +kernel
  obtain ⟨hlow, -⟩ := hfits.product 2085978500 hr
  rw [hoffset] at hlow
  omega

end PsychWard.Net
