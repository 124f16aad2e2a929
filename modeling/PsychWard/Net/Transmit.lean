import PsychWard.Common.Run
import Mathlib.Algebra.Group.Nat.Defs

/-!
# The transmit queue

`net_send_packet` hands the one transmit buffer to the device and waits until the device has read it.
It compares the used index of the device with its own index by magnitude. Both are 16-bit counters
that run on, and when the driver's index comes back to zero every used index is large enough.

`sent` and `completed` count the packets without wrapping; the driver does not see them.
-/

namespace PsychWard.Net

/-- `virtq_desc`. -/
structure VirtqDesc where
  addr : ℕ
  len : ℕ
  flags : ℕ
  next : ℕ
deriving DecidableEq, Repr

/-- The transmit queue, the driver's index, and how far the driver and the device are. -/
structure TxQueue where
  desc : VirtqDesc
  availRing : ℕ → ℕ
  /-- `*avail_idx` and `*used_idx` -/
  sharedIdx : ℕ
  usedIdx : ℕ
  /-- `g_tx_avail_idx` -/
  availIdx : ℕ
  queueNotify : ℕ
  /-- the driver is in the loop of `net_send_packet` -/
  waiting : Bool
  sent : ℕ
  completed : ℕ

namespace TxQueue

/-- The queue after the start of the driver. -/
def start : TxQueue where
  desc := ⟨0, 0, 0, 0⟩
  availRing := fun _ => 0
  sharedIdx := 0
  usedIdx := 0
  availIdx := 0
  queueNotify := 0
  waiting := false
  sent := 0
  completed := 0

/-- `net_send_packet` up to its loop. -/
def publish (q : TxQueue) (shmPaddr totalLen txOffset : ℕ) : TxQueue :=
  { q with
    desc := ⟨(shmPaddr + txOffset) % 2 ^ 32, totalLen, 0, 0⟩
    availRing := fun i => if i = q.availIdx % 2 then 0 else q.availRing i
    availIdx := (q.availIdx + 1) % 2 ^ 16
    sharedIdx := (q.availIdx + 1) % 2 ^ 16
    queueNotify := 1
    waiting := true
    sent := q.sent + 1 }

/-- One turn of its loop: `net_send_packet` returns, or yields. -/
def look (q : TxQueue) : TxQueue :=
  if q.usedIdx < q.availIdx then q else { q with waiting := false }

/-- The device is done with the oldest packet it has not completed. -/
def complete (q : TxQueue) : TxQueue :=
  { q with
    usedIdx := (q.usedIdx + 1) % 2 ^ 16
    completed := q.completed + 1 }

end TxQueue

inductive TxEvent
  | send (totalLen txOffset : ℕ)
  | look
  | complete

/-- The steps of the driver and of a device that completes packets in order, at its own pace. -/
inductive TxStep (shmPaddr : ℕ) (q : TxQueue) : TxEvent → TxQueue → Prop
  | send (totalLen txOffset : ℕ) (h : q.waiting = false) :
      TxStep shmPaddr q (.send totalLen txOffset) (q.publish shmPaddr totalLen txOffset)
  | look (h : q.waiting = true) : TxStep shmPaddr q .look q.look
  | complete (h : q.completed < q.sent) : TxStep shmPaddr q .complete q.complete

/-- When `net_send_packet` returns, the used index is the driver's index; and the buffer is filled for
the next packet only when the device has read the last one. -/
structure TxOk (q : TxQueue) (e : TxEvent) (q' : TxQueue) : Prop where
  returned : q.waiting = true → q'.waiting = false → q'.usedIdx = q'.availIdx
  unread : ∀ totalLen txOffset, e = .send totalLen txOffset → q.completed = q.sent

/-- A packet whose number is a multiple of `2 ^ 16` is completed before the driver looks. -/
def InTime (q : TxQueue) : TxEvent → Prop
  | .look => q.sent % 2 ^ 16 = 0 → q.completed = q.sent
  | _ => True

/-- At most the last packet is under way, and it is not when the driver does not wait. -/
structure TxInv (q : TxQueue) : Prop where
  availIdx : q.availIdx = q.sent % 2 ^ 16
  usedIdx : q.usedIdx = q.completed % 2 ^ 16
  completed : q.completed ≤ q.sent
  sent : q.sent ≤ q.completed + 1
  idle : q.waiting = false → q.completed = q.sent

section
variable {shmPaddr : ℕ} {q q' : TxQueue} {e : TxEvent} {es : List TxEvent}

theorem txInv_start : TxInv .start := ⟨rfl, rfl, Nat.le_refl _, Nat.zero_le _, fun _ => rfl⟩

/-- A used index that is not behind is the driver's, except for the packets that wrap its index. -/
theorem TxInv.caughtUp (h : TxInv q) (hin : InTime q .look) (hle : ¬ q.usedIdx < q.availIdx) :
    q.completed = q.sent := by
  obtain ⟨havail, hused, hcompleted, hsent, -⟩ := h
  rw [havail, hused] at hle
  by_cases hwrap : q.sent % 2 ^ 16 = 0
  · exact hin hwrap
  · omega

theorem TxInv.step (h : TxInv q) (hin : InTime q e) (hstep : TxStep shmPaddr q e q') :
    TxInv q' := by
  obtain ⟨havail, hused, hcompleted, hsent, hidle⟩ := id h
  cases hstep with
  | send totalLen txOffset hwait =>
    have hall := hidle hwait
    refine ⟨?_, hused, ?_, ?_, fun hfalse => Bool.noConfusion hfalse⟩
    · simp only [TxQueue.publish, havail]
      omega
    · exact Nat.le_succ_of_le hcompleted
    · simp only [TxQueue.publish]
      omega
  | look hwait =>
    rw [TxQueue.look]
    split
    · exact h
    · rename_i hle
      exact ⟨havail, hused, hcompleted, hsent, fun _ => h.caughtUp hin hle⟩
  | complete hlt =>
    refine ⟨havail, ?_, hlt, ?_, fun hwait => absurd (hidle hwait) (by omega)⟩
    · simp only [TxQueue.complete, hused]
      omega
    · simp only [TxQueue.complete]
      omega

theorem txInv_of_run (h : Run (guarded (TxStep shmPaddr) InTime) .start es q) : TxInv q :=
  h.invariant (fun _ _ _ ht hs => ht.step hs.1 hs.2) txInv_start

/-- **The driver waits for the device.** As long as every packet whose number is a multiple of
`2 ^ 16` was completed before the driver looked, the next step is right if and only if that holds of
it too. -/
theorem txOk_iff (hrun : Run (guarded (TxStep shmPaddr) InTime) .start es q)
    (hstep : TxStep shmPaddr q e q') : TxOk q e q' ↔ InTime q e := by
  have hinv := txInv_of_run hrun
  obtain ⟨havail, hused, hcompleted, hsent, hidle⟩ := id hinv
  cases hstep with
  | send totalLen txOffset hwait =>
    exact iff_of_true ⟨fun htrue => absurd (hwait.symm.trans htrue) (by decide),
      fun _ _ _ => hidle hwait⟩ trivial
  | look hwait =>
    constructor
    · intro hok hwrap
      -- the driver's index is zero, so its loop ends at once
      have hlook : q.look = { q with waiting := false } := if_neg (by omega)
      have hreturned := hok.returned hwait (by rw [hlook])
      simp only [hlook] at hreturned
      omega
    · intro hin
      refine ⟨fun _ hreturn => ?_, fun _ _ he => absurd he (by simp)⟩
      rw [TxQueue.look] at hreturn ⊢
      split at hreturn
      · exact absurd (hwait.symm.trans hreturn) (by decide)
      · rename_i hle
        rw [if_neg hle]
        simp only [havail, hused, hinv.caughtUp hin hle]
  | complete hlt =>
    refine iff_of_true ⟨fun htrue hfalse => ?_, fun _ _ he => absurd he (by simp)⟩ trivial
    exact absurd (htrue.symm.trans hfalse) (by decide)

/-- A packet that the device completes after the driver has looked in vain. -/
def firstPacket : TxQueue := (TxQueue.start.publish 0 60 0x280).look.complete

/-- The next look ends the wait, and the packet has been read. -/
theorem txOk_firstPacket : TxOk firstPacket .look firstPacket.look ∧
    firstPacket.look.waiting = false ∧ firstPacket.look.completed = 1 := by
  have hrun : Run (guarded (TxStep 0) InTime) .start [.send 60 0x280, .look, .complete]
      firstPacket :=
    ((Run.single ⟨trivial, .send 60 0x280 rfl⟩).snoc
      ⟨fun hwrap => absurd hwrap (by decide), .look rfl⟩).snoc ⟨trivial, .complete (by decide)⟩
  exact ⟨(txOk_iff hrun (.look rfl)).mpr fun _ => rfl, rfl, rfl⟩

/-- A device that completes each packet at once. -/
theorem run_packets (n : ℕ) : ∃ es q, Run (TxStep shmPaddr) .start es q ∧ q.waiting = false ∧
    q.availIdx = n % 2 ^ 16 ∧ q.usedIdx = n % 2 ^ 16 ∧ q.sent = n ∧ q.completed = n := by
  induction n with
  | zero => exact ⟨[], .start, .nil, rfl, rfl, rfl, rfl, rfl⟩
  | succ n ih =>
    obtain ⟨es, q, hrun, hwait, havail, hused, hsent, hcompleted⟩ := ih
    have hlook : (q.publish shmPaddr 60 0x280).complete.look =
        { (q.publish shmPaddr 60 0x280).complete with waiting := false } := by
      refine if_neg ?_
      simp only [TxQueue.complete, TxQueue.publish, havail, hused]
      omega
    refine ⟨_, _, ((hrun.snoc (.send 60 0x280 hwait)).snoc (.complete ?_)).snoc (.look rfl), ?_⟩
    · simp only [TxQueue.publish]
      omega
    · rw [hlook]
      simp only [TxQueue.complete, TxQueue.publish, havail, hused, hsent, hcompleted, true_and,
        and_true]
      omega

/-- The packet with the number `2 ^ 16`: the driver returns while the device still has it. -/
theorem not_txOk_wrapping : ¬ ∀ (shmPaddr : ℕ) (es : List TxEvent) (q q' : TxQueue) (e : TxEvent),
    Run (TxStep shmPaddr) .start es q → TxStep shmPaddr q e q' → TxOk q e q' := by
  intro h
  obtain ⟨es, q, hrun, hwait, havail, hused, -⟩ := @run_packets 0 (2 ^ 16 - 1)
  have hnext : (q.publish 0 60 0x280).availIdx = (q.availIdx + 1) % 2 ^ 16 := rfl
  have hzero : (q.publish 0 60 0x280).availIdx = 0 := by omega
  have hlook : (q.publish 0 60 0x280).look = { q.publish 0 60 0x280 with waiting := false } :=
    if_neg (by omega)
  have hok := (h 0 _ _ _ _ (hrun.snoc (.send 60 0x280 hwait)) (.look rfl)).returned rfl
    (by rw [hlook])
  rw [hlook] at hok
  simp only [hzero] at hok
  simp only [TxQueue.publish, hused] at hok
  omega

end

end PsychWard.Net
