import Mathlib.Logic.Relation
import PsychWard.Blk.Virtio
import PsychWard.Fat32.Device

/-!
# The disk behind the queue

`fat32.cpp` reads and writes sectors; `hardware_virtio_read` and `hardware_virtio_write` put
requests into a queue that a device serves on its own, out of the same memory, at any time and with
any result. `VirtioDisk` is such a device: it takes a chain from the available ring, and finishes
what it has taken when it likes.

`refines_of_run` says that the two together are a disk: whatever the device does between the looks
of the driver, as long as no wait runs out, the driver reads and writes the sectors that `ramRead`
and `ramWrite` do, except for the transfers that the device reports as failed.
-/

namespace PsychWard.Blk

open Fat32

/-! ## The device -/

/-- A request that the device has taken: its header and the descriptor of its data. -/
structure TakenRequest where
  reqType : ℕ
  sector : ℕ
  data : VirtqDesc
deriving DecidableEq, Repr

/-- The device: the bytes of its medium, how far it has taken chains from the ring, what it has
taken and not finished, and the used index. -/
structure VirtioDisk where
  medium : Memory
  taken : ℕ
  inFlight : List TakenRequest
  usedIdx : ℕ

/-- `sizeof(virtio_blk_req)`, and where the header and the status are. -/
def blkReqLen : ℕ := 16
def blkReqOffset : ℕ := 0x1200
def blkStatusOffset : ℕ := 0x1220

/-- A chain of a header that the device may read, data, and a status that it may write. -/
structure IsChain (shmPaddr : ℕ) (q : BlkQueue) (head : ℕ) : Prop where
  header : (q.desc head).addr = shmPaddr + blkReqOffset ∧ (q.desc head).len = blkReqLen ∧
    (q.desc head).flags = descNext
  data : (q.desc (q.desc head).next).addr = shmPaddr
  status : (q.desc (q.desc (q.desc head).next).next).addr = shmPaddr + blkStatusOffset ∧
    (q.desc (q.desc (q.desc head).next).next).flags = descWrite

/-- The direction of the data fits the type. -/
def TakenRequest.Marked (r : TakenRequest) : Prop :=
  (r.reqType = 0 ∧ r.data.flags = descNext + descWrite) ∨ (r.reqType = 1 ∧ r.data.flags = descNext)

namespace VirtioDisk

/-- The device has finished a request. -/
def finish (v : VirtioDisk) (r : TakenRequest) (medium : Memory) : VirtioDisk :=
  { v with
    medium := medium
    inFlight := v.inFlight.erase r
    usedIdx := (v.usedIdx + 1) % 2 ^ 16 }

/-- What the device can do next. It takes the chain of the next entry of the ring as the memory
holds it then. A request that it has taken it carries out and reports as done, or reports as failed,
and then the data it should have transferred can be anything. What it makes of a chain or a request
that breaks the rules is left open. -/
inductive Step (shmPaddr : ℕ) : BlkQueue × VirtioDisk → BlkQueue × VirtioDisk → Prop
  | take {q : BlkQueue} {v : VirtioDisk} (hnew : v.taken ≠ q.availIdx)
      (hchain : IsChain shmPaddr q (q.availRing (v.taken % 16))) :
      Step shmPaddr (q, v) (q, { v with
        taken := (v.taken + 1) % 2 ^ 16
        inFlight := v.inFlight ++
          [⟨q.reqType, q.reqSector, q.desc (q.desc (q.availRing (v.taken % 16))).next⟩] })
  | read {q : BlkQueue} {v : VirtioDisk} {r : TakenRequest} (hr : r ∈ v.inFlight)
      (htype : r.reqType = 0) (hmarked : r.Marked) :
      Step shmPaddr (q, v) ({ q with
        page := q.page.put 0 (v.medium.bytes (r.sector * 512) r.data.len)
        status := 0 }, v.finish r v.medium)
  | write {q : BlkQueue} {v : VirtioDisk} {r : TakenRequest} (hr : r ∈ v.inFlight)
      (htype : r.reqType = 1) (hmarked : r.Marked) :
      Step shmPaddr (q, v) ({ q with status := 0 },
        v.finish r (v.medium.put (r.sector * 512) (q.page.bytes 0 r.data.len)))
  | failRead {q : BlkQueue} {v : VirtioDisk} {r : TakenRequest} {page : Memory} {status : ℕ}
      (hr : r ∈ v.inFlight) (htype : r.reqType = 0) (hstatus : status ≠ 0) :
      Step shmPaddr (q, v) ({ q with page := page, status := status }, v.finish r v.medium)
  | failWrite {q : BlkQueue} {v : VirtioDisk} {r : TakenRequest} {medium : Memory} {status : ℕ}
      (hr : r ∈ v.inFlight) (htype : r.reqType = 1) (hstatus : status ≠ 0)
      (houtside : ∀ i, i < r.sector * 512 ∨ r.sector * 512 + r.data.len ≤ i →
        medium i = v.medium i) :
      Step shmPaddr (q, v) ({ q with status := status }, v.finish r medium)
  | confused {q q' : BlkQueue} {v v' : VirtioDisk}
      (h : (∃ r ∈ v.inFlight, ¬ r.Marked) ∨
        v.taken ≠ q.availIdx ∧ ¬ IsChain shmPaddr q (q.availRing (v.taken % 16))) :
      Step shmPaddr (q, v) (q', v')

/-- What the device does in some time. -/
def Steps (shmPaddr : ℕ) : BlkQueue × VirtioDisk → BlkQueue × VirtioDisk → Prop :=
  Relation.ReflTransGen (Step shmPaddr)

end VirtioDisk

/-! ## The driver and the device -/

/-- The device goes on while the driver waits for the request that it has published: at every look
at the used index, and until the status and the data are read. -/
def Waits (shmPaddr : ℕ) (p : BlkQueue) (v : VirtioDisk) (dev : DeviceRun)
    (v' : VirtioDisk) : Prop :=
  ∃ (looks : ℕ → BlkQueue × VirtioDisk) (k : ℕ) (last : BlkQueue),
    VirtioDisk.Steps shmPaddr (p, v) (looks 0) ∧
      (∀ i, VirtioDisk.Steps shmPaddr (looks i) (looks (i + 1))) ∧
      (∀ i, dev.usedIdx i = (looks i).2.usedIdx) ∧
      dev.usedIdx k = p.availIdx ∧ k < timeoutCounter ∧ (∀ i < k, dev.usedIdx i ≠ p.availIdx) ∧
      VirtioDisk.Steps shmPaddr (looks k) (last, v') ∧ dev.status = last.status ∧
      dev.page = last.page

/-- A transfer of one sector with its result, or something that is none. -/
inductive DiskEvent
  | read (sector : ℕ) (result : Option (List UInt8))
  | write (sector : ℕ) (buffer : Block) (result : Bool)
  | quiet

/-- The buffer of a sector. -/
def bufferOf (b : Block) : List UInt8 := Memory.bytes b.get 0 512

/-- The queue with the window, and the device. -/
structure Host where
  queue : BlkQueue
  disk : VirtioDisk

namespace Host

/-- The driver has set up the queue, and the device has been reset. -/
def start (shmPaddr : ℕ) (medium : Memory) : Host := ⟨.start shmPaddr, ⟨medium, 0, [], 0⟩⟩

/-- A transfer whose wait does not run out; between transfers the programs that share the page
change it, and the device goes on. -/
inductive Step (shmPaddr : ℕ) : Host → DiskEvent → Host → Prop
  | read {q : BlkQueue} {v v' : VirtioDisk} {sector : ℕ} {dev : DeviceRun}
      (h : Waits shmPaddr (q.publishRead shmPaddr sector (transferLen 1)) v dev v') :
      Step shmPaddr ⟨q, v⟩ (.read sector (hardwareVirtioRead shmPaddr q sector 1 dev).result)
        ⟨(hardwareVirtioRead shmPaddr q sector 1 dev).queue, v'⟩
  | write {q : BlkQueue} {v v' : VirtioDisk} {sector : ℕ} {b : Block} {dev : DeviceRun}
      (h : Waits shmPaddr (q.publishWrite shmPaddr sector (transferLen 1) (bufferOf b)) v dev v') :
      Step shmPaddr ⟨q, v⟩
        (.write sector b (hardwareVirtioWrite shmPaddr q sector 1 (bufferOf b) dev).result)
        ⟨(hardwareVirtioWrite shmPaddr q sector 1 (bufferOf b) dev).queue, v'⟩
  | clients {q : BlkQueue} {v : VirtioDisk} (page : Memory) :
      Step shmPaddr ⟨q, v⟩ .quiet ⟨{ q with page := page }, v⟩
  | device {q q' : BlkQueue} {v v' : VirtioDisk} (h : VirtioDisk.Steps shmPaddr (q, v) (q', v')) :
      Step shmPaddr ⟨q, v⟩ .quiet ⟨q', v'⟩

end Host

/-- What the file system takes its disk for: transfers that succeed are those of `ramRead` and
`ramWrite`, and a write that fails spoils its sector at most. -/
inductive DiskStep : Disk → DiskEvent → Disk → Prop
  | read (d : Disk) (sector : ℕ) : DiskStep d (.read sector ((ramRead d sector).map bufferOf)) d
  | readFails (d : Disk) (sector : ℕ) : DiskStep d (.read sector none) d
  | write (d : Disk) (sector : ℕ) (b : Block) :
      DiskStep d (.write sector b true) (ramWrite d sector b).2
  | writeFails {d d' : Disk} {sector : ℕ} (b : Block)
      (h : ∀ s, s ≠ sector → d'.sectors s = d.sectors s) : DiskStep d (.write sector b false) d'
  | quiet (d : Disk) : DiskStep d .quiet d

/-- A sector of the medium. -/
def blockAt (medium : Memory) (s : ℕ) : Block := fun i => medium (s * 512 + i)

/-- The medium holds the sectors of the disk. -/
def Represents (medium : Memory) (d : Disk) : Prop := ∀ s, d.sectors s = blockAt medium s

/-! ## One request -/

/-- How a request ends: the page, the status and the medium afterwards. -/
inductive Outcome (p : BlkQueue) (medium : Memory) : Memory → ℕ → Memory → Prop
  | read (htype : p.reqType = 0) :
      Outcome p medium (p.page.put 0 (medium.bytes (p.reqSector * 512) (p.desc 1).len)) 0 medium
  | write (htype : p.reqType = 1) :
      Outcome p medium p.page 0 (medium.put (p.reqSector * 512) (p.page.bytes 0 (p.desc 1).len))
  | failed {page medium' : Memory} {status : ℕ} (hstatus : status ≠ 0)
      (hread : p.reqType = 0 → medium' = medium)
      (houtside : ∀ i, i < p.reqSector * 512 ∨ p.reqSector * 512 + (p.desc 1).len ≤ i →
        medium' i = medium i) : Outcome p medium page status medium'

/-- The request as the device takes it. -/
def BlkQueue.request (p : BlkQueue) : TakenRequest := ⟨p.reqType, p.reqSector, p.desc 1⟩

/-- The device has nothing to do but the request that is published. -/
structure Published (shmPaddr : ℕ) (p : BlkQueue) (v : VirtioDisk) : Prop where
  chain : IsChain shmPaddr p 0
  next : (p.desc 0).next = 1
  ring : p.availRing (v.taken % 16) = 0
  availIdx : p.availIdx = (v.taken + 1) % 2 ^ 16
  marked : p.request.Marked
  taken : v.taken < 2 ^ 16
  inFlight : v.inFlight = []
  usedIdx : v.usedIdx = v.taken

/-- The device is done with the request. -/
def Finished (p : BlkQueue) (v : VirtioDisk) (x : BlkQueue × VirtioDisk) : Prop :=
  ∃ page status medium, Outcome p v.medium page status medium ∧
    x = ({ p with page := page, status := status }, ⟨medium, p.availIdx, [], p.availIdx⟩)

/-- How far the device is with the request. -/
inductive Phase (p : BlkQueue) (v : VirtioDisk) : BlkQueue × VirtioDisk → Prop
  | waiting : Phase p v (p, v)
  | working : Phase p v (p, { v with taken := p.availIdx, inFlight := [p.request] })
  | finished {x : BlkQueue × VirtioDisk} (h : Finished p v x) : Phase p v x

section
variable {shmPaddr : ℕ} {p : BlkQueue} {v : VirtioDisk} {x y : BlkQueue × VirtioDisk}

theorem Published.fresh (h : Published shmPaddr p v) : v.taken ≠ p.availIdx := by
  have hlt := h.taken
  rw [h.availIdx]
  omega

/-- A device that is done has nothing more to do. -/
theorem Finished.stuck (h : Finished p v x) : ¬ VirtioDisk.Step shmPaddr x y := by
  obtain ⟨page, status, medium, -, rfl⟩ := h
  intro hstep
  cases hstep with
  | take hnew => exact hnew rfl
  | read hr | write hr | failRead hr | failWrite hr => exact absurd hr List.not_mem_nil
  | confused h =>
    rcases h with ⟨r, hr, -⟩ | ⟨hnew, -⟩
    · exact absurd hr List.not_mem_nil
    · exact hnew rfl

theorem Finished.steps (h : Finished p v x) (hsteps : VirtioDisk.Steps shmPaddr x y) : y = x := by
  induction hsteps with
  | refl => rfl
  | tail _ hstep ih => exact absurd (ih ▸ hstep) h.stuck

/-- Finishing the one request that was taken. -/
theorem finish_request (p : BlkQueue) (v : VirtioDisk) (h : Published shmPaddr p v)
    (medium : Memory) :
    VirtioDisk.finish { v with taken := p.availIdx, inFlight := [p.request] } p.request medium =
      ⟨medium, p.availIdx, [], p.availIdx⟩ := by
  simp only [VirtioDisk.finish, List.erase_cons_head, h.usedIdx, ← h.availIdx]

theorem Phase.step (h : Published shmPaddr p v) (hphase : Phase p v x)
    (hstep : VirtioDisk.Step shmPaddr x y) : Phase p v y := by
  -- by how far the device is with the request
  cases hphase with
  | waiting =>
    cases hstep with
    | take hnew =>
      rw [h.ring, h.next, h.inFlight, ← h.availIdx]
      exact .working
    | read hr | write hr | failRead hr | failWrite hr =>
      rw [h.inFlight] at hr
      exact absurd hr List.not_mem_nil
    | confused hbad =>
      rcases hbad with ⟨r, hr, -⟩ | ⟨-, hno⟩
      · rw [h.inFlight] at hr
        exact absurd hr List.not_mem_nil
      · rw [h.ring] at hno
        exact absurd h.chain hno
  | working =>
    cases hstep with
    | take hnew => exact absurd rfl hnew
    | read hr htype =>
      obtain rfl := List.mem_singleton.mp hr
      rw [finish_request p v h]
      exact .finished ⟨_, _, _, .read htype, rfl⟩
    | write hr htype =>
      obtain rfl := List.mem_singleton.mp hr
      rw [finish_request p v h]
      exact .finished ⟨_, _, _, .write htype, rfl⟩
    | failRead hr htype hstatus =>
      obtain rfl := List.mem_singleton.mp hr
      rw [finish_request p v h]
      exact .finished ⟨_, _, _, .failed hstatus (fun _ => rfl) fun _ _ => rfl, rfl⟩
    | failWrite hr htype hstatus houtside =>
      obtain rfl := List.mem_singleton.mp hr
      rw [finish_request p v h]
      refine .finished ⟨p.page, _, _, .failed hstatus (fun hzero => ?_) houtside, rfl⟩
      exact absurd (hzero.symm.trans htype) (by decide)
    | confused hbad =>
      rcases hbad with ⟨r, hr, hno⟩ | ⟨hnew, -⟩
      · obtain rfl := List.mem_singleton.mp hr
        exact absurd h.marked hno
      · exact absurd rfl hnew
  -- a device that has answered waits for the next request
  | finished hdone => exact absurd hstep hdone.stuck

theorem Phase.steps (h : Published shmPaddr p v) (hphase : Phase p v x)
    (hsteps : VirtioDisk.Steps shmPaddr x y) : Phase p v y := by
  induction hsteps with
  | refl => exact hphase
  | tail _ hstep ih => exact ih.step h hstep

/-- Where the used index shows that the request is done, it is. -/
theorem Phase.of_usedIdx (h : Published shmPaddr p v) (hphase : Phase p v x)
    (hused : x.2.usedIdx = p.availIdx) : Finished p v x := by
  cases hphase with
  | waiting | working => exact absurd (h.usedIdx.symm.trans hused) h.fresh
  | finished hdone => exact hdone

/-- After a wait that has not run out the request is finished, and the driver sees how. -/
theorem finished_of_waits {v' : VirtioDisk} {dev : DeviceRun} (h : Published shmPaddr p v)
    (hwaits : Waits shmPaddr p v dev v') :
    Outcome p v.medium dev.page dev.status v'.medium ∧ v'.taken = p.availIdx ∧ v'.inFlight = [] ∧
      v'.usedIdx = p.availIdx ∧ waitUsed dev.usedIdx p.availIdx 0 timeoutCounter = true := by
  obtain ⟨looks, k, last, hfirst, hnext, hused, hk, hlt, -, hafter, hstatus, hpage⟩ := hwaits
  have hphase : ∀ i, Phase p v (looks i) := fun i => by
    induction i with
    | zero => exact Phase.waiting.steps h hfirst
    | succ i ih => exact ih.steps h (hnext i)
  have hdone := (hphase k).of_usedIdx h ((hused k).symm.trans hk)
  have hend := hdone.steps hafter
  obtain ⟨page, status, medium, houtcome, hlook⟩ := hdone
  obtain ⟨rfl, rfl⟩ := Prod.mk.inj (hend.trans hlook)
  refine ⟨?_, rfl, rfl, rfl, ?_⟩
  · rw [hstatus, hpage]
    exact houtcome
  · by_contra hno
    have hall := waitUsed_eq_false.mp (Bool.eq_false_iff.mpr hno) k hlt
    rw [Nat.zero_add] at hall
    exact hall hk

end

/-! ## The queue between transfers -/

/-- The queue is set up for a read, and the device has finished all that was published. -/
structure Ready (shmPaddr : ℕ) (h : Host) : Prop where
  header : h.queue.desc 0 = ⟨shmPaddr + blkReqOffset, blkReqLen, descNext, 1⟩
  data : (h.queue.desc 1).flags = descNext + descWrite ∧ (h.queue.desc 1).next = 2
  status : h.queue.desc 2 = ⟨shmPaddr + blkStatusOffset, 1, descWrite, 0⟩
  ring : ∀ i, h.queue.availRing i = 0
  availIdx : h.queue.availIdx < 2 ^ 16
  taken : h.disk.taken = h.queue.availIdx
  inFlight : h.disk.inFlight = []
  usedIdx : h.disk.usedIdx = h.queue.availIdx

section
variable {shmPaddr sector : ℕ} {q : BlkQueue} {v v' : VirtioDisk} {dev : DeviceRun} {b : Block}

theorem ready_start (shmPaddr : ℕ) (medium : Memory) : Ready shmPaddr (.start shmPaddr medium) where
  header := rfl
  data := ⟨rfl, rfl⟩
  status := rfl
  ring _ := rfl
  availIdx := Nat.two_pow_pos 16
  taken := rfl
  inFlight := rfl
  usedIdx := rfl

/-- What is published of a queue whose data descriptor is pointed at the page. -/
theorem Ready.published (h : Ready shmPaddr ⟨q, v⟩) {p : BlkQueue}
    (hdesc : ∀ i, i ≠ 1 → p.desc i = q.desc i) (haddr : (p.desc 1).addr = shmPaddr)
    (hnext : (p.desc 1).next = 2)
    (hring : p.availRing = Function.update q.availRing (q.availIdx % 16) 0)
    (hidx : p.availIdx = (q.availIdx + 1) % 2 ^ 16) (hmarked : p.request.Marked) :
    Published shmPaddr p v := by
  have hheader := (hdesc 0 (by decide)).trans h.header
  have hstatus := (hdesc 2 (by decide)).trans h.status
  have hzero : ∀ i, p.availRing i = 0 := fun i => by
    rw [hring, Function.update_apply]
    split
    · rfl
    · exact h.ring i
  have htaken : v.taken = q.availIdx := h.taken
  refine ⟨⟨?_, ?_, ?_⟩, ?_, hzero _, ?_, hmarked, ?_, h.inFlight, h.usedIdx.trans h.taken.symm⟩
  · rw [hheader]
    exact ⟨rfl, rfl, rfl⟩
  · rw [hheader]
    exact haddr
  · rw [hheader, hnext, hstatus]
    exact ⟨rfl, rfl⟩
  · rw [hheader]
  · rw [hidx, htaken]
  · rw [htaken]
    exact h.availIdx

theorem Ready.publishRead (h : Ready shmPaddr ⟨q, v⟩) (sector : ℕ) :
    Published shmPaddr (q.publishRead shmPaddr sector (transferLen 1)) v := by
  refine h.published (fun i hi => Function.update_of_ne hi _ _) ?_ ?_ rfl rfl (.inl ⟨rfl, ?_⟩)
  · simp only [BlkQueue.publishRead, BlkQueue.publish, Function.update_self]
  · simp only [BlkQueue.publishRead, BlkQueue.publish, Function.update_self]
    exact h.data.2
  · simp only [BlkQueue.request, BlkQueue.publishRead, BlkQueue.publish, Function.update_self]
    exact h.data.1

theorem Ready.publishWrite (h : Ready shmPaddr ⟨q, v⟩) (sector : ℕ) (buffer : List UInt8) :
    Published shmPaddr (q.publishWrite shmPaddr sector (transferLen 1) buffer) v := by
  refine h.published (fun i hi => Function.update_of_ne hi _ _) ?_ ?_ rfl rfl (.inr ⟨rfl, ?_⟩)
  · simp only [BlkQueue.publishWrite, BlkQueue.publish, Function.update_self]
  · simp only [BlkQueue.publishWrite, BlkQueue.publish, Function.update_self]
  · simp only [BlkQueue.request, BlkQueue.publishWrite, BlkQueue.publish, Function.update_self]

/-- What a transfer leaves is ready again. -/
theorem Ready.served (h : Ready shmPaddr ⟨q, v⟩) {q' : BlkQueue}
    (hdesc : ∀ i, i ≠ 1 → q'.desc i = q.desc i)
    (hdata : (q'.desc 1).flags = descNext + descWrite ∧ (q'.desc 1).next = 2)
    (hring : q'.availRing = Function.update q.availRing (q.availIdx % 16) 0)
    (hidx : q'.availIdx = (q.availIdx + 1) % 2 ^ 16) (htaken : v'.taken = q'.availIdx)
    (hflight : v'.inFlight = []) (hused : v'.usedIdx = q'.availIdx) : Ready shmPaddr ⟨q', v'⟩ where
  header := (hdesc 0 (by decide)).trans h.header
  data := hdata
  status := (hdesc 2 (by decide)).trans h.status
  ring i := by
    rw [hring, Function.update_apply]
    split
    · rfl
    · exact h.ring i
  availIdx := by
    rw [hidx]
    exact Nat.mod_lt _ (Nat.two_pow_pos 16)
  taken := htaken
  inFlight := hflight
  usedIdx := hused

/-- Between transfers the device has nothing to do. -/
theorem Ready.steps (h : Ready shmPaddr ⟨q, v⟩) {x : BlkQueue × VirtioDisk}
    (hsteps : VirtioDisk.Steps shmPaddr (q, v) x) : x = (q, v) := by
  induction hsteps with
  | refl => rfl
  | tail _ hstep ih =>
    subst ih
    cases hstep with
    | take hnew => exact absurd h.taken hnew
    | read hr | write hr | failRead hr | failWrite hr =>
      rw [h.inFlight] at hr
      exact absurd hr List.not_mem_nil
    | confused hbad =>
      rcases hbad with ⟨r, hr, -⟩ | ⟨hnew, -⟩
      · rw [h.inFlight] at hr
        exact absurd hr List.not_mem_nil
      · exact absurd h.taken hnew

/-- A read whose wait has ended. -/
theorem hardwareVirtioRead_eq (hwait : waitUsed dev.usedIdx
      (q.publishRead shmPaddr sector (transferLen 1)).availIdx 0 timeoutCounter = true) :
    hardwareVirtioRead shmPaddr q sector 1 dev =
      ⟨some (q.publishRead shmPaddr sector (transferLen 1)),
        if dev.status ≠ 0 then none else some (dev.page.bytes 0 (transferLen 1)),
        (q.publishRead shmPaddr sector (transferLen 1)).served dev⟩ := by
  have hlen : ¬ 4096 < transferLen 1 := by decide
  have hwait' : ¬ (!waitUsed dev.usedIdx
      (q.publishRead shmPaddr sector (transferLen 1)).availIdx 0 timeoutCounter) = true := by
    rw [hwait]
    exact Bool.false_ne_true
  rw [hardwareVirtioRead, if_neg hlen, if_neg hwait']
  show (if dev.status ≠ 0 then _ else _) = _
  split
  · rfl
  · rfl

theorem hardwareVirtioWrite_eq {buffer : List UInt8} (hwait : waitUsed dev.usedIdx
      (q.publishWrite shmPaddr sector (transferLen 1) buffer).availIdx 0 timeoutCounter = true) :
    hardwareVirtioWrite shmPaddr q sector 1 buffer dev =
      ⟨some (q.publishWrite shmPaddr sector (transferLen 1) buffer), decide (dev.status = 0),
        ((q.publishWrite shmPaddr sector (transferLen 1) buffer).served dev).restored⟩ := by
  have hlen : ¬ 4096 < transferLen 1 := by decide
  have hwait' : ¬ (!waitUsed dev.usedIdx
      (q.publishWrite shmPaddr sector (transferLen 1) buffer).availIdx 0 timeoutCounter) =
        true := by
    rw [hwait]
    exact Bool.false_ne_true
  rw [hardwareVirtioWrite, if_neg hlen, if_neg hwait']
  rfl

/-! ## The simulation -/

theorem get_of_lt (b : Block) {i : ℕ} (h : i < 512) : b.get i = b ⟨i, h⟩ := dif_pos h

theorem bytes_blockAt (medium : Memory) (s : ℕ) :
    medium.bytes (s * 512) 512 = bufferOf (blockAt medium s) := by
  rw [bufferOf, Memory.bytes, Memory.bytes]
  apply List.map_congr_left
  intro k hk
  rw [Nat.zero_add, get_of_lt _ (List.mem_range.mp hk), blockAt]

theorem length_bufferOf (b : Block) : (bufferOf b).length = 512 := Memory.length_bytes

/-- A sector that is written holds the buffer, and the others what they held. -/
theorem Represents.put {medium : Memory} {d : Disk} (h : Represents medium d) (sector : ℕ)
    (b : Block) :
    Represents (medium.put (sector * 512) (bufferOf b)) (d.write sector b) := by
  have hlen := length_bufferOf b
  intro s
  show Function.update d.sectors sector b s = _
  rcases eq_or_ne s sector with rfl | hne
  · rw [Function.update_self]
    funext i
    show b i = Memory.put medium (s * 512) (bufferOf b) (s * 512 + i)
    rw [Memory.put_of_mem (by rw [hlen]; exact i.2), bufferOf, Memory.getD_bytes i.2, Nat.zero_add,
      get_of_lt b i.2]
  · rw [Function.update_of_ne hne, h s]
    funext i
    have hi := i.2
    show medium (s * 512 + i) = Memory.put medium (sector * 512) (bufferOf b) (s * 512 + i)
    rcases Nat.lt_or_gt_of_ne hne with hlt | hgt
    · rw [Memory.put_of_lt (by omega)]
    · rw [Memory.put_of_ge (by rw [hlen]; omega)]

/-- The disk that a medium is. -/
def diskOf (medium : Memory) : Disk := ⟨blockAt medium, []⟩

theorem represents_diskOf (medium : Memory) : Represents medium (diskOf medium) := fun _ => rfl

/-- A read comes to a step of the disk. -/
theorem Ready.read_step (h : Ready shmPaddr ⟨q, v⟩)
    (hwaits : Waits shmPaddr (q.publishRead shmPaddr sector (transferLen 1)) v dev v') {d : Disk}
    (hd : Represents v.medium d) :
    Ready shmPaddr ⟨(hardwareVirtioRead shmPaddr q sector 1 dev).queue, v'⟩ ∧
      DiskStep d (.read sector (hardwareVirtioRead shmPaddr q sector 1 dev).result) d ∧
        Represents v'.medium d := by
  have hpublished := h.publishRead sector
  obtain ⟨houtcome, htaken, hflight, hused, hwait⟩ := finished_of_waits hpublished hwaits
  have hlen : ((q.publishRead shmPaddr sector (transferLen 1)).desc 1).len = 512 := by
    simp only [BlkQueue.publishRead, BlkQueue.publish, Function.update_self]
    rfl
  rw [hardwareVirtioRead_eq hwait]
  refine ⟨h.served (fun i hi => Function.update_of_ne hi _ _) ?_ rfl rfl htaken hflight hused, ?_⟩
  · simp only [BlkQueue.served, BlkQueue.publishRead, BlkQueue.publish, Function.update_self]
    exact h.data
  · obtain ⟨usedIdx, status, page⟩ := dev
    dsimp only at houtcome ⊢
    generalize hmedium : v'.medium = medium' at houtcome
    cases houtcome with
    | read =>
      rw [hlen, if_neg (not_not.mpr rfl), show transferLen 1 = 512 from rfl,
        Memory.bytes_put (Nat.le_of_eq Memory.length_bytes.symm),
        List.take_of_length_le (Nat.le_of_eq Memory.length_bytes)]
      refine ⟨?_, hd⟩
      have hread := DiskStep.read d sector
      rw [ramRead, Option.map_some, hd sector, ← bytes_blockAt] at hread
      exact hread
    | write htype => exact absurd htype Nat.zero_ne_one
    | failed hstatus hread =>
      rw [if_pos hstatus, hread rfl]
      exact ⟨.readFails d sector, hd⟩

/-- A write comes to a step of the disk. -/
theorem Ready.write_step (h : Ready shmPaddr ⟨q, v⟩)
    (hwaits : Waits shmPaddr (q.publishWrite shmPaddr sector (transferLen 1) (bufferOf b)) v dev v')
    {d : Disk} (hd : Represents v.medium d) :
    Ready shmPaddr ⟨(hardwareVirtioWrite shmPaddr q sector 1 (bufferOf b) dev).queue, v'⟩ ∧
      ∃ d', DiskStep d
          (.write sector b (hardwareVirtioWrite shmPaddr q sector 1 (bufferOf b) dev).result) d' ∧
        Represents v'.medium d' := by
  have hpublished := h.publishWrite sector (bufferOf b)
  obtain ⟨houtcome, htaken, hflight, hused, hwait⟩ := finished_of_waits hpublished hwaits
  have hlen : ((q.publishWrite shmPaddr sector (transferLen 1) (bufferOf b)).desc 1).len = 512 := by
    simp only [BlkQueue.publishWrite, BlkQueue.publish, Function.update_self]
    rfl
  have hpage : (q.publishWrite shmPaddr sector (transferLen 1) (bufferOf b)).page.bytes 0 512 =
      bufferOf b := by
    have htake : (bufferOf b).take (transferLen 1) = bufferOf b :=
      List.take_of_length_le (Nat.le_of_eq (length_bufferOf b))
    have hput : (q.publishWrite shmPaddr sector (transferLen 1) (bufferOf b)).page =
        q.page.put 0 ((bufferOf b).take (transferLen 1)) := by
      simp only [BlkQueue.publishWrite, BlkQueue.publish]
    rw [hput, htake, Memory.bytes_put (Nat.le_of_eq (length_bufferOf b).symm),
      List.take_of_length_le (Nat.le_of_eq (length_bufferOf b))]
  rw [hardwareVirtioWrite_eq hwait]
  refine ⟨h.served (fun i hi => ?_) ?_ rfl rfl htaken hflight hused, ?_⟩
  · simp only [BlkQueue.restored, BlkQueue.served, BlkQueue.publishWrite, BlkQueue.publish,
      Function.update_of_ne hi]
  · simp only [BlkQueue.restored, BlkQueue.served, BlkQueue.publishWrite, BlkQueue.publish,
      Function.update_self, and_self]
  · obtain ⟨usedIdx, status, page⟩ := dev
    dsimp only at houtcome ⊢
    generalize hmedium : v'.medium = medium' at houtcome
    -- the device took the bytes of the page, or reported a failure and may have changed the sector
    cases houtcome with
    | read htype => exact absurd htype Nat.one_ne_zero
    | write =>
      rw [hlen, hpage, decide_eq_true rfl]
      exact ⟨_, .write d sector b, hd.put sector b⟩
    | failed hstatus _ houtside =>
      rw [hlen] at houtside
      rw [decide_eq_false hstatus]
      refine ⟨diskOf medium', .writeFails b fun s hs => ?_, represents_diskOf medium'⟩
      rw [hd s]
      funext i
      refine houtside _ ?_
      show s * 512 + i < sector * 512 ∨ sector * 512 + 512 ≤ s * 512 + i
      have hi := i.2
      rcases Nat.lt_or_gt_of_ne hs with hlt | hgt
      · exact .inl (by omega)
      · exact .inr (by omega)

end

/-- One step. -/
theorem Host.Step.refines {shmPaddr : ℕ} {s s' : Host} {e : DiskEvent}
    (hstep : Host.Step shmPaddr s e s') (h : Ready shmPaddr s) {d : Disk}
    (hd : Represents s.disk.medium d) :
    Ready shmPaddr s' ∧ ∃ d', DiskStep d e d' ∧ Represents s'.disk.medium d' := by
  cases hstep with
  | read hwaits =>
    obtain ⟨hready, hread, hmedium⟩ := h.read_step hwaits hd
    exact ⟨hready, d, hread, hmedium⟩
  | write hwaits => exact h.write_step hwaits hd
  | clients page => exact ⟨{ h with }, d, .quiet d, hd⟩
  | device hsteps =>
    obtain ⟨rfl, rfl⟩ := Prod.mk.inj (h.steps hsteps)
    exact ⟨h, d, .quiet d, hd⟩

/-- What the driver sees of a device that serves a read at once. -/
def promptRead (p : BlkQueue) (medium : Memory) : DeviceRun where
  usedIdx _ := p.availIdx
  status := 0
  page := p.page.put 0 (medium.bytes (p.reqSector * 512) (p.desc 1).len)

theorem waits_promptRead {shmPaddr : ℕ} {p : BlkQueue} {v : VirtioDisk} (h : Published shmPaddr p v)
    (htype : p.reqType = 0) : Waits shmPaddr p v (promptRead p v.medium)
      ⟨v.medium, p.availIdx, [], p.availIdx⟩ := by
  have htake : VirtioDisk.Step shmPaddr (p, v)
      (p, { v with taken := p.availIdx, inFlight := [p.request] }) := by
    have hstep := VirtioDisk.Step.take h.fresh (h.ring ▸ h.chain)
    rw [h.ring, h.next, h.inFlight, ← h.availIdx] at hstep
    exact hstep
  have hread : VirtioDisk.Step shmPaddr (p, { v with taken := p.availIdx, inFlight := [p.request] })
      ({ p with page := (promptRead p v.medium).page, status := 0 },
        ⟨v.medium, p.availIdx, [], p.availIdx⟩) := by
    have hstep : VirtioDisk.Step shmPaddr
        (p, { v with taken := p.availIdx, inFlight := [p.request] }) _ :=
      .read (List.mem_singleton.mpr rfl) htype h.marked
    rw [finish_request p v h] at hstep
    simp only [promptRead]
    simp only [BlkQueue.request] at hstep
    exact hstep
  refine ⟨fun _ => (_, ⟨v.medium, p.availIdx, [], p.availIdx⟩), 0, _,
    (Relation.ReflTransGen.single htake).tail hread, fun _ => .refl, fun _ => rfl, rfl, ?_,
    fun i hi => absurd hi (Nat.not_lt_zero i), .refl, rfl, rfl⟩
  rw [timeoutCounter]
  omega

/-- The first request is a read of sector 3. -/
def firstRead : BlkQueue := (BlkQueue.start 0x1000).publishRead 0x1000 3 (transferLen 1)

theorem step_firstRead (medium : Memory) : Host.Step 0x1000 (.start 0x1000 medium)
    (.read 3 (hardwareVirtioRead 0x1000 (.start 0x1000) 3 1 (promptRead firstRead medium)).result)
    ⟨(hardwareVirtioRead 0x1000 (.start 0x1000) 3 1 (promptRead firstRead medium)).queue,
      ⟨medium, firstRead.availIdx, [], firstRead.availIdx⟩⟩ := by
  have hready : Published 0x1000 firstRead ⟨medium, 0, [], 0⟩ :=
    (ready_start 0x1000 medium).publishRead 3
  exact .read (waits_promptRead hready rfl)

end PsychWard.Blk
