import PsychWard.Common.Memory
import PsychWard.Common.Run
import Mathlib.Algebra.Group.Nat.Defs
import Mathlib.Data.List.Induction
import Mathlib.Data.Nat.Notation
import Mathlib.Logic.Function.Basic

/-!
# The queue of the block device

`hardware_virtio_read` and `hardware_virtio_write` hand the device the same chain of three descriptors:
the header of the request, the data and the status. The device writes the data of a read and reads
the data of a write, so the flags of the data descriptor have to change. A write sets them for itself
and puts them back when its wait ends; a write whose wait times out leaves them as they are, and a
read does not set them.
-/

namespace PsychWard.Blk

/-- `virtq_desc`. -/
structure VirtqDesc where
  addr : ℕ
  len : ℕ
  flags : ℕ
  next : ℕ
deriving DecidableEq, Repr

/-- `VIRTQ_DESC_F_NEXT` and `VIRTQ_DESC_F_WRITE`. -/
def descNext : ℕ := 1
def descWrite : ℕ := 2

/-- The queue in the second page of the window, the DMA page in front of it, and
`g_vq_avail_idx`. -/
structure BlkQueue where
  desc : ℕ → VirtqDesc
  availRing : ℕ → ℕ
  availIdx : ℕ
  reqType : ℕ
  reqSector : ℕ
  status : ℕ
  page : Memory

/-- What the device does while a function waits: the used index at each look, and the status and the
DMA page at the end of the wait. -/
structure DeviceRun where
  usedIdx : ℕ → ℕ
  status : ℕ
  page : Memory

/-- The initial value of `timeout_counter`. -/
def timeoutCounter : ℕ := 5000000

/-- The wait for the used index `idx`, from the look number `k` on; `false` for the timeout. -/
def waitUsed (usedIdx : ℕ → ℕ) (idx : ℕ) : ℕ → ℕ → Bool
  | _, 0 => false
  | k, counter + 1 => if usedIdx k = idx then true else waitUsed usedIdx idx (k + 1) counter

namespace BlkQueue

/-- The queue as `main` sets it up. -/
def start (shmPaddr : ℕ) : BlkQueue where
  desc := fun i =>
    if i = 0 then ⟨shmPaddr + 0x1000 + 0x200, 16, descNext, 1⟩
    else if i = 1 then ⟨0, 0, descNext + descWrite, 2⟩
    else if i = 2 then ⟨shmPaddr + 0x1000 + 0x220, 1, descWrite, 0⟩
    else ⟨0, 0, 0, 0⟩
  availRing := fun _ => 0
  availIdx := 0
  reqType := 0
  reqSector := 0
  status := 0
  page := fun _ => 0

/-- The chain goes into the available ring, and the index after it is stored for the device. -/
def publish (q : BlkQueue) : BlkQueue :=
  { q with
    availRing := Function.update q.availRing (q.availIdx % 16) 0
    availIdx := (q.availIdx + 1) % 2 ^ 16 }

/-- What `hardware_virtio_read` publishes. -/
def publishRead (q : BlkQueue) (shmPaddr sector len : ℕ) : BlkQueue :=
  publish
    { q with
      reqType := 0
      reqSector := sector
      status := 0xFF
      desc := Function.update q.desc 1 { q.desc 1 with addr := shmPaddr, len := len } }

/-- What `hardware_virtio_write` publishes. -/
def publishWrite (q : BlkQueue) (shmPaddr sector len : ℕ) (buffer : List UInt8) : BlkQueue :=
  publish
    { q with
      page := q.page.put 0 (buffer.take len)
      reqType := 1
      reqSector := sector
      status := 0xFF
      desc := Function.update q.desc 1 ⟨shmPaddr, len, descNext, 2⟩ }

/-- The queue after a wait. -/
def served (q : BlkQueue) (dev : DeviceRun) : BlkQueue :=
  { q with status := dev.status, page := dev.page }

/-- The flags of the data descriptor are put back. -/
def restored (q : BlkQueue) : BlkQueue :=
  { q with
    desc := Function.update q.desc 1 { q.desc 1 with flags := descNext + descWrite } }

end BlkQueue

/-- `count * 512` -/
def transferLen (count : ℕ) : ℕ := count * 512 % 2 ^ 32

/-- What a transfer comes to: the queue as it was published, if it was, the bytes or the success that
are returned, and the queue afterwards. -/
structure Transfer (α : Type) where
  published : Option BlkQueue
  result : α
  queue : BlkQueue

/-- `hardware_virtio_read`. -/
def hardwareVirtioRead (shmPaddr : ℕ) (q : BlkQueue) (sector count : ℕ) (dev : DeviceRun) :
    Transfer (Option (List UInt8)) :=
  let len := transferLen count
  if 4096 < len then ⟨none, none, q⟩
  else
    let p := q.publishRead shmPaddr sector len
    let after := p.served dev
    if !waitUsed dev.usedIdx p.availIdx 0 timeoutCounter then ⟨some p, none, after⟩
    else if after.status ≠ 0 then ⟨some p, none, after⟩
    else ⟨some p, some (after.page.bytes 0 len), after⟩

/-- `hardware_virtio_write`. -/
def hardwareVirtioWrite (shmPaddr : ℕ) (q : BlkQueue) (sector count : ℕ) (buffer : List UInt8)
    (dev : DeviceRun) : Transfer Bool :=
  let len := transferLen count
  if 4096 < len then ⟨none, false, q⟩
  else
    let p := q.publishWrite shmPaddr sector len buffer
    let after := p.served dev
    if !waitUsed dev.usedIdx p.availIdx 0 timeoutCounter then ⟨some p, false, after⟩
    else ⟨some p, decide (after.status = 0), after.restored⟩

/-! ## Runs of transfers -/

/-- A call of one of the two functions, and what the device does during it. -/
inductive BlkCall
  | read (sector count : ℕ) (dev : DeviceRun)
  | write (sector count : ℕ) (buffer : List UInt8) (dev : DeviceRun)

namespace BlkCall

/-- The call is not refused for its length. -/
def Fits : BlkCall → Prop
  | read _ count _ => transferLen count ≤ 4096
  | write _ count _ _ => transferLen count ≤ 4096

instance : DecidablePred Fits
  | read _ count _ => inferInstanceAs (Decidable (transferLen count ≤ 4096))
  | write _ count _ _ => inferInstanceAs (Decidable (transferLen count ≤ 4096))

def IsRead : BlkCall → Prop
  | read _ _ _ => True
  | write _ _ _ _ => False

def dev : BlkCall → DeviceRun
  | read _ _ dev => dev
  | write _ _ _ dev => dev

/-- The queue that the call publishes, `none` if it is refused, and the queue after the call. -/
def apply (shmPaddr : ℕ) (q : BlkQueue) : BlkCall → Option BlkQueue × BlkQueue
  | read sector count dev =>
    let t := hardwareVirtioRead shmPaddr q sector count dev
    (t.published, t.queue)
  | write sector count buffer dev =>
    let t := hardwareVirtioWrite shmPaddr q sector count buffer dev
    (t.published, t.queue)

/-- With `n` requests published before, none of the looks at the used index shows that the device is
done with the one of this call. -/
def TimesOut (c : BlkCall) (n : ℕ) : Prop :=
  ∀ k < timeoutCounter, c.dev.usedIdx k ≠ (n + 1) % 2 ^ 16

/-- The call is a write that publishes its request. -/
def Writes (c : BlkCall) : Prop := ¬ c.IsRead ∧ c.Fits

end BlkCall

def BlkStep (shmPaddr : ℕ) (q : BlkQueue) (c : BlkCall) (q' : BlkQueue) : Prop :=
  (c.apply shmPaddr q).2 = q'

/-- The device may write the data of a read and only read the data of a write. -/
structure Marked (p : BlkQueue) : Prop where
  read : p.reqType = 0 → (p.desc 1).flags = descNext + descWrite
  write : p.reqType = 1 → (p.desc 1).flags = descNext

/-- How many requests the calls have published. -/
def publishedCount (cs : List BlkCall) : ℕ := (cs.filter fun c => decide c.Fits).length

/-- The last write request that was published timed out. -/
def LateWrite (cs : List BlkCall) : Prop :=
  ∃ cs₁ c cs₂, cs = cs₁ ++ c :: cs₂ ∧ c.Writes ∧ c.TimesOut (publishedCount cs₁) ∧
    ∀ c' ∈ cs₂, ¬ c'.Writes

theorem waitUsed_eq_false {usedIdx : ℕ → ℕ} {idx k counter : ℕ} :
    waitUsed usedIdx idx k counter = false ↔ ∀ i < counter, usedIdx (k + i) ≠ idx := by
  induction counter generalizing k with
  | zero => exact iff_of_true rfl fun i hi => absurd hi (Nat.not_lt_zero i)
  | succ counter ih =>
    rw [waitUsed, Nat.forall_lt_succ_left]
    split
    · rename_i h
      exact iff_of_false (by decide) fun hall => hall.1 h
    · rename_i h
      rw [ih]
      refine ⟨fun hall => ⟨h, fun i hi => ?_⟩, fun hall i hi => ?_⟩
      · rw [← Nat.add_assoc, Nat.add_right_comm]
        exact hall i hi
      · have hne := hall.2 i hi
        rwa [← Nat.add_assoc, Nat.add_right_comm] at hne

theorem publishedCount_snoc (cs : List BlkCall) (c : BlkCall) :
    publishedCount (cs ++ [c]) = publishedCount cs + if c.Fits then 1 else 0 := by
  rw [publishedCount, publishedCount, List.filter_append, List.length_append, List.filter_singleton]
  congr 1
  by_cases h : c.Fits <;> simp [h]

theorem lateWrite_snoc {cs : List BlkCall} {c : BlkCall} : LateWrite (cs ++ [c]) ↔
    c.Writes ∧ c.TimesOut (publishedCount cs) ∨ ¬ c.Writes ∧ LateWrite cs := by
  constructor
  · rintro ⟨cs₁, w, cs₂, heq, hw, hlate, hrest⟩
    rcases List.eq_nil_or_concat cs₂ with rfl | ⟨cs₂, c', rfl⟩
    · obtain ⟨rfl, hcw⟩ := List.append_inj' heq rfl
      obtain rfl := List.singleton_inj.mp hcw
      exact .inl ⟨hw, hlate⟩
    · rw [List.concat_eq_append] at heq hrest
      rw [← List.cons_append, ← List.append_assoc] at heq
      obtain ⟨rfl, hcw⟩ := List.append_inj' heq rfl
      obtain rfl := List.singleton_inj.mp hcw
      exact .inr ⟨hrest c (by simp), cs₁, w, cs₂, rfl, hw, hlate, fun c' hc' =>
        hrest c' (List.mem_append_left _ hc')⟩
  · rintro (⟨hw, hlate⟩ | ⟨hno, cs₁, w, cs₂, rfl, hw, hlate, hrest⟩)
    · exact ⟨cs, c, [], rfl, hw, hlate, fun c' hc' => absurd hc' List.not_mem_nil⟩
    · refine ⟨cs₁, w, cs₂ ++ [c], by simp, hw, hlate, fun c' hc' => ?_⟩
      rcases List.mem_append.mp hc' with hc' | hc'
      · exact hrest c' hc'
      · rwa [List.mem_singleton.mp hc']

/-- What the calls have left: the index counts the requests, and the data descriptor is marked for a
read unless the last write timed out. -/
structure QueueInv (cs : List BlkCall) (q : BlkQueue) : Prop where
  availIdx : q.availIdx = publishedCount cs % 2 ^ 16
  late : LateWrite cs → (q.desc 1).flags = descNext
  ready : ¬ LateWrite cs → (q.desc 1).flags = descNext + descWrite

section
variable {shmPaddr : ℕ} {cs : List BlkCall} {q : BlkQueue}

theorem queueInv_start : QueueInv [] (.start shmPaddr) := by
  refine ⟨rfl, fun hlate => ?_, fun _ => rfl⟩
  obtain ⟨cs₁, c, cs₂, heq, -⟩ := hlate
  exact absurd heq.symm (by simp)

/-- A call that publishes no write leaves the flags alone. -/
theorem QueueInv.keep (h : QueueInv cs q) {c : BlkCall} (hc : ¬ c.Writes) {q' : BlkQueue}
    (hidx : q'.availIdx = publishedCount (cs ++ [c]) % 2 ^ 16)
    (hflags : (q'.desc 1).flags = (q.desc 1).flags) : QueueInv (cs ++ [c]) q' := by
  have hlate : LateWrite (cs ++ [c]) ↔ LateWrite cs := by
    rw [lateWrite_snoc]
    exact ⟨fun hl => hl.elim (fun hw => absurd hw.1 hc) fun hl => hl.2, fun hl => .inr ⟨hc, hl⟩⟩
  refine ⟨hidx, fun hl => ?_, fun hl => ?_⟩
  · rw [hflags, h.late (hlate.mp hl)]
  · rw [hflags, h.ready (mt hlate.mpr hl)]

/-- A read that is not refused leaves what it published, after the wait. -/
theorem apply_read (shmPaddr : ℕ) (q : BlkQueue) (sector : ℕ) {count : ℕ} (dev : DeviceRun)
    (hlen : transferLen count ≤ 4096) : (BlkCall.read sector count dev).apply shmPaddr q =
      (some (q.publishRead shmPaddr sector (transferLen count)),
        (q.publishRead shmPaddr sector (transferLen count)).served dev) := by
  simp only [BlkCall.apply, hardwareVirtioRead, if_neg (Nat.not_lt.mpr hlen)]
  split
  · rfl
  · split <;> rfl

/-- A write that is not refused puts the flags back when its wait ends. -/
theorem apply_write (shmPaddr : ℕ) {q : BlkQueue} (sector : ℕ) {count : ℕ} (buffer : List UInt8)
    (dev : DeviceRun) (hlen : transferLen count ≤ 4096) {p : BlkQueue}
    (hp : q.publishWrite shmPaddr sector (transferLen count) buffer = p) :
    (BlkCall.write sector count buffer dev).apply shmPaddr q =
      (some p, if waitUsed dev.usedIdx p.availIdx 0 timeoutCounter then (p.served dev).restored
        else p.served dev) := by
  subst hp
  simp only [BlkCall.apply, hardwareVirtioWrite, if_neg (Nat.not_lt.mpr hlen)]
  split
  · rename_i hwait
    rw [if_neg (by simpa using hwait)]
  · rename_i hwait
    rw [if_pos (by simpa using hwait)]

theorem apply_refused {c : BlkCall} (hc : ¬ c.Fits) : c.apply shmPaddr q = (none, q) := by
  cases c with
  | read sector count dev =>
    simp only [BlkCall.apply, hardwareVirtioRead, if_pos (Nat.not_le.mp hc)]
  | write sector count buffer dev =>
    simp only [BlkCall.apply, hardwareVirtioWrite, if_pos (Nat.not_le.mp hc)]

/-- The step lemma, one case for each way a call can go. -/
theorem QueueInv.step (h : QueueInv cs q) (c : BlkCall) :
    QueueInv (cs ++ [c]) (c.apply shmPaddr q).2 := by
  have hcount := publishedCount_snoc cs c
  by_cases hfits : c.Fits
  case neg =>
    rw [if_neg hfits] at hcount
    rw [apply_refused hfits]
    exact h.keep (fun hw => hfits hw.2) (by rw [hcount, h.availIdx, Nat.add_zero]) rfl
  rw [if_pos hfits] at hcount
  cases c with
  | read sector count dev =>
    have hread : ¬ (BlkCall.read sector count dev).Writes := fun hw => hw.1 trivial
    rw [apply_read shmPaddr q sector dev hfits]
    refine h.keep hread ?_ ?_
    · rw [hcount]
      simp only [BlkQueue.served, BlkQueue.publishRead, BlkQueue.publish, h.availIdx]
      omega
    · simp only [BlkQueue.served, BlkQueue.publishRead, BlkQueue.publish, Function.update_self]
  | write sector count buffer dev =>
    have hw : (BlkCall.write sector count buffer dev).Writes := ⟨id, hfits⟩
    obtain ⟨p, hp⟩ : ∃ p, q.publishWrite shmPaddr sector (transferLen count) buffer = p := ⟨_, rfl⟩
    have hidx : p.availIdx = publishedCount (cs ++ [.write sector count buffer dev]) % 2 ^ 16 := by
      rw [hcount, ← hp]
      simp only [BlkQueue.publishWrite, BlkQueue.publish, h.availIdx]
      omega
    have hflags : (p.desc 1).flags = descNext := by
      rw [← hp]
      simp only [BlkQueue.publishWrite, BlkQueue.publish, Function.update_self]
    have hlate : LateWrite (cs ++ [.write sector count buffer dev]) ↔
        waitUsed dev.usedIdx p.availIdx 0 timeoutCounter = false := by
      rw [lateWrite_snoc, waitUsed_eq_false, hidx, hcount]
      simp only [Nat.zero_add]
      exact ⟨fun hl => hl.elim (fun hl => hl.2) fun hl => absurd hw hl.1, fun hl => .inl ⟨hw, hl⟩⟩
    rw [apply_write shmPaddr sector buffer dev hfits hp]
    -- the wait decides whether the flags go back
    cases hwait : waitUsed dev.usedIdx p.availIdx 0 timeoutCounter with
    | false =>
      rw [if_neg Bool.false_ne_true]
      exact ⟨hidx, fun _ => hflags, fun hno => absurd (hlate.mpr hwait) hno⟩
    | true =>
      rw [if_pos rfl]
      refine ⟨hidx, fun hl => ?_, fun _ => ?_⟩
      · exact absurd ((hlate.mp hl).symm.trans hwait) Bool.false_ne_true
      · simp only [BlkQueue.restored, Function.update_self]

theorem queueInv_of_run (h : Run (BlkStep shmPaddr) (.start shmPaddr) cs q) : QueueInv cs q := by
  induction h with
  | nil => exact queueInv_start
  | snoc _ hstep ih => exact hstep ▸ ih.step _

/-- **The direction of the data.** After any calls, a request is published with the direction of its
kind if and only if it is not a read after a write that timed out, with no other write in between. -/
theorem published_marked_iff {c : BlkCall} {p : BlkQueue}
    (hrun : Run (BlkStep shmPaddr) (.start shmPaddr) cs q)
    (hp : (c.apply shmPaddr q).1 = some p) : Marked p ↔ (c.IsRead → ¬ LateWrite cs) := by
  have hinv := queueInv_of_run hrun
  have hfits : c.Fits := by
    by_contra hno
    rw [apply_refused hno] at hp
    cases hp
  cases c with
  | read sector count dev =>
    rw [apply_read shmPaddr q sector dev hfits, Option.some.injEq] at hp
    -- a read leaves the direction as the calls before it have left it
    have hflags : (p.desc 1).flags = (q.desc 1).flags := by
      rw [← hp]
      simp only [BlkQueue.publishRead, BlkQueue.publish, Function.update_self]
    have htype : p.reqType = 0 := by rw [← hp]; rfl
    constructor
    · intro hmarked _ hlate
      have heq := hmarked.read htype
      rw [hflags, hinv.late hlate] at heq
      exact absurd heq (by decide)
    · intro hno
      refine ⟨fun _ => ?_, fun hone => absurd (htype.symm.trans hone) (by decide)⟩
      rw [hflags, hinv.ready (hno trivial)]
  | write sector count buffer dev =>
    rw [apply_write shmPaddr sector buffer dev hfits rfl, Option.some.injEq] at hp
    refine iff_of_true ⟨fun hzero => ?_, fun _ => ?_⟩ fun hread => hread.elim
    · rw [← hp] at hzero
      exact absurd hzero Nat.one_ne_zero
    · rw [← hp]
      simp only [BlkQueue.publishWrite, BlkQueue.publish, Function.update_self]

end

/-- A device that is never done. -/
def silentDevice : DeviceRun := ⟨fun _ => 0, 0xFF, fun _ => 0⟩

/-- A device that is done with the first request at once. -/
def promptDevice : DeviceRun := ⟨fun _ => 1, 0, fun _ => 0⟩

/-- The queue when a sector has been written. -/
def afterWrite : BlkQueue :=
  ((BlkCall.write 0 1 [1, 2, 3] promptDevice).apply 0x1000 (.start 0x1000)).2

/-- The next call reads it. -/
theorem published_marked_afterWrite :
    Marked (afterWrite.publishRead 0x1000 0 (transferLen 1)) := by
  have hp := congrArg Prod.fst
    (apply_read 0x1000 afterWrite 0 silentDevice (show transferLen 1 ≤ 4096 by decide))
  refine (published_marked_iff (.single rfl) hp).mpr fun _ hlate => ?_
  rw [← List.nil_append [_], lateWrite_snoc] at hlate
  rcases hlate with ⟨-, htimesOut⟩ | ⟨hno, -⟩
  · exact htimesOut 0 (by decide) rfl
  · exact hno ⟨id, by decide⟩

/-- A write times out, and the next read hands the device a buffer that it may not write. -/
theorem not_marked_afterTimeout : ¬ ∀ (shmPaddr : ℕ) (cs : List BlkCall) (q p : BlkQueue)
    (c : BlkCall), Run (BlkStep shmPaddr) (.start shmPaddr) cs q →
      (c.apply shmPaddr q).1 = some p → Marked p := by
  intro h
  have hfits : transferLen 1 ≤ 4096 := by decide
  obtain ⟨p, hp⟩ : ∃ p, (BlkQueue.start 0x1000).publishWrite 0x1000 0 (transferLen 1) [] = p :=
    ⟨_, rfl⟩
  have hidx : p.availIdx = 1 := by rw [← hp]; rfl
  have hflags : (p.desc 1).flags = descNext := by rw [← hp]; rfl
  have hwait : waitUsed silentDevice.usedIdx p.availIdx 0 timeoutCounter = false :=
    waitUsed_eq_false.mpr fun _ _ => hidx ▸ Nat.zero_ne_one
  have hwrite := congrArg Prod.snd (apply_write 0x1000 0 [] silentDevice hfits hp)
  rw [hwait, if_neg Bool.false_ne_true] at hwrite
  have hread := congrArg Prod.fst (apply_read 0x1000 (p.served silentDevice) 0 silentDevice hfits)
  have hmarked := (h _ _ _ _ _ (.single hwrite) hread).read rfl
  simp only [BlkQueue.publishRead, BlkQueue.publish, BlkQueue.served, Function.update_self,
    hflags] at hmarked
  exact absurd hmarked (by decide)

end PsychWard.Blk
