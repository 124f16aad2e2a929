import PsychWard.Rootserver.SlotOwners
import Mathlib.Algebra.Group.Nat.Defs
import Mathlib.Data.List.Forall2
import Mathlib.Logic.Function.Basic

/-!
# Frames of devices

`alloc_device_frame` wants the page at a given physical address. It finds the region of untyped memory
with the address and retypes pages of it until it is there; a table of watermarks, with 0 for a region
that is not yet used, follows the pointer that the kernel has for each region. The kernel is outside
of the code: retyping a region into a small page takes the next 4 KiB of it, and fails when the slot
for the page is taken.

Physical addresses end below `2 ^ 64`, so additions of addresses do not wrap.
-/

namespace PsychWard.Rootserver

/-- `seL4_UntypedDesc` of a region that starts at a page. -/
structure UntypedDesc where
  paddr : ℕ
  sizeBits : ℕ
  aligned : 4096 ∣ paddr
  fits : paddr + 2 ^ sizeBits < 2 ^ 64

/-- The size of `seL4_BootInfo::untypedList` -/
def maxUntypedCaps : ℕ := 230

/-- The untyped regions of `seL4_BootInfo`. -/
structure BootInfo where
  untypedList : List UntypedDesc
  length_le : untypedList.length ≤ maxUntypedCaps

/-- `target_paddr >= start && target_paddr < start + size` -/
def UntypedDesc.Contains (r : UntypedDesc) (targetPaddr : ℕ) : Prop :=
  r.paddr ≤ targetPaddr ∧ targetPaddr < r.paddr + 2 ^ r.sizeBits

instance (r : UntypedDesc) (targetPaddr : ℕ) : Decidable (r.Contains targetPaddr) :=
  inferInstanceAs (Decidable (_ ∧ _))

/-- The first region with the address. -/
def BootInfo.regionOf (info : BootInfo) (targetPaddr : ℕ) : Option ℕ :=
  info.untypedList.findIdx? fun r => r.Contains targetPaddr

/-- The allocator, `untyped_watermarks`, and what the kernel knows: the pages it has taken from each
region, and the page that is behind the frame capability in a slot. -/
structure DeviceFrames where
  alloc : PsychAllocator
  untypedWatermarks : ℕ → ℕ
  taken : ℕ → ℕ
  frame : ℕ → Option ℕ

namespace DeviceFrames

variable (info : BootInfo)

/-- `seL4_Untyped_Retype` of the capability of the region `idx` to a small page in `slot`. -/
def retype (s : DeviceFrames) (idx slot : ℕ) : DeviceFrames :=
  match info.untypedList[idx]?, s.frame slot with
  | some r, none =>
    { s with
      taken := Function.update s.taken idx (s.taken idx + 1)
      frame := Function.update s.frame slot (some (r.paddr + 4096 * s.taken idx)) }
  | _, _ => s

/-- A slot is allocated, a page is retyped into it and the watermark moves on; the slot. -/
def nextPage (s : DeviceFrames) (idx : ℕ) : ℕ × DeviceFrames :=
  let (slot, alloc) := s.alloc.allocSlot
  let s := retype info { s with alloc := alloc } idx slot
  (slot, { s with
    untypedWatermarks := Function.update s.untypedWatermarks idx (s.untypedWatermarks idx + 4096) })

theorem untypedWatermarks_nextPage (s : DeviceFrames) (idx : ℕ) :
    (s.nextPage info idx).2.untypedWatermarks =
      Function.update s.untypedWatermarks idx (s.untypedWatermarks idx + 4096) := by
  simp only [nextPage, retype]
  split <;> rfl

/-- `while (untyped_watermarks[idx] < target_paddr)` -/
def fill (s : DeviceFrames) (idx targetPaddr : ℕ) : DeviceFrames :=
  if s.untypedWatermarks idx < targetPaddr then fill (s.nextPage info idx).2 idx targetPaddr else s
termination_by targetPaddr - s.untypedWatermarks idx
decreasing_by
  rw [untypedWatermarks_nextPage, Function.update_self]
  omega

/-- The first use of a region starts its watermark. -/
def startWatermark (s : DeviceFrames) (idx : ℕ) (r : UntypedDesc) : DeviceFrames :=
  if s.untypedWatermarks idx = 0 then
    { s with untypedWatermarks := Function.update s.untypedWatermarks idx r.paddr }
  else s

/-- `alloc_device_frame`: the slot of the frame; `none` is the endless loop when no region has the
address. -/
def allocDeviceFrame (s : DeviceFrames) (targetPaddr : ℕ) : Option (ℕ × DeviceFrames) :=
  match info.regionOf targetPaddr with
  | none => none
  | some idx =>
    match info.untypedList[idx]? with
    | none => none
    | some r => some (nextPage info (fill info (startWatermark s idx r) idx targetPaddr) idx)

/-- The calls of `main`, one after the other. -/
def allocDeviceFrames (s : DeviceFrames) : List ℕ → Option (List ℕ × DeviceFrames)
  | [] => some ([], s)
  | targetPaddr :: targets => do
    let (frame, s) ← allocDeviceFrame info s targetPaddr
    let (frames, s) ← allocDeviceFrames s targets
    some (frame :: frames, s)

end DeviceFrames

/-- The physical addresses of the devices that `main` maps: PL011, PL031 and four virtio slots. -/
def deviceTargets : List ℕ :=
  [0x09000000, 0x09010000] ++ (List.range 4).map fun i => 0x0a000000 + i * 4096

/-! ## Enough slots -/

/-- The slots that `alloc_slot` has, in the order in which it returns them. -/
def PsychAllocator.available (a : PsychAllocator) : List ℕ :=
  a.freeSlots ++ List.range' a.currentSlot (a.maxSlot - a.currentSlot)

/-- The slots that calls take, from given watermarks on: one for each page up to the target. -/
def slotsFor (info : BootInfo) (watermarks : ℕ → ℕ) : List ℕ → ℕ
  | [] => 0
  | targetPaddr :: targets =>
    match info.regionOf targetPaddr with
    | none => 0
    | some idx =>
      let mark :=
        if watermarks idx = 0 then (info.untypedList[idx]?.map UntypedDesc.paddr).getD 0
        else watermarks idx
      (targetPaddr - mark) / 4096 + 1 +
        slotsFor info (Function.update watermarks idx (targetPaddr + 4096)) targets

theorem PsychAllocator.allocSlot_available {a : PsychAllocator} {slot : ℕ} {rest : List ℕ}
    (h : a.available = slot :: rest) :
    a.allocSlot.1 = slot ∧ a.allocSlot.2.available = rest := by
  rcases hf : a.freeSlots with _ | ⟨first, pool⟩
  · rw [available, hf, List.nil_append] at h
    have hlt : a.currentSlot < a.maxSlot := by
      have hlen := congrArg List.length h
      rw [List.length_range', List.length_cons] at hlen
      omega
    obtain ⟨k, hk⟩ := Nat.exists_eq_add_of_lt hlt
    have hcount : a.maxSlot - a.currentSlot = k + 1 := by omega
    have hrest : a.maxSlot - (a.currentSlot + 1) = k := by omega
    rw [hcount, List.range'_succ] at h
    obtain ⟨rfl, rfl⟩ := List.cons.inj h
    rw [allocSlot_bump hf hlt]
    exact ⟨rfl, by rw [available, hf, List.nil_append, hrest]⟩
  · rw [available, hf, List.cons_append] at h
    obtain ⟨rfl, rfl⟩ := List.cons.inj h
    rw [allocSlot_pool hf]
    exact ⟨rfl, rfl⟩

namespace DeviceFrames

variable {info : BootInfo} {s s' s'' : DeviceFrames} {idx slot targetPaddr b n : ℕ} {r : UntypedDesc}

/-! ## One page -/

/-- The slots to come are empty, each one once. -/
structure FreshSlots (s : DeviceFrames) : Prop where
  nodup : s.alloc.available.Nodup
  empty : ∀ slot ∈ s.alloc.available, s.frame slot = none

/-- Frames stay where they are. -/
def Grows (s s' : DeviceFrames) : Prop :=
  ∀ slot page, s.frame slot = some page → s'.frame slot = some page

theorem Grows.refl (s : DeviceFrames) : Grows s s := fun _ _ h => h

theorem Grows.trans (h : Grows s s') (h' : Grows s' s'') : Grows s s'' :=
  fun slot page hp => h' slot page (h slot page hp)

/-- A page of the region: the next one of the kernel goes into the next slot. -/
structure TakesPage (s : DeviceFrames) (idx : ℕ) (r : UntypedDesc) (slot : ℕ) (s' : DeviceFrames) :
    Prop where
  available : s.alloc.available = slot :: s'.alloc.available
  watermarks : s'.untypedWatermarks =
    Function.update s.untypedWatermarks idx (s.untypedWatermarks idx + 4096)
  taken : s'.taken = Function.update s.taken idx (s.taken idx + 1)
  frame : s'.frame slot = some (r.paddr + 4096 * s.taken idx)
  grows : Grows s s'
  fresh : FreshSlots s'

theorem nextPage_spec (hr : info.untypedList[idx]? = some r) (hs : FreshSlots s)
    (hlen : 0 < s.alloc.available.length) :
    TakesPage s idx r (s.nextPage info idx).1 (s.nextPage info idx).2 := by
  obtain ⟨slot, rest, hav⟩ := List.exists_cons_of_length_pos hlen
  obtain ⟨hslot, hrest⟩ := PsychAllocator.allocSlot_available hav
  have hnone : s.frame slot = none := hs.empty slot (hav ▸ List.mem_cons_self)
  have hnd := List.nodup_cons.mp (hav ▸ hs.nodup)
  have hne : ∀ other, s.frame other ≠ none → other ≠ slot := fun other h heq => h (heq ▸ hnone)
  have heq : s.nextPage info idx = (slot,
      { alloc := s.alloc.allocSlot.2
        untypedWatermarks :=
          Function.update s.untypedWatermarks idx (s.untypedWatermarks idx + 4096)
        taken := Function.update s.taken idx (s.taken idx + 1)
        frame := Function.update s.frame slot (some (r.paddr + 4096 * s.taken idx)) }) := by
    simp only [nextPage, retype, hr, hslot, hnone]
  rw [heq]
  refine ⟨by rw [hav, hrest], rfl, rfl, Function.update_self .., fun other page hp => ?_,
    ⟨hrest ▸ hnd.2, fun other hmem => ?_⟩⟩
  · exact (Function.update_of_ne (hne other (by simp [hp])) _ _).trans hp
  · rw [hrest] at hmem
    have hother : other ≠ slot := fun h => hnd.1 (h ▸ hmem : slot ∈ rest)
    exact (Function.update_of_ne hother _ _).trans (hs.empty other (hav ▸ List.mem_cons_of_mem _ hmem))

/-! ## The pages up to the target -/

/-- Pages of the region `idx` are taken, `n` of them. -/
structure TakesPages (s : DeviceFrames) (idx n : ℕ) (s' : DeviceFrames) : Prop where
  available : s'.alloc.available = s.alloc.available.drop n
  watermarks : s'.untypedWatermarks =
    Function.update s.untypedWatermarks idx (s.untypedWatermarks idx + 4096 * n)
  taken : s'.taken = Function.update s.taken idx (s.taken idx + n)
  grows : Grows s s'
  fresh : FreshSlots s'

theorem TakesPages.zero (hs : FreshSlots s) : TakesPages s idx 0 s :=
  ⟨rfl, (Function.update_eq_self ..).symm, (Function.update_eq_self ..).symm, .refl s, hs⟩

theorem TakesPages.cons (h : TakesPage s idx r slot s') (h' : TakesPages s' idx n s'') :
    TakesPages s idx (n + 1) s'' := by
  refine ⟨?_, ?_, ?_, h.grows.trans h'.grows, h'.fresh⟩
  · rw [h'.available, h.available, List.drop_succ_cons]
  · rw [h'.watermarks, h.watermarks, Function.update_idem, Function.update_self, Nat.add_assoc,
      Nat.mul_succ, Nat.add_comm 4096]
  · rw [h'.taken, h.taken, Function.update_idem, Function.update_self, Nat.add_assoc,
      Nat.add_comm 1]

theorem TakesPages.snoc (h : TakesPages s idx n s') (h' : TakesPage s' idx r slot s'') :
    TakesPages s idx (n + 1) s'' := by
  refine ⟨?_, ?_, ?_, h.grows.trans h'.grows, h'.fresh⟩
  · rw [← List.drop_drop, ← h.available, h'.available, List.drop_succ_cons, List.drop_zero]
  · rw [h'.watermarks, h.watermarks, Function.update_idem, Function.update_self, Nat.mul_succ,
      Nat.add_assoc]
  · rw [h'.taken, h.taken, Function.update_idem, Function.update_self, Nat.add_assoc]

/-- The loop takes the pages in front of the target. -/
theorem fill_spec (hr : info.untypedList[idx]? = some r) (hs : FreshSlots s)
    (hlen : n ≤ s.alloc.available.length)
    (htarget : targetPaddr = s.untypedWatermarks idx + 4096 * n) :
    TakesPages s idx n (s.fill info idx targetPaddr) := by
  induction n generalizing s with
  | zero =>
    rw [fill, if_neg (by omega)]
    exact .zero hs
  | succ n ih =>
    rw [fill, if_pos (by omega)]
    have hpage := nextPage_spec hr hs (by omega)
    have hav := congrArg List.length hpage.available
    rw [List.length_cons] at hav
    refine .cons hpage (ih hpage.fresh (by omega) ?_)
    rw [hpage.watermarks, Function.update_self]
    omega

/-! ## One frame -/

/-- The watermarks are those of the kernel, 0 for an unused region, and do not go beyond `b`. -/
structure InStep (info : BootInfo) (s : DeviceFrames) (b : ℕ) : Prop where
  mark : ∀ idx r, info.untypedList[idx]? = some r →
    s.untypedWatermarks idx = 0 ∧ s.taken idx = 0 ∨
      s.untypedWatermarks idx = r.paddr + 4096 * s.taken idx
  le : ∀ idx, s.untypedWatermarks idx ≤ b

/-- Where the next page of the region is. -/
def nextPaddr (s : DeviceFrames) (idx : ℕ) (r : UntypedDesc) : ℕ :=
  if s.untypedWatermarks idx = 0 then r.paddr else s.untypedWatermarks idx

theorem nextPaddr_eq (h : InStep info s b) (hr : info.untypedList[idx]? = some r) :
    s.nextPaddr idx r = r.paddr + 4096 * s.taken idx := by
  have hmark := h.mark idx r hr
  unfold nextPaddr
  split <;> omega

theorem nextPaddr_le (h : InStep info s b) (hr : r.paddr ≤ targetPaddr) (hb : b ≤ targetPaddr) :
    s.nextPaddr idx r ≤ targetPaddr := by
  have hle := h.le idx
  unfold nextPaddr
  split <;> omega

/-- The start of a watermark changes nothing else. -/
theorem startWatermark_keeps (s : DeviceFrames) (idx : ℕ) (r : UntypedDesc) :
    (s.startWatermark idx r).alloc = s.alloc ∧ (s.startWatermark idx r).taken = s.taken ∧
      (s.startWatermark idx r).frame = s.frame := by
  unfold startWatermark
  split <;> exact ⟨rfl, rfl, rfl⟩

theorem untypedWatermarks_start (s : DeviceFrames) (idx : ℕ) (r : UntypedDesc) :
    (s.startWatermark idx r).untypedWatermarks =
      Function.update s.untypedWatermarks idx (s.nextPaddr idx r) := by
  unfold startWatermark nextPaddr
  split
  · rfl
  · rw [Function.update_eq_self]

/-- The frame in `slot` is the target, and pages up to it are taken from the region `idx`. -/
structure TakesFrame (info : BootInfo) (s : DeviceFrames) (targetPaddr idx : ℕ) (r : UntypedDesc)
    (slot : ℕ) (s' : DeviceFrames) : Prop where
  frame : s'.frame slot = some targetPaddr
  available : s'.alloc.available =
    s.alloc.available.drop ((targetPaddr - s.nextPaddr idx r) / 4096 + 1)
  watermarks : s'.untypedWatermarks =
    Function.update s.untypedWatermarks idx (targetPaddr + 4096)
  grows : Grows s s'
  fresh : FreshSlots s'
  inStep : InStep info s' (targetPaddr + 4096)

theorem regionOf_spec (hin : ∃ r ∈ info.untypedList, r.Contains targetPaddr) :
    ∃ idx r, info.regionOf targetPaddr = some idx ∧ info.untypedList[idx]? = some r ∧
      r.Contains targetPaddr := by
  have hsome : (info.regionOf targetPaddr).isSome := by
    rw [BootInfo.regionOf, List.findIdx?_isSome, List.any_eq_true]
    obtain ⟨r, hr, hc⟩ := hin
    exact ⟨r, hr, decide_eq_true hc⟩
  obtain ⟨idx, hidx⟩ := Option.isSome_iff_exists.mp hsome
  obtain ⟨hlt, hc, -⟩ := List.findIdx?_eq_some_iff_getElem.mp hidx
  exact ⟨idx, _, hidx, List.getElem?_eq_getElem hlt, of_decide_eq_true hc⟩

/-- The pages in front of the target and then that at the target. -/
theorem TakesFrame.of_pages (h : InStep info s b) (hb : b ≤ targetPaddr)
    (hr : info.untypedList[idx]? = some r)
    (htarget : targetPaddr = s.nextPaddr idx r + 4096 * n)
    (hfill : TakesPages (s.startWatermark idx r) idx n s')
    (hpage : TakesPage s' idx r slot s'') : TakesFrame info s targetPaddr idx r slot s'' := by
  have hmark := nextPaddr_eq h hr
  have hall := hfill.snoc hpage
  have hcount : (targetPaddr - s.nextPaddr idx r) / 4096 = n := by omega
  obtain ⟨halloc, htaken, hframe⟩ := startWatermark_keeps s idx r
  have hwater : s''.untypedWatermarks =
      Function.update s.untypedWatermarks idx (targetPaddr + 4096) := by
    rw [hall.watermarks, untypedWatermarks_start, Function.update_idem, Function.update_self, htarget,
      Nat.mul_succ, Nat.add_assoc]
  refine ⟨?_, by rw [hall.available, halloc, hcount], hwater,
    fun i page hp => hall.grows i page (by rwa [hframe]), hall.fresh, fun i x hx => ?_, fun i => ?_⟩
  · rw [hpage.frame, hfill.taken, htaken, Function.update_self, htarget, hmark, Nat.mul_add,
      Nat.add_assoc]
  · rw [hwater, hall.taken, htaken]
    by_cases hi : i = idx
    · subst hi
      obtain rfl := Option.some.inj (hx.symm.trans hr)
      rw [Function.update_self, Function.update_self]
      exact .inr (by omega)
    · rw [Function.update_of_ne hi, Function.update_of_ne hi]
      exact h.mark i x hx
  · rw [hwater]
    by_cases hi : i = idx
    · rw [hi, Function.update_self]
    · rw [Function.update_of_ne hi]
      exact (h.le i).trans (hb.trans (Nat.le_add_right _ _))

theorem allocDeviceFrame_spec (hregion : info.regionOf targetPaddr = some idx)
    (hr : info.untypedList[idx]? = some r) (hc : r.Contains targetPaddr)
    (haligned : 4096 ∣ targetPaddr) (hs : FreshSlots s) (h : InStep info s b) (hb : b ≤ targetPaddr)
    (hlen : (targetPaddr - s.nextPaddr idx r) / 4096 + 1 ≤ s.alloc.available.length) :
    ∃ slot s', s.allocDeviceFrame info targetPaddr = some (slot, s') ∧
      TakesFrame info s targetPaddr idx r slot s' := by
  have hmark := nextPaddr_eq h hr
  have hle : s.nextPaddr idx r ≤ targetPaddr := nextPaddr_le h hc.1 hb
  have hpages :
      targetPaddr = s.nextPaddr idx r + 4096 * ((targetPaddr - s.nextPaddr idx r) / 4096) := by
    have := r.aligned
    omega
  obtain ⟨halloc, -, hframe⟩ := startWatermark_keeps s idx r
  have hstart : FreshSlots (s.startWatermark idx r) :=
    ⟨by rw [halloc]; exact hs.nodup, by rw [halloc, hframe]; exact hs.empty⟩
  have hwater : (s.startWatermark idx r).untypedWatermarks idx = s.nextPaddr idx r := by
    rw [untypedWatermarks_start, Function.update_self]
  have hfill : TakesPages (s.startWatermark idx r) idx ((targetPaddr - s.nextPaddr idx r) / 4096)
      ((s.startWatermark idx r).fill info idx targetPaddr) :=
    fill_spec hr hstart (by rw [halloc]; omega) (by rw [hwater]; exact hpages)
  have hleft : 0 < ((s.startWatermark idx r).fill info idx targetPaddr).alloc.available.length := by
    rw [hfill.available, List.length_drop, halloc]
    omega
  have hpage := nextPage_spec hr hfill.fresh hleft
  refine ⟨_, _, ?_, .of_pages h hb hr hpages hfill hpage⟩
  simp only [allocDeviceFrame, hregion, hr]

/-- The kernel is only asked for pages that the region has, when the region is a page or more. -/
theorem TakesFrame.within (h : TakesFrame info s targetPaddr idx r slot s')
    (hr : info.untypedList[idx]? = some r) (hc : r.Contains targetPaddr)
    (haligned : 4096 ∣ targetPaddr) (hsize : 12 ≤ r.sizeBits) :
    4096 * s'.taken idx ≤ 2 ^ r.sizeBits := by
  have hpage : 4096 ∣ 2 ^ r.sizeBits := Nat.pow_dvd_pow 2 hsize
  have hmark := h.inStep.mark idx r hr
  rw [h.watermarks, Function.update_self] at hmark
  have hlt := hc.2
  have hr' := r.aligned
  omega

/-! ## The frames of all devices -/

/-- Nothing has been taken from a region yet. -/
structure Boot (s : DeviceFrames) : Prop where
  watermarks : ∀ idx, s.untypedWatermarks idx = 0
  taken : ∀ idx, s.taken idx = 0
  fresh : FreshSlots s

theorem Boot.inStep (h : Boot s) : InStep info s 0 :=
  ⟨fun idx _ _ => .inl ⟨h.watermarks idx, h.taken idx⟩, fun idx => (h.watermarks idx).le⟩

theorem slotsFor_cons (hregion : info.regionOf targetPaddr = some idx)
    (hr : info.untypedList[idx]? = some r) (targets : List ℕ) :
    slotsFor info s.untypedWatermarks (targetPaddr :: targets) =
      (targetPaddr - s.nextPaddr idx r) / 4096 + 1 +
        slotsFor info (Function.update s.untypedWatermarks idx (targetPaddr + 4096)) targets := by
  simp only [slotsFor, hregion, hr, nextPaddr, Option.map_some, Option.getD_some]

theorem allocDeviceFrames_spec {targets : List ℕ} (hs : FreshSlots s) (h : InStep info s b)
    (hb : ∀ t ∈ targets, b ≤ t) (hinc : targets.Pairwise (· < ·))
    (haligned : ∀ t ∈ targets, 4096 ∣ t)
    (hin : ∀ t ∈ targets, ∃ r ∈ info.untypedList, r.Contains t)
    (hlen : slotsFor info s.untypedWatermarks targets ≤ s.alloc.available.length) :
    ∃ frames s', s.allocDeviceFrames info targets = some (frames, s') ∧ Grows s s' ∧
      List.Forall₂ (fun slot page => s'.frame slot = some page) frames targets := by
  induction targets generalizing s b with
  | nil => exact ⟨[], s, rfl, .refl s, .nil⟩
  | cons t targets ih =>
    obtain ⟨idx, r, hregion, hr, hc⟩ := regionOf_spec (hin t List.mem_cons_self)
    obtain ⟨hlt, hinc'⟩ := List.pairwise_cons.mp hinc
    rw [slotsFor_cons hregion hr] at hlen
    have ht := haligned t List.mem_cons_self
    obtain ⟨slot, s₁, heq, hframe⟩ := allocDeviceFrame_spec hregion hr hc ht hs h
      (hb t List.mem_cons_self) (by omega)
    -- The next targets are further pages.
    have hb' : ∀ u ∈ targets, t + 4096 ≤ u := by
      intro u hu
      have hu' := haligned u (List.mem_cons_of_mem _ hu)
      have := hlt u hu
      omega
    obtain ⟨frames, s₂, heq', hgrows, hall⟩ := ih hframe.fresh hframe.inStep hb' hinc'
      (fun u hu => haligned u (List.mem_cons_of_mem _ hu))
      (fun u hu => hin u (List.mem_cons_of_mem _ hu))
      (by rw [hframe.watermarks, hframe.available, List.length_drop]; omega)
    refine ⟨slot :: frames, s₂, ?_, hframe.grows.trans hgrows,
      .cons (hgrows slot t hframe.frame) hall⟩
    simp only [allocDeviceFrames, heq, heq', Option.bind_eq_bind, Option.bind_some]

/-- The frame that each call returns is the page it asked for. -/
theorem allocDeviceFrames_backed (info : BootInfo) {s : DeviceFrames} (hs : Boot s)
    {targets : List ℕ} (hinc : targets.Pairwise (· < ·)) (haligned : ∀ t ∈ targets, 4096 ∣ t)
    (hin : ∀ t ∈ targets, ∃ r ∈ info.untypedList, r.Contains t)
    (hslots : slotsFor info s.untypedWatermarks targets ≤ s.alloc.available.length) :
    ∃ frames s', s.allocDeviceFrames info targets = some (frames, s') ∧
      List.Forall₂ (fun slot page => s'.frame slot = some page) frames targets := by
  obtain ⟨frames, s', heq, -, hall⟩ := allocDeviceFrames_spec hs.fresh hs.inStep
    (fun _ _ => Nat.zero_le _) hinc haligned hin hslots
  exact ⟨frames, s', heq, hall⟩

/-- A region with the two PrimeCells and one with the virtio slots, 32 MiB and 16 MiB. -/
def virtBoard : BootInfo where
  untypedList :=
    [⟨0x08000000, 25, by decide, by decide⟩, ⟨0x0a000000, 24, by decide, by decide⟩]
  length_le := by decide

/-- The allocator has 5000 slots. -/
def bootFrames : DeviceFrames := ⟨⟨100, 5100, []⟩, fun _ => 0, fun _ => 0, fun _ => none⟩

theorem boot_bootFrames : Boot bootFrames :=
  ⟨fun _ => rfl, fun _ => rfl, List.nodup_range', fun _ _ => rfl⟩

theorem allocDeviceFrames_virtBoard :
    ∃ frames s', bootFrames.allocDeviceFrames virtBoard deviceTargets = some (frames, s') ∧
      List.Forall₂ (fun slot page => s'.frame slot = some page) frames deviceTargets :=
  allocDeviceFrames_backed virtBoard boot_bootFrames (by decide) (by decide) (by decide) (by
    have hav : bootFrames.alloc.available.length = 5000 := List.length_range'
    rw [hav]
    decide)

end DeviceFrames

end PsychWard.Rootserver
