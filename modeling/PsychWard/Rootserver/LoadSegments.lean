import PsychWard.Common.Memory
import PsychWard.Rootserver.Spawn
import PsychWard.Rootserver.SlotOwners

/-!
# The contents of a new process

The loading loop of `spawn_process` with the bytes it copies. Every page of every segment gets a
frame of its own, cleared and filled from the image. Where two segments meet in a page, the frame of
the later one replaces the other, whose bytes are gone. `loaded_iff` says exactly when the process
finds its image in memory.
-/

namespace PsychWard.Rootserver

/-- A program header with the part of the image it takes. -/
structure Segment extends ProgramHeader where
  offset : ℕ
  filesz : ℕ

/-- A page of a segment as the loop fills it through the temporary window. -/
def Segment.fill (h : Segment) (image : Memory) (page : ℕ) : Memory :=
  let copyStart := if h.vaddr < page then page else h.vaddr
  let copyEnd :=
    if (page + 4096) % 2 ^ 64 < (h.vaddr + h.filesz) % 2 ^ 64 then (page + 4096) % 2 ^ 64
    else (h.vaddr + h.filesz) % 2 ^ 64
  if copyStart < copyEnd then
    Memory.put (fun _ => 0) (copyStart - page)
      (image.bytes (h.offset + (copyStart - h.vaddr)) (copyEnd - copyStart))
  else fun _ => 0

/-- What the loop changes: the allocator, the number of tracked capabilities and the frames of the
new address space by the address of their page. -/
structure Loading where
  alloc : PsychAllocator
  tracked : ℕ
  vspace : ℕ → Option Memory

/-- A page of a segment: `none` where `alloc_and_track_cap` does not return. -/
def loadPage (image : Memory) (h : Segment) (st : Loading) (page : ℕ) : Option Loading :=
  if st.alloc.allocSlot.1 = 0 then none
  else if st.tracked < capTrackerSize then
    some
      { alloc := st.alloc.allocSlot.2
        tracked := st.tracked + 1
        vspace := Function.update st.vspace page (some (h.fill image page)) }
  else none

/-- The loops over the segments and their pages. -/
def loadSegments (image : Memory) (hs : List Segment) (st : Loading) : Option Loading :=
  (hs.filter (·.isLoad)).foldlM (fun st h => h.pages.foldlM (loadPage image h) st) st

/-- The segments have their place in the memory of a process. -/
structure Loadable (hs : List Segment) : Prop where
  window : ∀ h ∈ hs, h.isLoad → 0x400000 ≤ h.vaddr ∧ h.vaddr + h.memsz ≤ 0x800000
  filesz_le : ∀ h ∈ hs, h.isLoad → h.filesz ≤ h.memsz
  disjoint : (hs.filter (·.isLoad)).Pairwise fun h t =>
    ∀ a, h.vaddr ≤ a → a < h.vaddr + h.memsz → t.vaddr ≤ a → ¬ a < t.vaddr + t.memsz

/-- The process finds its image in memory. -/
def Loaded (image : Memory) (hs : List Segment) (vspace : ℕ → Option Memory) : Prop :=
  ∀ h ∈ hs, h.isLoad → ∀ i < h.memsz,
    (vspace ((h.vaddr + i) / 4096 * 4096)).map (fun frame => frame ((h.vaddr + i) % 4096)) =
      some (if i < h.filesz then image (h.offset + i) else 0)

/-- No byte of a segment other than 0 lies in a page that a later segment has too. -/
def Unshadowed (image : Memory) (hs : List Segment) : Prop :=
  ∀ A h B, hs.filter (·.isLoad) = A ++ h :: B → ∀ i < h.filesz, image (h.offset + i) ≠ 0 →
    ∀ t ∈ B, (h.vaddr + i) / 4096 * 4096 ∉ t.pages

/-- The number of frames the loop needs. -/
def pageCount (hs : List Segment) : ℕ :=
  ((hs.filter (·.isLoad)).map fun h => h.pages.length).sum

/-! ## Pages -/

variable {image : Memory} {h t : Segment} {hs : List Segment} {a page : ℕ} {st st' : Loading}

theorem mem_pages (hw : h.vaddr + h.memsz ≤ 0x800000) (h1 : h.vaddr ≤ a)
    (h2 : a < h.vaddr + h.memsz) : a / 4096 * 4096 ∈ h.pages := by
  rw [ProgramHeader.pages, List.mem_map]
  refine ⟨a / 4096 - h.vaddr / 4096, List.mem_range.mpr ?_, ?_⟩
  · omega
  · omega

theorem page_lt (hw : h.vaddr + h.memsz ≤ 0x800000) (hp : page ∈ h.pages) : page < 0x800000 := by
  rw [ProgramHeader.pages, List.mem_map] at hp
  obtain ⟨i, hi, rfl⟩ := hp
  rw [List.mem_range] at hi
  omega

/-- A frame has the bytes of the image at the addresses of the file part, and 0 elsewhere. -/
theorem fill_apply (image : Memory) (hw : h.vaddr + h.filesz ≤ 0x800000) (hp : page < 0x800000)
    (h1 : page ≤ a) (h2 : a < page + 4096) : h.fill image page (a - page) =
      if h.vaddr ≤ a ∧ a < h.vaddr + h.filesz then image (h.offset + (a - h.vaddr)) else 0 := by
  have hmod : (page + 4096) % 2 ^ 64 = page + 4096 := Nat.mod_eq_of_lt (by omega)
  have hmod' : (h.vaddr + h.filesz) % 2 ^ 64 = h.vaddr + h.filesz := Nat.mod_eq_of_lt (by omega)
  rw [Segment.fill]
  simp only [hmod, hmod']
  set copyStart := if h.vaddr < page then page else h.vaddr with hstart
  set copyEnd := if page + 4096 < h.vaddr + h.filesz then page + 4096 else h.vaddr + h.filesz
    with hend
  -- what is copied is where the page and the file part overlap
  have hs : copyStart = max page h.vaddr := by
    rw [hstart]
    split <;> omega
  have he : copyEnd = min (page + 4096) (h.vaddr + h.filesz) := by
    rw [hend]
    split <;> omega
  clear_value copyStart copyEnd
  by_cases hin : h.vaddr ≤ a ∧ a < h.vaddr + h.filesz
  · rw [if_pos (show copyStart < copyEnd by omega), if_pos hin]
    obtain ⟨k, hk⟩ := Nat.exists_eq_add_of_le (show copyStart ≤ a by omega)
    have hk' : k < copyEnd - copyStart := by omega
    rw [show a - page = copyStart - page + k by omega,
      Memory.put_of_mem (by rwa [Memory.length_bytes]), Memory.getD_bytes hk',
      show h.offset + (copyStart - h.vaddr) + k = h.offset + (a - h.vaddr) by omega]
  · rw [if_neg hin]
    split
    · rcases Nat.lt_or_ge a copyStart with hlt | hge
      · exact Memory.put_of_lt (by omega)
      · exact Memory.put_of_ge (by rw [Memory.length_bytes]; omega)
    · rfl

/-! ## The frames that are left -/

/-- The last of the segments with a page. -/
def shownAt : List Segment → ℕ → Option Segment
  | [], _ => none
  | h :: hs, page =>
    match shownAt hs page with
    | some t => some t
    | none => if page ∈ h.pages then some h else none

theorem mem_of_shownAt (hshown : shownAt hs page = some t) : t ∈ hs ∧ page ∈ t.pages := by
  induction hs with
  | nil => cases hshown
  | cons h hs ih =>
    rw [shownAt] at hshown
    split at hshown
    · rename_i u hu
      obtain rfl := Option.some.inj hshown
      exact ⟨List.mem_cons_of_mem _ (ih hu).1, (ih hu).2⟩
    · split at hshown
      · rename_i hp
        obtain rfl := Option.some.inj hshown
        exact ⟨List.mem_cons_self, hp⟩
      · cases hshown

theorem shownAt_eq_none : shownAt hs page = none ↔ ∀ t ∈ hs, page ∉ t.pages := by
  induction hs with
  | nil => simp [shownAt]
  | cons h hs ih =>
    rw [shownAt, List.forall_mem_cons, ← ih]
    rcases shownAt hs page with _ | t
    · simp
    · simp

/-- A page of a segment shows that segment or a later one. -/
theorem shownAt_of_mem {A B : List Segment} (hp : page ∈ h.pages) :
    (shownAt (A ++ h :: B) page = some h ∧ ∀ t ∈ B, page ∉ t.pages) ∨
      ∃ t ∈ B, shownAt (A ++ h :: B) page = some t := by
  induction A with
  | nil =>
    rw [List.nil_append, shownAt]
    rcases hB : shownAt B page with _ | t
    · exact .inl ⟨if_pos hp, shownAt_eq_none.mp hB⟩
    · exact .inr ⟨t, (mem_of_shownAt hB).1, rfl⟩
  | cons u A ih =>
    rw [List.cons_append, shownAt]
    rcases ih with ⟨heq, hno⟩ | ⟨t, ht, heq⟩
    · exact .inl ⟨by rw [heq], hno⟩
    · exact .inr ⟨t, ht, by rw [heq]⟩

/-! ## Running the loop -/

namespace Loading

/-- The allocator hands out no slot 0. -/
structure Sound (st : Loading) : Prop where
  pool : 0 ∉ st.alloc.freeSlots
  current : 0 < st.alloc.currentSlot

/-- The number of frames that can still be allocated and tracked. -/
def room (st : Loading) : ℕ :=
  min (st.alloc.freeSlots.length + (st.alloc.maxSlot - st.alloc.currentSlot))
    (capTrackerSize - st.tracked)

theorem loadPage_of_room (image : Memory) (h : Segment) (page : ℕ) (hs : st.Sound)
    (h0 : 0 < st.room) :
    ∃ st', loadPage image h st page = some st' ∧ st'.Sound ∧ st'.room = st.room - 1 ∧
      st'.vspace = Function.update st.vspace page (some (h.fill image page)) := by
  have htracked : st.tracked < capTrackerSize := by
    rw [room] at h0
    omega
  rcases hf : st.alloc.freeSlots with _ | ⟨slot, rest⟩
  · have hlt : st.alloc.currentSlot < st.alloc.maxSlot := by
      rw [room, hf, List.length_nil] at h0
      omega
    have halloc := PsychAllocator.allocSlot_bump hf hlt
    refine ⟨_, by rw [loadPage, halloc, if_neg hs.current.ne', if_pos htracked], ⟨?_, ?_⟩, ?_, rfl⟩
    · exact hs.pool
    · exact Nat.succ_pos _
    · simp only [room, hf, List.length_nil]
      omega
  · have halloc := PsychAllocator.allocSlot_pool hf
    have hpool := hs.pool
    rw [hf, List.mem_cons, not_or] at hpool
    refine ⟨_, by rw [loadPage, halloc, if_neg (Ne.symm hpool.1), if_pos htracked], ⟨?_, ?_⟩, ?_,
      rfl⟩
    · exact hpool.2
    · exact hs.current
    · simp only [room, hf, List.length_cons]
      omega

theorem loadPage_of_full (h0 : st.room = 0) : loadPage image h st page = none := by
  rw [loadPage]
  split
  · rfl
  · rename_i hne
    refine if_neg fun htracked => hne ?_
    rw [room] at h0
    have hempty : st.alloc.freeSlots.length = 0 ∧ st.alloc.maxSlot ≤ st.alloc.currentSlot := by
      omega
    rw [PsychAllocator.allocSlot_empty (List.length_eq_zero_iff.mp hempty.1) hempty.2]

/-- The pages of one segment. -/
theorem loadPages (image : Memory) (h : Segment) (hs : st.Sound) (ps : List ℕ) :
    (∃ st', ps.foldlM (loadPage image h) st = some st' ∧
      ps.length ≤ st.room ∧ st'.Sound ∧ st'.room = st.room - ps.length ∧ ∀ page,
        st'.vspace page = if page ∈ ps then some (h.fill image page) else st.vspace page) ∨
    (ps.foldlM (loadPage image h) st = none ∧ st.room < ps.length) := by
  induction ps generalizing st with
  | nil => exact .inl ⟨st, rfl, Nat.zero_le _, hs, by simp, by simp⟩
  | cons p ps ih =>
    rw [List.foldlM_cons, List.length_cons]
    rcases Nat.eq_zero_or_pos st.room with h0 | h0
    · exact .inr ⟨by rw [loadPage_of_full h0]; rfl, by omega⟩
    · obtain ⟨st₁, hload, hs₁, hroom₁, hv₁⟩ := loadPage_of_room image h p hs h0
      rw [hload]
      rcases ih hs₁ with ⟨st', hrun, hle, hs', hroom, hv⟩ | ⟨hrun, hlt⟩
      · refine .inl ⟨st', hrun, by omega, hs', by omega, fun page => ?_⟩
        rw [hv, hv₁]
        by_cases hmem : page ∈ ps
        · rw [if_pos hmem, if_pos (List.mem_cons_of_mem _ hmem)]
        · rw [if_neg hmem]
          by_cases heq : page = p
          · subst heq
            rw [Function.update_self, if_pos List.mem_cons_self]
          · rw [Function.update_of_ne heq, if_neg (by simp [heq, hmem])]
      · exact .inr ⟨hrun, by omega⟩

/-- The loop ends if there is room for all frames; each page then has the frame of the last segment
it belongs to. -/
theorem loadAll (image : Memory) (hs : st.Sound) (segs : List Segment) :
    (∃ st', segs.foldlM (fun st h => h.pages.foldlM (loadPage image h) st) st = some st' ∧
      (segs.map fun h => h.pages.length).sum ≤ st.room ∧ ∀ page, st'.vspace page =
        match shownAt segs page with
        | some t => some (t.fill image page)
        | none => st.vspace page) ∨
    (segs.foldlM (fun st h => h.pages.foldlM (loadPage image h) st) st = none ∧
      st.room < (segs.map fun h => h.pages.length).sum) := by
  induction segs generalizing st with
  | nil => exact .inl ⟨st, rfl, by simp, fun page => rfl⟩
  | cons h segs ih =>
    rw [List.foldlM_cons, List.map_cons, List.sum_cons]
    rcases loadPages image h hs h.pages with
      ⟨st₁, hload, hle₁, hs₁, hroom₁, hv₁⟩ | ⟨hload, hlt⟩
    · rw [hload]
      rcases ih hs₁ with ⟨st', hrun, hle, hv⟩ | ⟨hrun, hlt⟩
      · refine .inl ⟨st', hrun, by omega, fun page => ?_⟩
        rw [hv, hv₁, shownAt]
        rcases shownAt segs page with _ | t
        · by_cases hp : page ∈ h.pages
          · simp only [if_pos hp]
          · simp only [if_neg hp]
        · rfl
      · exact .inr ⟨hrun, by omega⟩
    · exact .inr ⟨by rw [hload]; rfl, by omega⟩

end Loading

/-- A byte of the frame that a page of a segment ends up with. -/
theorem fill_shown (hl : Loadable hs) (ht : t ∈ hs) (hload : t.isLoad)
    (ha : a / 4096 * 4096 ∈ t.pages) : t.fill image (a / 4096 * 4096) (a % 4096) =
      if t.vaddr ≤ a ∧ a < t.vaddr + t.filesz then image (t.offset + (a - t.vaddr)) else 0 := by
  have hw := (hl.window t ht hload).2
  have hf := hl.filesz_le t ht hload
  have hfill := fill_apply image (show t.vaddr + t.filesz ≤ 0x800000 by omega) (page_lt hw ha)
    (Nat.div_mul_le_self a 4096) (by omega)
  rwa [show a - a / 4096 * 4096 = a % 4096 by omega] at hfill

/-- The segments are all in memory exactly if there is room for their frames and no byte other than 0
lies in a page of a later segment. -/
theorem loaded_iff (hl : Loadable hs) (hst : st.Sound) :
    (∃ st', loadSegments image hs st = some st' ∧ Loaded image hs st'.vspace) ↔
      pageCount hs ≤ st.room ∧ Unshadowed image hs := by
  rcases Loading.loadAll image hst (hs.filter (·.isLoad)) with
    ⟨st', hrun, hle, hv⟩ | ⟨hrun, hlt⟩
  · have hmem : ∀ {t}, t ∈ hs.filter (·.isLoad) → t ∈ hs ∧ t.isLoad := fun ht => by
      simpa using List.mem_filter.mp ht
    -- what a byte of a segment is, by the segment that shows in its page
    have hbyte : ∀ A h B, hs.filter (·.isLoad) = A ++ h :: B → ∀ i < h.memsz,
        ((st'.vspace ((h.vaddr + i) / 4096 * 4096)).map (fun frame => frame ((h.vaddr + i) % 4096)) =
          some (if i < h.filesz then image (h.offset + i) else 0) ∧
          ∀ t ∈ B, (h.vaddr + i) / 4096 * 4096 ∉ t.pages) ∨
        ((st'.vspace ((h.vaddr + i) / 4096 * 4096)).map (fun frame => frame ((h.vaddr + i) % 4096)) =
          some 0 ∧ ∃ t ∈ B, (h.vaddr + i) / 4096 * 4096 ∈ t.pages) := by
      intro A h B hsplit i hi
      have hh : h ∈ hs.filter (·.isLoad) := by
        rw [hsplit]
        simp
      have hp := mem_pages (h := h) (a := h.vaddr + i) (hl.window h (hmem hh).1 (hmem hh).2).2
        (Nat.le_add_right _ _) (by omega)
      rw [hv, hsplit]
      rcases shownAt_of_mem (A := A) (B := B) hp with ⟨heq, hno⟩ | ⟨t, ht, heq⟩
      · refine .inl ⟨?_, hno⟩
        rw [heq, Option.map_some, fill_shown hl (hmem hh).1 (hmem hh).2 hp]
        congr 1
        by_cases hf : i < h.filesz
        · rw [if_pos hf, if_pos (by omega), Nat.add_sub_cancel_left]
        · rw [if_neg hf, if_neg (by omega)]
      · have ht' : t ∈ hs.filter (·.isLoad) := by
          rw [hsplit]
          simp [ht]
        have hpt := (mem_of_shownAt heq).2
        refine .inr ⟨?_, t, ht, hpt⟩
        -- the later segment has no file byte there
        have hdis := hl.disjoint
        rw [hsplit, List.pairwise_append] at hdis
        have hno := (List.pairwise_cons.mp hdis.2.1).1 t ht (h.vaddr + i) (by omega) (by omega)
        have hf := hl.filesz_le t (hmem ht').1 (hmem ht').2
        rw [heq, Option.map_some, fill_shown hl (hmem ht').1 (hmem ht').2 hpt,
          if_neg fun hin => hno hin.1 (by omega)]
    constructor
    · rintro ⟨st'', hrun', hloaded⟩
      obtain rfl := Option.some.inj (hrun.symm.trans hrun')
      refine ⟨hle, fun A h B hsplit i hi hne t ht hpt => ?_⟩
      have hh : h ∈ hs.filter (·.isLoad) := by
        rw [hsplit]
        simp
      have hmemsz := hl.filesz_le h (hmem hh).1 (hmem hh).2
      rcases hbyte A h B hsplit i (by omega) with ⟨-, hno⟩ | ⟨hzero, -⟩
      · exact hno t ht hpt
      · rw [hloaded h (hmem hh).1 (hmem hh).2 i (by omega), if_pos hi] at hzero
        exact hne (Option.some.inj hzero)
    · rintro ⟨-, hun⟩
      refine ⟨st', hrun, fun h hh hload i hi => ?_⟩
      obtain ⟨A, B, hsplit⟩ := List.append_of_mem
        (List.mem_filter.mpr ⟨hh, hload⟩ : h ∈ hs.filter (·.isLoad))
      rcases hbyte A h B hsplit i hi with ⟨hright, -⟩ | ⟨hzero, t, ht, hpt⟩
      · exact hright
      · rw [hzero]
        split
        · rename_i hf
          by_contra hne
          exact hun A h B hsplit i hf (fun h0 => hne (by rw [h0])) t ht hpt
        · rfl
  · refine iff_of_false ?_ fun h => absurd h.1 (Nat.not_le.mpr hlt)
    rintro ⟨st', hrun', -⟩
    cases hrun.symm.trans hrun'

/-! ## Two small images -/

/-- The loop in `spawn_process` starts with seven tracked capabilities. -/
def spawned : Loading := ⟨⟨1000, 4000, []⟩, 7, fun _ => none⟩

/-- A segment that is loaded to `vaddr` as it is in the image. -/
def plainSegment (vaddr offset size : ℕ) : Segment := ⟨⟨true, vaddr, size⟩, offset, size⟩

/-- An image all of whose bytes are 7. -/
def sevens : Memory := fun _ => 7

/-- Two segments in two pages are loaded. -/
theorem loaded_twoPages : ∃ st', loadSegments sevens
    [plainSegment 0x400000 0 1, plainSegment 0x401000 1 1] spawned = some st' ∧
      Loaded sevens [plainSegment 0x400000 0 1, plainSegment 0x401000 1 1] st'.vspace := by
  have hl : Loadable [plainSegment 0x400000 0 1, plainSegment 0x401000 1 1] := by
    refine ⟨by decide, by decide, List.pairwise_pair.mpr fun a h1 h2 h3 h4 => ?_⟩
    simp only [plainSegment] at h1 h2 h3 h4
    omega
  refine Iff.mpr (loaded_iff hl ⟨by decide, by decide⟩)
    ⟨by decide, fun A h B hsplit i hi hne t ht => ?_⟩
  have hfilter : [plainSegment 0x400000 0 1, plainSegment 0x401000 1 1].filter (·.isLoad) =
    [plainSegment 0x400000 0 1, plainSegment 0x401000 1 1] := rfl
  rw [hfilter] at hsplit
  rcases A with _ | ⟨u, _ | ⟨u', A⟩⟩
  · obtain ⟨rfl, rfl⟩ := List.cons.inj hsplit
    obtain rfl := List.mem_singleton.mp ht
    obtain rfl : i = 0 := by
      simp only [plainSegment] at hi
      omega
    decide
  · obtain ⟨-, hrest⟩ := List.cons.inj hsplit
    obtain ⟨-, rfl⟩ := List.cons.inj hrest
    cases ht
  · have hlen := congrArg List.length hsplit
    simp at hlen

/-- Two segments in one page: the byte of the first is gone. -/
theorem not_loaded_onePage :
    Loadable [plainSegment 0x400000 0 1, plainSegment 0x400800 1 1] ∧ spawned.Sound ∧
    ∃ st', loadSegments sevens [plainSegment 0x400000 0 1, plainSegment 0x400800 1 1] spawned =
        some st' ∧
      ¬ Loaded sevens [plainSegment 0x400000 0 1, plainSegment 0x400800 1 1] st'.vspace := by
  refine ⟨⟨by decide, by decide, List.pairwise_pair.mpr fun a h1 h2 h3 h4 => ?_⟩,
    ⟨by decide, by decide⟩, ?_⟩
  · simp only [plainSegment] at h1 h2 h3 h4
    omega
  · have hrun : (loadSegments sevens [plainSegment 0x400000 0 1, plainSegment 0x400800 1 1]
        spawned).map (fun st' => (st'.vspace 0x400000).map fun frame => frame 0) =
          some (some 0) := by decide +kernel
    obtain ⟨st', hst', hbyte⟩ := Option.map_eq_some_iff.mp hrun
    refine ⟨st', hst', fun hloaded => ?_⟩
    have hright := hloaded _ List.mem_cons_self rfl 0 Nat.zero_lt_one
    exact absurd (hbyte.symm.trans hright) (by decide)

end PsychWard.Rootserver
