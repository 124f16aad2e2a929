import PsychWard.Common.Run
import PsychWard.Rootserver.Blind
import PsychWard.Rootserver.Slots

/-!
# The frames behind the pages

A page of the demand-paged range gets its frame when a process or one of its threads first touches
it. The threads of a process share its address space, but the slot of the frame is recorded in the
block of whoever has faulted, and `SYS_THREAD_EXIT` deletes every capability recorded there: the
page is lost for the threads that go on. A second fault on a page, of a thread that touched it
before the first was handled, puts a new frame in the place of the old one. `Drops` is the message
that does the one or the other, and `backed_of_run` says that between page faults, `SYS_CLONE` and
`SYS_THREAD_EXIT` nothing else takes a page its frame.

The frames, the mappings and the address spaces are a ghost part of the kernel's state. A frame has
a number of its own and is cleared only when it is made, so that a page with the same frame has the
contents last written.
-/

namespace PsychWard.Rootserver

open Program

variable {K : Type}

/-! ## Mappings -/

/-- The number of frames made so far, the frame in each slot of the root CNode, which of these slots
hold an address space, and the frame behind each page of an address space. -/
structure Mappings where
  count : ℕ
  frame : ℕ → Option ℕ
  space : ℕ → Bool
  page : ℕ → ℕ → Option ℕ

namespace Mappings

/-- No frames, spaces or pages. -/
def empty : Mappings := ⟨0, fun _ => none, fun _ => false, fun _ _ => none⟩

/-- The frame in the slot loses its pages. -/
def unmap (c : Mappings) (slot : ℕ) : Mappings :=
  { c with page := fun v a => if c.page v a = c.frame slot then none else c.page v a }

/-- The frame in a slot becomes the page at an address. -/
def map (c : Mappings) (slot vspace vaddr : ℕ) : Mappings :=
  { c with page := fun v a => if v = vspace ∧ a = vaddr then c.frame slot else c.page v a }

/-- A new frame in the slot. What was there before is gone. -/
def addFrame (c : Mappings) (slot : ℕ) : Mappings :=
  { c.unmap slot with
    count := c.count + 1
    frame := fun s => if s = slot then some c.count else c.frame s }

/-- A new address space in the slot. -/
def addSpace (c : Mappings) (slot : ℕ) : Mappings :=
  { c with
    space := fun s => if s = slot then true else c.space s
    page := fun v a => if v = slot then none else c.page v a }

/-- The capability in the slot is deleted, and with it the frame or the address space. -/
def delete (c : Mappings) (slot : ℕ) : Mappings :=
  { c.unmap slot with
    frame := fun s => if s = slot then none else c.frame s
    space := fun s => if s = slot then false else c.space s }

/-- The mappings after an invocation and the kernel's answer to it. -/
def after (c : Mappings) : Invocation → SeL4Error → Mappings
  | .untypedRetype .smallPage _ dest, .noError => c.addFrame dest
  | .untypedRetype .pageGlobalDirectory _ dest, .noError => c.addSpace dest
  | .pageMap frame vspace vaddr, .noError => c.map frame vspace vaddr
  | .pageUnmap frame, _ => c.unmap frame
  | .cnodeDelete s, _ => if s.depth = 64 then c.delete s.index else c
  | _, _ => c

variable {c : Mappings} {slot v a n : ℕ}

/-- Taking a frame out of its pages leaves those of other frames. -/
theorem page_unmap : (c.unmap slot).page v a = some n ↔
    c.page v a = some n ∧ c.frame slot ≠ some n := by
  unfold unmap
  dsimp only
  by_cases heq : c.page v a = c.frame slot
  · rw [if_pos heq, heq]
    exact ⟨fun h => (by cases h), fun h => absurd h.1 h.2⟩
  · rw [if_neg heq]
    exact ⟨fun h => ⟨h, fun hframe => heq (h.trans hframe.symm)⟩, fun h => h.1⟩

/-- The page that was mapped is backed by the frame of the slot. -/
theorem page_map_self (c : Mappings) (slot v a : ℕ) : (c.map slot v a).page v a = c.frame slot :=
  if_pos ⟨rfl, rfl⟩

/-- No other page changes. -/
theorem page_map_of_ne {vspace vaddr : ℕ} (h : ¬ (v = vspace ∧ a = vaddr)) :
    (c.map slot vspace vaddr).page v a = c.page v a := if_neg h

/-- The frames in slots and behind pages have been made. -/
structure Made (c : Mappings) : Prop where
  frame : ∀ slot n, c.frame slot = some n → n < c.count
  page : ∀ v a n, c.page v a = some n → n < c.count

/-- Nothing has been made yet. -/
theorem made_empty : empty.Made := ⟨fun _ _ h => (by cases h), fun _ _ _ h => (by cases h)⟩

theorem Made.unmap (h : c.Made) (slot : ℕ) : (c.unmap slot).Made :=
  ⟨h.frame, fun v a n hpage => h.page v a n (page_unmap.mp hpage).1⟩

/-- A frame that is mapped was made before. -/
theorem Made.map (h : c.Made) (slot vspace vaddr : ℕ) : (c.map slot vspace vaddr).Made := by
  refine ⟨h.frame, fun v a n hpage => ?_⟩
  by_cases hva : v = vspace ∧ a = vaddr
  · obtain ⟨rfl, rfl⟩ := hva
    rw [page_map_self] at hpage
    exact h.frame slot n hpage
  · rw [page_map_of_ne hva] at hpage
    exact h.page v a n hpage

theorem Made.addFrame (h : c.Made) (slot : ℕ) : (c.addFrame slot).Made := by
  refine ⟨fun s n hs => ?_, fun v a n hpage => ?_⟩
  · change (if s = slot then some c.count else c.frame s) = some n at hs
    split at hs
    · obtain rfl := Option.some.inj hs
      exact Nat.lt_succ_self _
    · exact (h.frame s n hs).trans (Nat.lt_succ_self _)
  · exact ((h.unmap slot).page v a n hpage).trans (Nat.lt_succ_self _)

theorem Made.addSpace (h : c.Made) (slot : ℕ) : (c.addSpace slot).Made := by
  refine ⟨h.frame, fun v a n hpage => ?_⟩
  change (if v = slot then none else c.page v a) = some n at hpage
  split at hpage
  · cases hpage
  · exact h.page v a n hpage

theorem Made.delete (h : c.Made) (slot : ℕ) : (c.delete slot).Made := by
  refine ⟨fun s n hs => ?_, (h.unmap slot).page⟩
  change (if s = slot then none else c.frame s) = some n at hs
  split at hs
  · cases hs
  · exact h.frame s n hs

/-- No kernel call makes up a frame. -/
theorem Made.after (h : c.Made) (i : Invocation) (e : SeL4Error) : (c.after i e).Made := by
  unfold Mappings.after
  split
  · exact h.addFrame _
  · exact h.addSpace _
  · exact h.map _ _ _
  · exact h.unmap _
  · split
    · exact h.delete _
    · exact h
  · exact h

/-! ### Removals -/

/-- What ends a mapping: a frame is unmapped, or a capability is deleted. -/
inductive Removal
  | unmap (slot : ℕ)
  | delete (slot : ℕ)
  deriving DecidableEq

def Removal.target : Removal → ℕ
  | .unmap slot => slot
  | .delete slot => slot

def remove (c : Mappings) : Removal → Mappings
  | .unmap slot => c.unmap slot
  | .delete slot => c.delete slot

/-- Some removals, one after the other. -/
def removeAll (l : List Removal) (c : Mappings) : Mappings := l.foldl remove c

theorem removeAll_append (l l' : List Removal) (c : Mappings) :
    removeAll (l ++ l') c = removeAll l' (removeAll l c) := List.foldl_append

/-- A removal takes away the pages of the frame in its slot. -/
theorem page_remove {o : Removal} : (c.remove o).page v a = some n ↔
    c.page v a = some n ∧ c.frame o.target ≠ some n := by
  cases o with
  | unmap slot => exact page_unmap
  | delete slot => exact page_unmap

/-- A removal only forgets the frame of its own slot. -/
theorem frame_remove (o : Removal) (slot : ℕ) : (c.remove o).frame slot = c.frame slot ∨
    slot = o.target ∧ (c.remove o).frame slot = none := by
  cases o with
  | unmap => exact .inl rfl
  | delete s =>
    by_cases hslot : slot = s
    · exact .inr ⟨hslot, if_pos hslot⟩
    · exact .inl (if_neg hslot)

/-- The pages that are left have none of the frames that are removed. -/
theorem page_removeAll (l : List Removal) : (removeAll l c).page v a = some n ↔
    c.page v a = some n ∧ ∀ o ∈ l, c.frame o.target ≠ some n := by
  induction l generalizing c with
  | nil => exact ⟨fun h => ⟨h, by simp⟩, fun h => h.1⟩
  | cons o l ih =>
    rw [removeAll, List.foldl_cons, ← removeAll, ih, page_remove, List.forall_mem_cons, and_assoc]
    refine and_congr_right fun _ => and_congr_right fun hfirst => ?_
    refine forall_congr' fun p => forall_congr' fun _ => ?_
    rcases frame_remove (c := c) o p.target with heq | ⟨hslot, hnone⟩
    · rw [heq]
    · rw [hnone, hslot]
      exact ⟨fun _ => hfirst, fun _ h => by cases h⟩

/-- The address spaces that are left are those that are not deleted. -/
theorem space_removeAll (l : List Removal) : (removeAll l c).space v = true ↔
    c.space v = true ∧ .delete v ∉ l := by
  induction l generalizing c with
  | nil => exact ⟨fun h => ⟨h, by simp⟩, fun h => h.1⟩
  | cons o l ih =>
    rw [removeAll, List.foldl_cons, ← removeAll, ih, List.mem_cons, not_or, ← and_assoc]
    refine and_congr_left fun _ => ?_
    cases o with
    | unmap s => exact ⟨fun h => ⟨h, by simp⟩, fun h => h.1⟩
    | delete s =>
      change (if v = s then false else c.space v) = true ↔
        c.space v = true ∧ ¬ Removal.delete v = Removal.delete s
      rw [Removal.delete.injEq]
      by_cases hv : v = s
      · rw [if_pos hv]
        exact ⟨fun h => (by cases h), fun h => absurd hv h.2⟩
      · rw [if_neg hv]
        exact ⟨fun h => ⟨h, hv⟩, fun h => h.1⟩

end Mappings

open Mappings

/-- The system with the mappings beside its own state. -/
def paged (sel4 : SeL4 K) : SeL4 (K × Mappings) := sel4.ghosted Mappings.after

/-- The mappings that the kernel keeps. -/
def Root.maps (r : Root (K × Mappings)) : Mappings := r.kernel.2

/-! ## Pages on demand -/

/-- The page lies in the demand-paged range of an address space other than the rootserver's. -/
def Demand (boot : Boot) (v a : ℕ) : Prop := v ≠ boot.rootVspace ∧ 0x510000 ≤ a ∧ a < 0x600000

/-- The page lies in the demand-paged range and is backed by the frame `n`. -/
def Root.Backed (boot : Boot) (r : Root (K × Mappings)) (v a n : ℕ) : Prop :=
  Demand boot v a ∧ r.maps.space v = true ∧ r.maps.page v a = some n

/-- For as long as the address space lasts, its pages keep their frames. -/
def StayBacked (boot : Boot) (r t : Root (K × Mappings)) : Prop :=
  ∀ v a n, r.Backed boot v a n → t.maps.space v = true → t.maps.page v a = some n

/-- What the end of a process that writes into a pipe deletes: the reply capability of a reader. -/
def Pipe.removals (pid : ℕ) (x : Pipe) : List Removal :=
  if (x.active = true ∧ x.writerPid = pid) ∧ x.readerReplyCap ≠ 0 then [.delete x.readerReplyCap]
  else []

/-- What its end deletes of its parent: the reply capability of the wait for it. -/
def Pcb.wakeRemovals (pid : ℕ) (x : Pcb) : List Removal :=
  if x.active = true ∧ x.waitingFor = pid then [.delete x.replyCap] else []

/-- What is deleted and unmapped of a thread: all that is recorded in its block. -/
def Pcb.threadRemovals (x : Pcb) : List Removal :=
  if x.IsThread then
    (if x.threadIpcFrame ≠ 0 then [.unmap x.threadIpcFrame] else []) ++ x.capTracker.map .delete
  else []

/-- What `SYS_THREAD_EXIT` deletes and unmaps. -/
def Root.exitRemovals (r : Root K) (thread parent : ℕ) : List Removal :=
  (List.range maxPipes).flatMap (fun i => (r.pipes i).removals thread) ++
    (if 0 < parent ∧ parent < 256 then (r.pcbs parent).wakeRemovals thread else []) ++
    (r.pcbs thread).threadRemovals

/-- The message is a page fault in the demand-paged range, a `SYS_CLONE` or a `SYS_THREAD_EXIT`. -/
def Message.Paging (m : Message) : Prop :=
  m.label = .vmFault ∧ 0x510000 ≤ m.mr 1 ∧ m.mr 1 < 0x600000 ∨
    m.label = .other ∧ (m.mr 0 = 101 ∨ m.mr 0 = 105)

/-- The message takes a page the frame behind it. -/
inductive Drops (boot : Boot) (r : Root (K × Mappings)) (m : Message) : Prop
  /-- A page fault on a page that has been backed since the access. -/
  | refault (sender n : ℕ) (hm : m.label = .vmFault)
      (hsender : r.table.senderPid m.badge = some sender) (hpos : sender ≠ 0)
      (hpage : r.Backed boot (r.pcbs sender).vspace (m.mr 1 / 4096 * 4096) n)
  /-- `SYS_THREAD_EXIT` releases the frame, while the address space lasts. -/
  | exit (o : Removal) (v a n : ℕ) (hm : m.label = .other ∧ m.mr 0 = 105)
      (halive : r.table.Alive (m.badge % 2 ^ 16)) (hpage : r.Backed boot v a n)
      (ho : o ∈ r.exitRemovals (m.badge % 2 ^ 16) (m.badge / 2 ^ 16 % 2 ^ 16))
      (hframe : r.maps.frame o.target = some n)
      (hspace : .delete v ∉ r.exitRemovals (m.badge % 2 ^ 16) (m.badge / 2 ^ 16 % 2 ^ 16))
  /-- The slot that is handed out for the frame of a page fault still holds one. -/
  | faultSlot (sender v a n : ℕ) (hm : m.label = .vmFault)
      (hsender : r.table.senderPid m.badge = some sender) (hpos : sender ≠ 0)
      (hpage : r.Backed boot v a n) (hframe : r.maps.frame r.alloc.allocSlot.1 = some n)
  /-- The slot that is handed out for the IPC buffer of a thread still holds one. -/
  | cloneSlot (v a n : ℕ) (hm : m.label = .other ∧ m.mr 0 = 101)
      (hsender : r.table.senderPid m.badge ≠ none) (hfree : r.freePid ≠ none)
      (hpage : r.Backed boot v a n)
      (hframe : r.maps.frame r.alloc.allocSlot.2.allocSlot.2.allocSlot.1 = some n)

/-! ## The programs -/

section
variable {sel4 : SeL4 K} {boot : Boot}

/-- A kernel call changes the mappings and no data of the rootserver. -/
theorem maps_sys (i : Invocation) (r : Root (K × Mappings)) :
    Ends (sys (paged sel4) i) r fun e t => t.maps = r.maps.after i e ∧ t.pcbs = r.pcbs ∧
      t.pipes = r.pipes ∧ t.alloc = r.alloc := by
  intro e t hrun
  cases hrun
  exact ⟨rfl, rfl, rfl, rfl⟩

/-- Taking a slot touches no page. -/
theorem maps_allocAndTrackCap (p : ℕ) (r : Root (K × Mappings)) :
    Ends (allocAndTrackCap p) r fun cap t => cap = r.alloc.allocSlot.1 ∧ t.maps = r.maps ∧
      t.alloc = r.alloc.allocSlot.2 ∧ ∀ q, (t.pcbs q).vspace = (r.pcbs q).vspace := by
  refine .bind fun cap t ht => ?_
  cases ht
  refine .bind (.get (.ite (fun _ => .throw) fun _ => ?_))
  refine .seq (ends_setPcb p _ _) fun _ t ht => .pure ?_
  subst ht
  refine ⟨rfl, rfl, rfl, fun q => ?_⟩
  by_cases hq : q = p
  · subst hq
    rw [Root.setPcb_self]
  · rw [Root.setPcb_of_ne _ _ hq]

/-- `check_err` comes back only where there was no error. -/
theorem ends_checkErr (err : SeL4Error) (r : Root K) :
    Ends (checkErr err) r fun _ t => err = .noError ∧ t = r :=
  .ite (fun h => .pure ⟨h, rfl⟩) fun _ => .throw

/-- The demand pager puts a new frame behind the page. -/
theorem maps_pageFault (sender addr : ℕ) (r : Root (K × Mappings)) :
    Ends (pageFault (paged sel4) sender addr) r fun _ t =>
      t.maps = (r.maps.addFrame r.alloc.allocSlot.1).map r.alloc.allocSlot.1
        (r.pcbs sender).vspace (addr / 4096 * 4096) := by
  refine .seq (maps_allocAndTrackCap sender r) fun frame t ⟨hframe, hmaps, _, hvspace⟩ => ?_
  refine .seq (maps_sys _ t) fun err u hu => .seq (ends_checkErr err u) fun _ v hv => ?_
  obtain ⟨rfl, rfl⟩ := hv
  refine .bind (.get (.seq (maps_sys _ v) fun err w hw => ?_))
  refine .seq (ends_checkErr err w) fun _ x hx => ?_
  obtain ⟨rfl, rfl⟩ := hx
  refine .seq (maps_sys _ x) fun _ y hy => .pure ?_
  have hadd : v.maps = t.maps.addFrame frame := hu.1
  have hmap : x.maps = v.maps.map frame (v.pcbs sender).vspace (addr / 4096 * 4096) := hw.1
  have hreply : y.maps = x.maps := hy.1
  rw [hreply, hmap, hadd, hu.2.1, hvspace, hmaps, hframe]

/-- The invocation leaves the mappings as they are. -/
def Invocation.Idle (i : Invocation) : Prop := ∀ c e, Mappings.after c i e = c

/-- Most kernel calls map nothing. -/
theorem maps_idle {i : Invocation} (hi : i.Idle) (r : Root (K × Mappings)) :
    Ends (sys (paged sel4) i) r fun _ t => t.maps = r.maps ∧ t.pcbs = r.pcbs ∧
      t.pipes = r.pipes ∧ t.alloc = r.alloc :=
  (maps_sys i r).mono fun e _ ht => ⟨ht.1.trans (hi _ e), ht.2⟩

/-- Mapping the frame of a slot elsewhere and unmapping it again takes it from the pages that had it
before, whether or not the kernel has put a new frame into the slot. -/
theorem page_ipcBuffer {c : Mappings} (hmade : c.Made) (slot vspace vaddr : ℕ) (e e' : SeL4Error)
    {v a : ℕ} (hv : v ≠ vspace) :
    (((c.after (.untypedRetype .smallPage 0 slot) e).after (.pageMap slot vspace vaddr) e').unmap
      slot).page v a = (c.unmap slot).page v a := by
  have hmap (d : Mappings) : (d.after (.pageMap slot vspace vaddr) e').page v a = d.page v a ∧
      (d.after (.pageMap slot vspace vaddr) e').frame = d.frame := by
    cases e' with
    | noError => exact ⟨page_map_of_ne fun h => hv h.1, rfl⟩
    | _ => exact ⟨rfl, rfl⟩
  refine Option.ext fun n => ?_
  rw [page_unmap, (hmap _).1, (hmap _).2]
  cases e with
  | noError =>
    refine ⟨fun h => h.1, fun h => ⟨h, fun heq => ?_⟩⟩
    have hcount : c.count = n := Option.some.inj ((if_pos rfl).symm.trans heq)
    exact absurd (((hmade.unmap slot).page v a n h).trans_eq hcount) (lt_irrefl n)
  | _ => exact page_unmap.symm

/-- The IPC page of a thread makes no address space. -/
theorem space_ipcBuffer (c : Mappings) (slot vspace vaddr : ℕ) (e e' : SeL4Error) :
    (((c.after (.untypedRetype .smallPage 0 slot) e).after (.pageMap slot vspace vaddr) e').unmap
      slot).space = c.space := by
  have hmap (d : Mappings) : (d.after (.pageMap slot vspace vaddr) e').space = d.space := by
    cases e' <;> rfl
  refine (hmap _).trans ?_
  cases e <;> rfl

/-- The mappings are part of the kernel. -/
theorem maps_of_kernel {t u : Root (K × Mappings)} (h : u.kernel = t.kernel) : u.maps = t.maps :=
  congrArg Prod.snd h

/-- The address spaces and the pages of the demand-paged range are those of `c`. -/
structure Settled (boot : Boot) (c : Mappings) (t : Root (K × Mappings)) : Prop where
  space : t.maps.space = c.space
  page : ∀ v a, Demand boot v a → t.maps.page v a = c.page v a

namespace Settled

variable {c : Mappings} {t u : Root (K × Mappings)} (h : Settled boot c t)

include h

theorem congr (hmaps : u.maps = t.maps) : Settled boot c u :=
  ⟨by rw [hmaps]; exact h.space, by rw [hmaps]; exact h.page⟩

theorem idle {i : Invocation} (hi : i.Idle) :
    Ends (sys (paged sel4) i) t fun _ u => Settled boot c u :=
  (maps_idle hi t).mono fun _ _ hu => h.congr hu.1

/-- A page outside of the range is mapped. -/
theorem pageMap (slot vspace : ℕ) {vaddr : ℕ} (hvaddr : 0x600000 ≤ vaddr) :
    Ends (sys (paged sel4) (.pageMap slot vspace vaddr)) t fun _ u => Settled boot c u := by
  refine (maps_sys _ t).mono fun e u hu => ?_
  cases e with
  | noError =>
    refine ⟨(congrArg Mappings.space hu.1).trans h.space, fun v a hdemand => ?_⟩
    rw [hu.1, ← h.page v a hdemand]
    exact page_map_of_ne fun heq => absurd (heq.2 ▸ hdemand.2.2) hvaddr.not_gt
  | _ => exact h.congr hu.1

end Settled

/-- What `SYS_CLONE` does to the mappings: the slot of the IPC buffer loses what was in it. -/
theorem settled_cloneBody {sender p : ℕ} (m : Message) {r : Root (K × Mappings)}
    (hmade : r.maps.Made) :
    Ends (cloneBody (paged sel4) boot sender p m) r fun _ t =>
      Settled boot (r.maps.unmap r.alloc.allocSlot.2.allocSlot.2.allocSlot.1) t := by
  refine .seq (maps_allocAndTrackCap p r) fun tcb t ht => ?_
  refine .seq (maps_idle (fun _ _ => rfl) t) fun _ u hu => ?_
  refine .seq (maps_allocAndTrackCap p u) fun badgedEp v hv => ?_
  refine .seq (maps_idle (fun _ _ => rfl) v) fun _ w hw => .bind (.get ?_)
  refine .seq (maps_idle (fun _ _ => rfl) w) fun _ x hx => ?_
  refine .seq (maps_idle (fun _ _ => rfl) x) fun _ y hy => ?_
  refine .seq (maps_allocAndTrackCap p y) fun ipcFrame z hz => ?_
  have hmaps : z.maps = r.maps := by
    rw [hz.2.1, hy.1, hx.1, hw.1, hv.2.1, hu.1, ht.2.1]
  have hslot : ipcFrame = r.alloc.allocSlot.2.allocSlot.2.allocSlot.1 := by
    rw [hz.1, hy.2.2.2, hx.2.2.2, hw.2.2.2, hv.2.2.1, hu.2.2.2, ht.2.2.1]
  subst hslot
  refine .seq (maps_sys _ z) fun e t ht => .bind (.get (.bind fun _ u hu => ?_))
  have hu : u.maps = t.maps := maps_of_kernel (by cases hu; rfl)
  refine .seq (maps_sys _ u) fun e' v hv => .seq (maps_sys _ v) fun _ w hw => ?_
  have hpages := hw.1
  rw [hv.1, hu, ht.1, hmaps] at hpages
  have h : Settled boot (r.maps.unmap r.alloc.allocSlot.2.allocSlot.2.allocSlot.1) w := by
    refine ⟨(congrArg Mappings.space hpages).trans (space_ipcBuffer ..), fun v a hdemand => ?_⟩
    rw [hpages]
    exact page_ipcBuffer hmade _ _ _ _ _ hdemand.1
  refine .seq (h.pageMap _ _ (by omega)) fun _ t h => .seq (ends_checkErr _ t) fun _ u hu => ?_
  obtain ⟨-, rfl⟩ := hu
  refine .seq (h.idle fun _ _ => rfl) fun _ t h => .seq (h.idle fun _ _ => rfl) fun _ t h => ?_
  refine .seq (h.idle fun _ _ => rfl) fun _ t h => .seq (h.idle fun _ _ => rfl) fun _ t h => ?_
  exact (ends_setPcb p _ t).mono fun _ u hu => h.congr (maps_of_kernel (by rw [hu]; rfl))

/-- `SYS_CLONE` takes the frame of the IPC page out of whatever it backed before. -/
theorem settled_sysClone {sender p : ℕ} {r : Root (K × Mappings)} (hfree : r.freePid = some p)
    (hmade : r.maps.Made) (m : Message) :
    Ends (sysClone (paged sel4) boot sender m) r fun _ t =>
      Settled boot (r.maps.unmap r.alloc.allocSlot.2.allocSlot.2.allocSlot.1) t := by
  refine .bind (.get ?_)
  rw [hfree]
  refine .seq (ends_setPcb p _ r) fun _ t ht => ?_
  subst ht
  refine .seq (settled_cloneBody m hmade) fun _ t h => ?_
  refine .seq (Q := fun _ u => u.maps = t.maps) (.onlyIf (fun _ => .modify rfl) fun _ => rfl)
    fun _ u hu => ?_
  have h := h.congr hu
  refine .bind (.get (.seq (h.idle fun _ _ => rfl) fun _ t h => ?_))
  exact .seq (h.idle fun _ _ => rfl) fun _ t h => .pure h

/-- Without a free PID `SYS_CLONE` only answers. -/
theorem maps_sysClone_full {sender : ℕ} {r : Root (K × Mappings)} (hfree : r.freePid = none)
    (m : Message) :
    Ends (sysClone (paged sel4) boot sender m) r fun _ t => t.maps = r.maps := by
  refine .bind (.get ?_)
  rw [hfree]
  exact .seq (maps_idle (fun _ _ => rfl) r) fun _ t ht => .pure ht.1

/-! ### The end of a thread -/

/-- An answer deletes the slot of the capability it was sent through. -/
theorem maps_answer (cap : ℕ) (mrs : List ℤ) (r : Root (K × Mappings)) :
    Ends (answer (paged sel4) boot cap mrs) r fun _ t => t.maps = r.maps.delete cap ∧
      t.pcbs = r.pcbs ∧ t.pipes = r.pipes := by
  intro _ t hrun
  rw [run_answer] at hrun
  cases hrun
  exact ⟨rfl, rfl, rfl⟩

/-- Closing a pipe deletes the slot of a parked reader. -/
theorem maps_closeWriter (i : ℕ) (r : Root (K × Mappings)) :
    Ends (closeWriter (paged sel4) boot i) r fun _ t =>
      t.maps = removeAll (if (r.pipes i).readerReplyCap ≠ 0 then
          [.delete (r.pipes i).readerReplyCap] else []) r.maps ∧
        t.pcbs = r.pcbs ∧ ∀ j, j ≠ i → t.pipes j = r.pipes j := by
  refine .seq (ends_setPipe i _ r) fun _ t ht => .bind (.get ?_)
  subst ht
  rw [Root.setPipe_self]
  refine .onlyIf (fun hcap => ?_) fun hcap => ?_
  · rw [if_pos hcap]
    refine .bind (.get ?_)
    rw [Root.setPipe_self]
    refine .seq (maps_answer _ _ _) fun _ u hu => .bind fun _ v hv => ?_
    cases hv
    refine (ends_setPipe i _ _).mono fun _ w hw => ?_
    subst hw
    refine ⟨hu.1, hu.2.1, fun j hj => ?_⟩
    rw [Root.setPipe_of_ne _ _ hj]
    exact (congrFun hu.2.2 j).trans (Root.setPipe_of_ne r _ hj)
  · rw [if_neg hcap]
    exact ⟨rfl, rfl, fun j hj => Root.setPipe_of_ne r _ hj⟩

/-- The output of a process ends pipe by pipe. -/
theorem maps_closePipes (p : ℕ) {is : List ℕ} (his : is.Nodup) (r : Root (K × Mappings)) :
    Ends (forM is fun i => do
      let r ← get
      onlyIf ((r.pipes i).active ∧ (r.pipes i).writerPid = p) (closeWriter (paged sel4) boot i) :
      RootM (K × Mappings) PUnit) r fun _ t =>
        t.maps = removeAll (is.flatMap fun i => (r.pipes i).removals p) r.maps ∧
          t.pcbs = r.pcbs := by
  induction is generalizing r with
  | nil => exact .pure ⟨rfl, rfl⟩
  | cons i is ih =>
    obtain ⟨hi, his⟩ := List.nodup_cons.mp his
    rw [List.forM_cons]
    refine .seq (Q := fun _ t => t.maps = removeAll ((r.pipes i).removals p) r.maps ∧
      t.pcbs = r.pcbs ∧ ∀ j, j ≠ i → t.pipes j = r.pipes j) (.bind (.get ?_)) fun _ t ht => ?_
    · refine .onlyIf (fun hwriter => ?_) fun hno => ?_
      · refine (maps_closeWriter i r).mono fun _ t ht => ?_
        rw [Pipe.removals, if_congr (and_iff_right hwriter) rfl rfl]
        exact ht
      · rw [Pipe.removals, if_neg fun h => hno h.1]
        exact ⟨rfl, rfl, fun _ _ => rfl⟩
    · refine (ih his t).mono fun _ u hu => ⟨?_, hu.2.trans ht.2.1⟩
      have hrest : (is.flatMap fun j => (t.pipes j).removals p) =
          is.flatMap fun j => (r.pipes j).removals p :=
        List.flatMap_congr fun j hj => by rw [ht.2.2 j fun heq => hi (heq ▸ hj)]
      rw [hu.1, hrest, ht.1, List.flatMap_cons, removeAll_append]

/-- A process that is told loses the slot of its reply capability. -/
theorem maps_wake (p i : ℕ) (r : Root (K × Mappings)) :
    Ends (wake (paged sel4) boot p i) r fun _ t =>
      t.maps = removeAll ((r.pcbs i).wakeRemovals p) r.maps ∧
        ∀ q, (t.pcbs q).threadRemovals = (r.pcbs q).threadRemovals := by
  have hpcb (u : Root (K × Mappings)) (f : Pcb → Pcb)
      (hf : ∀ x : Pcb, (f x).threadRemovals = x.threadRemovals) (q : ℕ) :
      ((u.setPcb i f).pcbs q).threadRemovals = (u.pcbs q).threadRemovals := by
    by_cases hq : q = i
    · subst hq
      rw [Root.setPcb_self, hf]
    · rw [Root.setPcb_of_ne u f hq]
  refine .bind (.get (.onlyIf (fun hwait => ?_) fun hno => ?_))
  · rw [Pcb.wakeRemovals, if_pos hwait]
    refine .seq (ends_setPcb i _ r) fun _ t ht => .seq (maps_answer _ _ t) fun _ u hu => ?_
    subst ht
    refine .bind fun _ v hv => (ends_setPcb i _ v).mono fun _ w hw => ?_
    cases hv
    subst hw
    refine ⟨hu.1, fun q => ?_⟩
    rw [hpcb]
    · change (u.pcbs q).threadRemovals = _
      rw [hu.2.1, hpcb]
      exact fun _ => rfl
    · exact fun _ => rfl
  · rw [Pcb.wakeRemovals, if_neg hno]
    exact ⟨rfl, fun _ => rfl⟩

/-- Releasing slots deletes what they hold. -/
theorem maps_releaseCaps (caps : List ℕ) (r : Root (K × Mappings)) :
    Ends (forM caps (releaseCap (paged sel4) boot)) r fun _ t =>
      t.maps = removeAll (caps.map .delete) r.maps := by
  induction caps generalizing r with
  | nil => exact .pure rfl
  | cons cap caps ih =>
    rw [List.forM_cons]
    refine .seq (Q := fun _ t => t.maps = r.maps.delete cap) ?_ fun _ t ht => ?_
    · refine .seq (maps_idle (fun _ _ => rfl) r) fun _ t ht => .seq (maps_sys _ t) fun _ u hu => ?_
      refine .modify ?_
      change u.maps = _
      rw [hu.1, ht.1]
      rfl
    · refine (ih t).mono fun _ u hu => ?_
      rw [hu, ht]
      rfl

/-- A thread is released with all the slots it has tracked. -/
theorem maps_releaseThread (p : ℕ) {pcb : Pcb} (h : pcb.IsThread) (r : Root (K × Mappings)) :
    Ends (releaseThread (paged sel4) boot p pcb) r fun _ t =>
      t.maps = removeAll pcb.threadRemovals r.maps := by
  rw [Pcb.threadRemovals, if_pos h, removeAll_append]
  refine .seq (maps_idle (fun _ _ => rfl) r) fun _ t ht => ?_
  refine .seq (Q := fun _ u => u.maps = removeAll (if pcb.threadIpcFrame ≠ 0 then
    [.unmap pcb.threadIpcFrame] else []) r.maps) (.onlyIf (fun hipc => ?_) fun hipc => ?_)
    fun _ u hu => ?_
  · refine .seq (maps_sys _ t) fun _ u hu => .pure ?_
    rw [if_pos hipc, hu.1, ht.1]
    rfl
  · rw [if_neg hipc]
    exact ht.1
  · refine .seq (maps_releaseCaps _ u) fun _ v hv => (ends_setPcb p _ v).mono fun _ w hw => ?_
    rw [maps_of_kernel (t := v) (by rw [hw]; rfl), hv, hu]

/-- `SYS_THREAD_EXIT` removes what `exitRemovals` lists. -/
theorem maps_sysThreadExit {m : Message} {r : Root (K × Mappings)}
    (halive : r.table.Alive (m.badge % 2 ^ 16)) :
    Ends (sysThreadExit (paged sel4) boot m) r fun _ t => t.maps =
      removeAll (r.exitRemovals (m.badge % 2 ^ 16) (m.badge / 2 ^ 16 % 2 ^ 16)) r.maps := by
  have hnodup : (List.range maxPipes).Nodup := List.nodup_range
  refine .bind (.get (.onlyIf (fun _ => ?_) fun hno => ?_))
  · refine .seq (maps_closePipes _ hnodup r) fun _ t ht => ?_
    rw [Root.exitRemovals, removeAll_append, removeAll_append, ← ht.1]
    refine .seq (Q := fun _ u => u.maps = removeAll (if 0 < m.badge / 2 ^ 16 % 2 ^ 16 ∧
        m.badge / 2 ^ 16 % 2 ^ 16 < 256 then
          (r.pcbs (m.badge / 2 ^ 16 % 2 ^ 16)).wakeRemovals (m.badge % 2 ^ 16) else []) t.maps ∧
      ∀ q, (u.pcbs q).threadRemovals = (r.pcbs q).threadRemovals) ?_ fun _ u hu => .bind (.get ?_)
    · refine .onlyIf (fun hparent => ?_) fun hparent => ?_
      · rw [if_pos hparent, ← ht.2]
        exact maps_wake _ _ t
      · rw [if_neg hparent, ht.2]
        exact ⟨rfl, fun _ => rfl⟩
    · rw [← hu.1, ← hu.2]
      refine .onlyIf (fun hthread => maps_releaseThread _ hthread u) fun hthread => ?_
      rw [Pcb.threadRemovals, if_neg hthread]
      rfl
  · exact absurd ⟨halive.2.1, halive.2.2, halive.1⟩ hno

/-! ## One message -/

/-- The rootserver comes back from a page fault in the demand-paged range, a `SYS_CLONE` or a
`SYS_THREAD_EXIT`. -/
def PagingStep (sel4 : SeL4 K) (boot : Boot) (r : Root (K × Mappings)) (m : Message)
    (t : Root (K × Mappings)) : Prop := m.Paging ∧ Step (paged sel4) boot r m t

/-- What such a message does to the mappings. -/
inductive PagingEffect (boot : Boot) (r : Root (K × Mappings)) (m : Message)
    (t : Root (K × Mappings)) : Prop
  | idle (hmaps : t.maps = r.maps) (hno : ¬ Drops boot r m)
  | fault (sender : ℕ) (hm : m.label = .vmFault)
      (hsender : r.table.senderPid m.badge = some sender) (hpos : sender ≠ 0)
      (hmaps : t.maps = (r.maps.addFrame r.alloc.allocSlot.1).map r.alloc.allocSlot.1
        (r.pcbs sender).vspace (m.mr 1 / 4096 * 4096))
  | clone (hm : m.label = .other ∧ m.mr 0 = 101) (hsender : r.table.senderPid m.badge ≠ none)
      (hfree : r.freePid ≠ none)
      (h : Settled boot (r.maps.unmap r.alloc.allocSlot.2.allocSlot.2.allocSlot.1) t)
  | exit (hm : m.label = .other ∧ m.mr 0 = 105) (halive : r.table.Alive (m.badge % 2 ^ 16))
      (hmaps : t.maps = removeAll
        (r.exitRemovals (m.badge % 2 ^ 16) (m.badge / 2 ^ 16 % 2 ^ 16)) r.maps)

/-- A message that is ignored changes no page. -/
theorem effect_ignored {r t : Root (K × Mappings)} {m : Message}
    (hstep : Step (paged sel4) boot r m t) (hsender : r.table.senderPid m.badge = none) :
    PagingEffect boot r m t := by
  refine .idle (by rw [step_ignored hstep hsender]) fun hdrops => ?_
  cases hdrops with
  | refault _ _ _ hs => rw [hsender] at hs; cases hs
  | faultSlot _ _ _ _ _ hs => rw [hsender] at hs; cases hs
  | cloneSlot _ _ _ _ hs => exact hs hsender
  | exit _ _ _ _ _ halive => rw [Table.senderPid_of_alive halive] at hsender; cases hsender

/-- A page fault that is handled maps a new frame at the address of the fault. -/
theorem effect_fault {r t : Root (K × Mappings)} {m : Message} {sender : ℕ}
    (hstep : Step (paged sel4) boot r m t) (hsender : r.table.senderPid m.badge = some sender)
    (hm : m.label = .vmFault) (hlow : 0x510000 ≤ m.mr 1) (hhigh : m.mr 1 < 0x600000) :
    PagingEffect boot r m t := by
  rw [Step, handle, run_bind, run_get] at hstep
  simp only [senderPid_table, hsender, hm] at hstep
  by_cases hpos : sender = 0
  · refine .idle ?_ fun hdrops => ?_
    · rw [vmFault, if_neg (fun h => h.2.2 hpos), if_neg (by omega), fatalFault, onlyIf,
        if_neg (not_not.mpr hpos)] at hstep
      cases hstep
      rfl
    · cases hdrops with
      | refault _ _ _ hs h0 =>
        obtain rfl := Option.some.inj (hsender.symm.trans hs)
        exact h0 hpos
      | faultSlot _ _ _ _ _ hs h0 =>
        obtain rfl := Option.some.inj (hsender.symm.trans hs)
        exact h0 hpos
      | cloneSlot _ _ _ h => rw [hm] at h; cases h.1
      | exit _ _ _ _ h => rw [hm] at h; cases h.1
  · rw [vmFault, if_pos ⟨hlow, hhigh, hpos⟩] at hstep
    exact .fault sender hm hsender hpos (maps_pageFault sender (m.mr 1) r _ _ hstep)

/-- `SYS_CLONE` unmaps the frame of the new IPC page. -/
theorem effect_clone {r t : Root (K × Mappings)} {m : Message} {sender : ℕ}
    (hmade : r.maps.Made) (hstep : Step (paged sel4) boot r m t)
    (hsender : r.table.senderPid m.badge = some sender) (hm : m.label = .other ∧ m.mr 0 = 101) :
    PagingEffect boot r m t := by
  have hrun := step_syscall hstep hsender hm.1
  rw [syscall, run_bind, run_get, hm.2] at hrun
  cases hfree : r.freePid with
  | none =>
    refine .idle (maps_sysClone_full hfree m _ _ hrun) fun hdrops => ?_
    cases hdrops with
    | refault _ _ h => rw [hm.1] at h; cases h
    | faultSlot _ _ _ _ h => rw [hm.1] at h; cases h
    | cloneSlot _ _ _ _ _ h => exact h hfree
    | exit _ _ _ _ h => rw [hm.2] at h; cases h.2
  | some p =>
    refine .clone hm (by rw [hsender]; simp) (by rw [hfree]; simp) ?_
    exact settled_sysClone hfree hmade m _ _ hrun

/-- `SYS_THREAD_EXIT` removes the slots of the thread. -/
theorem effect_exit {r t : Root (K × Mappings)} {m : Message} {sender : ℕ}
    (hstep : Step (paged sel4) boot r m t) (hsender : r.table.senderPid m.badge = some sender)
    (hm : m.label = .other ∧ m.mr 0 = 105) : PagingEffect boot r m t := by
  have hrun := step_syscall hstep hsender hm.1
  rw [syscall, run_bind, run_get, hm.2] at hrun
  by_cases halive : r.table.Alive (m.badge % 2 ^ 16)
  · exact .exit hm halive (maps_sysThreadExit halive _ _ hrun)
  · refine .idle ?_ fun hdrops => ?_
    · have hends : Ends (sysThreadExit (paged sel4) boot m) r fun _ t => t = r := by
        refine .bind (.get (.onlyIf (fun h => ?_) fun _ => rfl))
        exact absurd ⟨h.2.2, h.1, h.2.1⟩ halive
      rw [hends _ _ hrun]
    · cases hdrops with
      | refault _ _ h => rw [hm.1] at h; cases h
      | faultSlot _ _ _ _ h => rw [hm.1] at h; cases h
      | cloneSlot _ _ _ h => rw [hm.2] at h; cases h.2
      | exit _ _ _ _ _ h => exact halive h

/-- The effect of a message, by its kind. -/
theorem effect_of_step {r t : Root (K × Mappings)} {m : Message} (hmade : r.maps.Made)
    (hstep : PagingStep sel4 boot r m t) : PagingEffect boot r m t := by
  obtain ⟨hm, hstep⟩ := hstep
  cases hsender : r.table.senderPid m.badge with
  | none => exact effect_ignored hstep hsender
  | some sender =>
    rcases hm with ⟨hl, hlow, hhigh⟩ | ⟨hl, hclone | hexit⟩
    · exact effect_fault hstep hsender hl hlow hhigh
    · exact effect_clone hmade hstep hsender ⟨hl, hclone⟩
    · exact effect_exit hstep hsender ⟨hl, hexit⟩

/-- The pages after a page fault. -/
theorem page_fault {c : Mappings} {slot vspace vaddr v a n : ℕ} (h : ¬ (v = vspace ∧ a = vaddr)) :
    ((c.addFrame slot).map slot vspace vaddr).page v a = some n ↔
      c.page v a = some n ∧ c.frame slot ≠ some n := by
  rw [page_map_of_ne h]
  exact page_unmap

/-- A page fault backs its page by a new frame. -/
theorem page_fault_self (c : Mappings) (slot v a : ℕ) :
    ((c.addFrame slot).map slot v a).page v a = some c.count :=
  (page_map_self ..).trans (if_pos rfl)

/-- The address spaces do not come back. -/
theorem space_of_effect {r t : Root (K × Mappings)} {m : Message} {v : ℕ}
    (h : PagingEffect boot r m t) (hv : t.maps.space v = true) : r.maps.space v = true := by
  cases h with
  | idle hmaps => rwa [hmaps] at hv
  | fault _ _ _ _ hmaps => rwa [hmaps] at hv
  | clone _ _ _ h => rwa [h.space] at hv
  | exit _ _ hmaps => rw [hmaps, space_removeAll] at hv; exact hv.1

/-- A message that drops nothing leaves every page its frame. -/
theorem kept_of_not_drops {r t : Root (K × Mappings)} {m : Message} (h : PagingEffect boot r m t)
    (hno : ¬ Drops boot r m) : StayBacked boot r t := by
  intro v a n hpage hv
  cases h with
  | idle hmaps =>
    rw [hmaps]
    exact hpage.2.2
  | fault sender hm hsender hpos hmaps =>
    by_cases hself : v = (r.pcbs sender).vspace ∧ a = m.mr 1 / 4096 * 4096
    · obtain ⟨rfl, rfl⟩ := hself
      exact absurd (.refault sender n hm hsender hpos hpage) hno
    · rw [hmaps, page_fault hself]
      exact ⟨hpage.2.2, fun hframe => hno (.faultSlot sender v a n hm hsender hpos hpage hframe)⟩
  | clone hm hsender hfree h =>
    rw [h.page v a hpage.1, page_unmap]
    exact ⟨hpage.2.2, fun hframe => hno (.cloneSlot v a n hm hsender hfree hpage hframe)⟩
  | exit hm halive hmaps =>
    rw [hmaps, space_removeAll] at hv
    rw [hmaps, page_removeAll]
    exact ⟨hpage.2.2, fun o ho hframe =>
      hno (.exit o v a n hm halive hpage ho hframe hv.2)⟩

/-- What `Drops` speaks of is lost. -/
theorem not_kept_of_drops {r t : Root (K × Mappings)} {m : Message} (hmade : r.maps.Made)
    (h : PagingEffect boot r m t) (hdrops : Drops boot r m) : ¬ StayBacked boot r t := by
  intro hkept
  -- by the effect: a drop of another kind would be another message
  cases h with
  | idle _ hno => exact hno hdrops
  | fault sender hm hsender _ hmaps =>
    have hspace {v : ℕ} (hv : r.maps.space v = true) : t.maps.space v = true := by rwa [hmaps]
    cases hdrops with
    | refault sender' n _ hs _ hpage =>
      obtain rfl := Option.some.inj (hsender.symm.trans hs)
      have hnew := hkept _ _ n hpage (hspace hpage.2.1)
      rw [hmaps, page_fault_self] at hnew
      exact absurd (hmade.page _ _ n hpage.2.2) (by rw [Option.some.inj hnew]; exact lt_irrefl n)
    | faultSlot sender' v a n _ hs _ hpage hframe =>
      have hnew := hkept v a n hpage (hspace hpage.2.1)
      rw [hmaps] at hnew
      by_cases hself : v = (r.pcbs sender).vspace ∧ a = m.mr 1 / 4096 * 4096
      · obtain ⟨rfl, rfl⟩ := hself
        rw [page_fault_self] at hnew
        exact absurd (hmade.page _ _ n hpage.2.2) (by rw [Option.some.inj hnew]; exact lt_irrefl n)
      · exact ((page_fault hself).mp hnew).2 hframe
    | cloneSlot _ _ _ h => rw [hm] at h; cases h.1
    | exit _ _ _ _ h => rw [hm] at h; cases h.1
  | clone hm _ _ h =>
    cases hdrops with
    | cloneSlot v a n _ _ _ hpage hframe =>
      have hnew := hkept v a n hpage (by rw [h.space]; exact hpage.2.1)
      rw [h.page v a hpage.1, page_unmap] at hnew
      exact hnew.2 hframe
    | refault _ _ hfault => rw [hm.1] at hfault; cases hfault
    | faultSlot _ _ _ _ hfault => rw [hm.1] at hfault; cases hfault
    | exit _ _ _ _ hexit => rw [hm.2] at hexit; cases hexit.2
  | exit hm _ hmaps =>
    cases hdrops with
    | exit o v a n _ _ hpage ho hframe hspace =>
      have hnew := hkept v a n hpage (by rw [hmaps, space_removeAll]; exact ⟨hpage.2.1, hspace⟩)
      rw [hmaps, page_removeAll] at hnew
      exact hnew.2 o ho hframe
    | refault _ _ hfault => rw [hm.1] at hfault; cases hfault
    | faultSlot _ _ _ _ hfault => rw [hm.1] at hfault; cases hfault
    | cloneSlot _ _ _ hclone => rw [hm.2] at hclone; cases hclone.2

/-! ## Whole runs -/

/-- Every step backs pages by frames that were made. -/
theorem made_step {r t : Root (K × Mappings)} {m : Message} (h : Step (paged sel4) boot r m t)
    (hr : r.maps.Made) : t.maps.Made :=
  (kernelOnly_ghosted (P := Mappings.Made) fun _ i e hc => hc.after i e).step h hr

/-- After boot all pages are backed by frames that were made. -/
theorem made_booted {dev : Devices} {k : K} {r : Root (K × Mappings)}
    (h : BootedFrom (paged sel4) boot dev (k, Mappings.empty) r) : r.maps.Made := by
  obtain ⟨alloc, -, -, hrun⟩ := h
  exact (kernelOnly_ghosted (P := Mappings.Made) fun _ i e hc => hc.after i e).steady.bootProcesses
    dev _ _ _ hrun made_empty

/-- From every state the rootserver can reach, every run of page faults, `SYS_CLONE` and
`SYS_THREAD_EXIT` that drops no frame leaves each page the frame it had, for as long as its address
space lasts; and one more such message does so if and only if it drops none. -/
theorem backed_of_run {dev : Devices} {k : K} {r₀ r t : Root (K × Mappings)} {ms₀ ms : List Message}
    (hboot : BootedFrom (paged sel4) boot dev (k, Mappings.empty) r₀)
    (hreach : Run (Step (paged sel4) boot) r₀ ms₀ r)
    (hrun : Run (guarded (PagingStep sel4 boot) fun r m => ¬ Drops boot r m) r ms t) :
    StayBacked boot r t ∧
      ∀ m u, PagingStep sel4 boot t m u → (StayBacked boot t u ↔ ¬ Drops boot t m) := by
  have hmade : r.maps.Made :=
    Run.invariant (I := fun x => x.maps.Made) (fun _ _ _ hx hstep => made_step hstep hx) hreach
      (made_booted hboot)
  have hinv : t.maps.Made ∧ StayBacked boot r t ∧
      ∀ v, t.maps.space v = true → r.maps.space v = true := by
    refine Run.invariant (I := fun t => t.maps.Made ∧ StayBacked boot r t ∧
      ∀ v, t.maps.space v = true → r.maps.space v = true) (fun x m y hx hstep => ?_) hrun
      ⟨hmade, fun _ _ _ hpage _ => hpage.2.2, fun _ hv => hv⟩
    obtain ⟨hno, hstep⟩ := hstep
    have heffect := effect_of_step hx.1 hstep
    refine ⟨made_step hstep.2 hx.1, fun v a n hpage hv => ?_, fun v hv => ?_⟩
    · have hmid := space_of_effect heffect hv
      exact kept_of_not_drops heffect hno v a n ⟨hpage.1, hmid, hx.2.1 v a n hpage hmid⟩ hv
    · exact hx.2.2 v (space_of_effect heffect hv)
  refine ⟨hinv.2.1, fun m u hstep => ?_⟩
  have heffect := effect_of_step hinv.1 hstep
  exact ⟨fun hkept hdrops => not_kept_of_drops hinv.1 heffect hdrops hkept,
    kept_of_not_drops heffect⟩

end

/-! The shell touches two pages, and a thread of it touches one and ends. -/

/-- A page fault. -/
def faultAt (badge addr : ℕ) : Message := { badge := badge, label := .vmFault, mr := fun _ => addr }

/-- A system call without arguments. -/
def pagerCall (badge number : ℕ) : Message :=
  { badge := badge, mr := fun n => if n = 0 then number else 0 }

/-- The small system with its mappings, after boot. -/
def pagedRoot : Root (Unit × Mappings) :=
  (bootFrom (paged granting) someBoot someDevices ((), Mappings.empty) ⟨1000, 4000, []⟩).get
    (by decide +kernel)

theorem bootedFrom_pagedRoot :
    BootedFrom (paged granting) someBoot someDevices ((), Mappings.empty) pagedRoot :=
  bootedFrom_get _ _ _ rfl (by decide)

/-- The shell has touched a page. -/
def touched : Root (Unit × Mappings) :=
  (next (paged granting) someBoot pagedRoot (faultAt 5 0x520000)).get (by decide +kernel)

/-- It has touched another one. -/
def touchedTwo : Root (Unit × Mappings) :=
  (next (paged granting) someBoot touched (faultAt 5 0x530000)).get (by decide +kernel)

theorem step_touched : Step (paged granting) someBoot pagedRoot (faultAt 5 0x520000) touched :=
  step_get _ _ _

theorem step_touchedTwo : Step (paged granting) someBoot touched (faultAt 5 0x530000) touchedTwo :=
  step_get _ _ _

/-- A fault on a page without a frame, for which the allocator has an empty slot. -/
theorem not_drops_fault {boot : Boot} {r : Root (K × Mappings)} {m : Message} (sender : ℕ)
    (hm : m.label = .vmFault) (hsender : r.table.senderPid m.badge = some sender)
    (hpage : r.maps.page (r.pcbs sender).vspace (m.mr 1 / 4096 * 4096) = none)
    (hslot : r.maps.frame r.alloc.allocSlot.1 = none) : ¬ Drops boot r m := by
  intro hdrops
  cases hdrops with
  | refault sender' n _ hs _ h =>
    obtain rfl := Option.some.inj (hsender.symm.trans hs)
    rw [Root.Backed, hpage] at h
    cases h.2.2
  | faultSlot _ _ _ _ _ _ _ _ h => rw [hslot] at h; cases h
  | cloneSlot _ _ _ h => rw [hm] at h; cases h.1
  | exit _ _ _ _ h => rw [hm] at h; cases h.1

/-- A second page is no drop. -/
theorem not_drops_touched : ¬ Drops someBoot touched (faultAt 5 0x530000) :=
  not_drops_fault 5 rfl (by decide +kernel) (by decide +kernel) (by decide +kernel)

theorem run_touchedTwo :
    Run (guarded (PagingStep granting someBoot) fun r m => ¬ Drops someBoot r m) touched
      [faultAt 5 0x530000] touchedTwo :=
  .single ⟨not_drops_touched, .inl ⟨rfl, by decide, by decide⟩, step_touchedTwo⟩

/-- The first page is there before the second fault. -/
theorem page_touched : (touched.pcbs 5).vspace ≠ someBoot.rootVspace ∧
    touched.maps.space (touched.pcbs 5).vspace = true ∧
    touched.maps.page (touched.pcbs 5).vspace 0x520000 = some 10 ∧
    touchedTwo.maps.space (touched.pcbs 5).vspace = true := by
  decide +kernel

theorem backed_of_run_touchedTwo :
    touchedTwo.maps.page (touched.pcbs 5).vspace 0x520000 = some 10 := by
  obtain ⟨hv, hspace, hpage, hspace'⟩ := page_touched
  exact (backed_of_run bootedFrom_pagedRoot (.single step_touched) run_touchedTwo).1 _ _ _
    ⟨⟨hv, by decide, by decide⟩, hspace, hpage⟩ hspace'

/-- The shell starts a thread, with PID 6. -/
def threadStarted : Root (Unit × Mappings) :=
  (next (paged granting) someBoot pagedRoot (pagerCall 5 101)).get (by decide +kernel)

/-- The thread touches a page. -/
def threadTouched : Root (Unit × Mappings) :=
  (next (paged granting) someBoot threadStarted (faultAt (5 * 2 ^ 16 + 6) 0x520000)).get
    (by decide +kernel)

/-- The thread ends. -/
def threadEnded : Root (Unit × Mappings) :=
  (next (paged granting) someBoot threadTouched (pagerCall (5 * 2 ^ 16 + 6) 105)).get
    (by decide +kernel)

/-- The shell touches a page that a thread of it has touched too. -/
def touchedTwice : Root (Unit × Mappings) :=
  (next (paged granting) someBoot touched (faultAt 5 0x520000)).get (by decide +kernel)

theorem step_threadStarted :
    Step (paged granting) someBoot pagedRoot (pagerCall 5 101) threadStarted := step_get _ _ _

theorem step_threadTouched : Step (paged granting) someBoot threadStarted
    (faultAt (5 * 2 ^ 16 + 6) 0x520000) threadTouched := step_get _ _ _

theorem step_threadEnded : Step (paged granting) someBoot threadTouched
    (pagerCall (5 * 2 ^ 16 + 6) 105) threadEnded := step_get _ _ _

theorem step_touchedTwice :
    Step (paged granting) someBoot touched (faultAt 5 0x520000) touchedTwice := step_get _ _ _

/-- A page that has another frame, or none, while the address space lasts is not kept. -/
theorem not_kept_of_page {boot : Boot} {r t : Root (K × Mappings)} {v a n : ℕ}
    (hpage : r.Backed boot v a n) (hspace : t.maps.space v = true)
    (h : t.maps.page v a ≠ some n) : ¬ StayBacked boot r t :=
  fun hkept => h (hkept v a n hpage hspace)

/-- The page of the shell has been backed by the frame of the thread. -/
theorem page_threadEnded : (threadTouched.pcbs 5).vspace ≠ someBoot.rootVspace ∧
    threadTouched.maps.space (threadTouched.pcbs 5).vspace = true ∧
    threadTouched.maps.page (threadTouched.pcbs 5).vspace 0x520000 = some 11 ∧
    threadEnded.maps.space (threadTouched.pcbs 5).vspace = true ∧
    threadEnded.maps.page (threadTouched.pcbs 5).vspace 0x520000 ≠ some 11 := by
  decide +kernel

/-- The page that faulted twice is backed by another frame. -/
theorem page_touchedTwice : touchedTwice.maps.space (touched.pcbs 5).vspace = true ∧
    touchedTwice.maps.page (touched.pcbs 5).vspace 0x520000 ≠ some 10 := by
  decide +kernel

/-- The end of a thread takes a page from its process. -/
theorem not_kept_threadEnded : ¬ StayBacked someBoot threadTouched threadEnded := by
  obtain ⟨hv, hspace, hpage, hspace', hlost⟩ := page_threadEnded
  exact not_kept_of_page ⟨⟨hv, by decide, by decide⟩, hspace, hpage⟩ hspace' hlost

/-- A fault at a page that is there replaces its frame. -/
theorem not_kept_touchedTwice : ¬ StayBacked someBoot touched touchedTwice := by
  obtain ⟨hv, hspace, hpage, -⟩ := page_touched
  exact not_kept_of_page ⟨⟨hv, by decide, by decide⟩, hspace, hpage⟩ page_touchedTwice.1
    page_touchedTwice.2

/-- A page goes with the thread that touched it first, and a second fault on a page replaces its
frame. -/
theorem not_backed :
    BootedFrom (paged granting) someBoot someDevices ((), Mappings.empty) pagedRoot ∧
    (Run (Step (paged granting) someBoot) pagedRoot
        [pagerCall 5 101, faultAt (5 * 2 ^ 16 + 6) 0x520000] threadTouched ∧
      Run (PagingStep granting someBoot) threadTouched [pagerCall (5 * 2 ^ 16 + 6) 105]
        threadEnded ∧
      ¬ StayBacked someBoot threadTouched threadEnded) ∧
    Run (Step (paged granting) someBoot) pagedRoot [faultAt 5 0x520000] touched ∧
      Run (PagingStep granting someBoot) touched [faultAt 5 0x520000] touchedTwice ∧
      ¬ StayBacked someBoot touched touchedTwice :=
  ⟨bootedFrom_pagedRoot,
    ⟨.cons step_threadStarted (.single step_threadTouched),
      .single ⟨.inr ⟨rfl, .inr rfl⟩, step_threadEnded⟩, not_kept_threadEnded⟩,
    .single step_touched,
    .single ⟨.inl ⟨rfl, by decide, by decide⟩, step_touchedTwice⟩, not_kept_touchedTwice⟩

end PsychWard.Rootserver
