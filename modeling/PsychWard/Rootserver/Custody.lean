import PsychWard.Common.Custody
import PsychWard.Rootserver.Life
import Mathlib.Algebra.BigOperators.Group.Finset.Basic

/-!
# Who holds a slot

A slot that `alloc_slot` has handed out is held by the process control block that tracks it, waits
with it or maps the shared window through it, by a parked reader, or by the shell that waits for the
drivers. `Balanced` counts these places and the pool: no slot is in two of them. It also says that a
live process tracks the slots that its block names.

While a handler runs it has slots in hand, and it knows of slots that a block tracks. The blocks
outside `P` do not count, because they are being taken apart.
-/

namespace PsychWard.Rootserver

open Program

/-- The slots of the shared window, while the process has it. -/
def Pcb.window (pcb : Pcb) : List ℕ := if pcb.hasShm then (List.range 4).map pcb.shmCopies else []

/-- The slots that a block answers for: those its process was given, the reply capability it waits
with, and the shared window. A dead block answers for none. -/
def Pcb.held (pcb : Pcb) : List ℕ :=
  if pcb.active then pcb.capTracker ++ pcb.replyCap :: pcb.window else []

/-- The slots of the objects that the block names as its own. A thread has borrowed its address
space and its CNode. -/
def Pcb.names (pcb : Pcb) : List ℕ :=
  pcb.tcb :: pcb.badgedEp :: pcb.threadIpcFrame ::
    if pcb.IsThread then [] else [pcb.vspace, pcb.cspace]

/-- The block tracks what it names. -/
def Pcb.Owns (pcb : Pcb) : Prop := ∀ s ∈ pcb.names, s ≠ 0 → s ∈ pcb.capTracker

/-- How often the slot is in use: by the blocks in `P`, by parked readers, and by the shell that
waits for the drivers. -/
def Root.inUse {K : Type} (P : Finset ℕ) (r : Root K) (slot : ℕ) : ℕ :=
  ∑ p ∈ P, (r.pcbs p).held.count slot + (∑ i ∈ Finset.range maxPipes,
    [(r.pipes i).readerReplyCap].count slot + [r.driverReadyWaitReply].count slot)

/-- What a handler has in hand: a slot, or the knowledge that the block of a process tracks one. -/
inductive Token
  | slot (s : ℕ)
  | tracked (pid s : ℕ)
  deriving DecidableEq

/-- With `l` in hand, every slot is in one place at most, and those that have not been handed out
are in none; and the live processes track what their blocks name. -/
structure Balanced {K : Type} (P : Finset ℕ) (l : List Token) (r : Root K) : Prop where
  bump : 0 < r.alloc.currentSlot
  once : ∀ s ≠ 0, r.alloc.freeSlots.count s + r.inUse P s + l.count (.slot s) ≤
    if s < r.alloc.currentSlot then 1 else 0
  known : ∀ p ∈ P, ∀ s, .tracked p s ∈ l → s ∈ (r.pcbs p).capTracker
  owns : ∀ p ∈ P, (r.pcbs p).active = true → (r.pcbs p).Owns

/-- A process that has ended answers for no slot. -/
theorem Pcb.held_dead {x : Pcb} (h : x.active = false) : x.held = [] := by
  rw [Pcb.held, h]
  rfl

/-- What a live process answers for, place by place. -/
theorem Pcb.count_held {x : Pcb} (h : x.active = true) (s : ℕ) :
    x.held.count s = x.capTracker.count s + ([x.replyCap].count s + x.window.count s) := by
  rw [Pcb.held, if_pos h, List.count_append, ← List.singleton_append, List.count_append]

/-- To answer for no more it is enough to have no more in each place. -/
theorem Pcb.count_held_le {x y : Pcb} {s n : ℕ} (hactive : y.active = true → x.active = true)
    (h : y.capTracker.count s + ([y.replyCap].count s + y.window.count s) ≤
      x.capTracker.count s + ([x.replyCap].count s + x.window.count s) + n) :
    y.held.count s ≤ x.held.count s + n := by
  cases hy : y.active with
  | false => rw [Pcb.held_dead hy]; exact Nat.zero_le _
  | true => rwa [Pcb.count_held hy, Pcb.count_held (hactive hy)]

/-- Tracking more, and naming nothing else that is not tracked. -/
theorem Pcb.Owns.extend {x y : Pcb} (h : x.Owns) (hsub : x.capTracker ⊆ y.capTracker)
    (hnames : ∀ s ∈ y.names, s ≠ 0 → s ∈ x.names ∨ s ∈ y.capTracker) : y.Owns :=
  fun s hs h0 => (hnames s hs h0).elim (fun hx => hsub (h s hx h0)) id

/-- The slots that a block names. -/
theorem Pcb.mem_names {x : Pcb} {s : ℕ} : s ∈ x.names ↔ s = x.tcb ∨ s = x.badgedEp ∨
    s = x.threadIpcFrame ∨ ¬ x.IsThread ∧ (s = x.vspace ∨ s = x.cspace) := by
  unfold Pcb.names
  split <;> simp [*]

/-- A new process answers for nothing. -/
theorem Pcb.count_fresh (name : CString) {s : ℕ} (hs : s ≠ 0) : (Pcb.fresh name).held.count s = 0 :=
  List.count_cons_of_ne hs.symm

/-- Nor does a new thread: it borrows what it has of its parent. -/
theorem Pcb.count_freshThread (parent : Pcb) {s : ℕ} (hs : s ≠ 0) :
    (Pcb.freshThread parent).held.count s = 0 :=
  List.count_cons_of_ne hs.symm

/-- A new block names nothing. -/
theorem Pcb.owns_fresh (name : CString) : (Pcb.fresh name).Owns := by
  intro s hs h0
  rcases Pcb.mem_names.mp hs with h | h | h | ⟨-, h | h⟩ <;> exact absurd h h0

/-- A thread borrows its address space and its CNode. -/
theorem Pcb.owns_freshThread (parent : Pcb) : (Pcb.freshThread parent).Owns := by
  intro s hs h0
  rcases Pcb.mem_names.mp hs with h | h | h | ⟨hthread, -⟩
  · exact absurd h h0
  · exact absurd h h0
  · exact absurd h h0
  · exact absurd (by decide : shellThreadName.take 12 = shellThreadName) hthread

/-- A slot that is tracked is answered for once more. -/
theorem Pcb.count_track (x : Pcb) (cap s : ℕ) :
    { x with capTracker := x.capTracker ++ [cap] }.held.count s ≤
      x.held.count s + [cap].count s := by
  refine Pcb.count_held_le id ?_
  rw [List.count_append]
  change _ + ([x.replyCap].count s + x.window.count s) ≤ _
  omega

/-- One copy of the window is replaced. -/
theorem count_map_update (c : ℕ → ℕ) (i v s : ℕ) {xs : List ℕ} (h : xs.Nodup) :
    (xs.map (Function.update c i v)).count s ≤ (xs.map c).count s + [v].count s := by
  induction xs with
  | nil => exact Nat.zero_le _
  | cons x xs ih =>
    obtain ⟨hx, hxs⟩ := List.nodup_cons.mp h
    rw [List.map_cons, List.map_cons, List.count_cons, List.count_cons]
    by_cases hxi : x = i
    · have hrest : xs.map (Function.update c i v) = xs.map c :=
        List.map_congr_left fun y hy =>
          Function.update_of_ne (fun hyi => hx (by rwa [hxi, ← hyi])) _ _
      rw [hrest, hxi, Function.update_self, List.count_singleton]
      omega
    · rw [Function.update_of_ne hxi]
      have hle := ih hxs
      omega

/-- One copy of the window adds one slot. -/
theorem Pcb.count_window_update (x : Pcb) (i v s : ℕ) :
    { x with shmCopies := Function.update x.shmCopies i v }.window.count s ≤
      x.window.count s + [v].count s := by
  cases hshm : x.hasShm with
  | true =>
    simp only [Pcb.window, hshm, if_true]
    exact count_map_update _ _ _ _ List.nodup_range
  | false =>
    simp only [Pcb.window, hshm, Bool.false_eq_true, if_false]
    exact Nat.zero_le _

/-- A sum over a table of which one entry has changed. -/
theorem sum_update {β : Type} (P : Finset ℕ) (g : β → ℕ) (f : ℕ → β) (p : ℕ) (y : β) :
    ∑ q ∈ P, g (Function.update f p y q) + (if p ∈ P then g (f p) else 0) =
      ∑ q ∈ P, g (f q) + if p ∈ P then g y else 0 := by
  have hrest : ∑ q ∈ P.erase p, g (Function.update f p y q) = ∑ q ∈ P.erase p, g (f q) :=
    Finset.sum_congr rfl fun q hq => by rw [Function.update_of_ne (Finset.ne_of_mem_erase hq)]
  by_cases hp : p ∈ P
  · rw [if_pos hp, if_pos hp, ← Finset.add_sum_erase P _ hp, hrest, ← Finset.add_sum_erase P _ hp,
      Function.update_self]
    omega
  · rw [if_neg hp, if_neg hp, ← Finset.erase_eq_of_notMem hp, hrest]

/-- Tokens of slots are counted one at a time. -/
theorem count_slot_cons (l : List Token) (a s : ℕ) :
    (.slot a :: l).count (.slot s) = l.count (.slot s) + if a = s then 1 else 0 := by
  simp [List.count_cons]

/-- A list of slots in hand counts as it stands. -/
theorem count_slots (xs : List ℕ) (s : ℕ) : (xs.map Token.slot).count (.slot s) = xs.count s :=
  List.count_map_of_injective _ _ (fun _ _ h => Token.slot.inj h) _

/-- One slot in hand. -/
theorem count_slot (cap s : ℕ) : [Token.slot cap].count (.slot s) = [cap].count s :=
  count_slots [cap] s

/-- A slot in hand is no record of a tracked one. -/
theorem tracked_notMem_slots (xs : List ℕ) (p s : ℕ) : Token.tracked p s ∉ xs.map Token.slot := by
  simp

variable {K : Type} {sel4 : SeL4 K} {boot : Boot} {P : Finset ℕ} {l l' : List Token} {r t : Root K}
  {p i slot : ℕ}

/-- A change of one block changes its own part of the sum. -/
theorem inUse_setPcb (P : Finset ℕ) (r : Root K) (p : ℕ) (f : Pcb → Pcb) (s : ℕ) :
    (r.setPcb p f).inUse P s + (if p ∈ P then (r.pcbs p).held.count s else 0) =
      r.inUse P s + if p ∈ P then (f (r.pcbs p)).held.count s else 0 := by
  have hsum := sum_update P (fun x : Pcb => x.held.count s) r.pcbs p (f (r.pcbs p))
  simp only [Root.inUse, Root.setPcb]
  omega

/-- A change of one pipe changes its own part of the sum. -/
theorem inUse_setPipe (P : Finset ℕ) (r : Root K) (i : ℕ) (f : Pipe → Pipe) (s : ℕ) :
    (r.setPipe i f).inUse P s + (if i < maxPipes then [(r.pipes i).readerReplyCap].count s else 0) =
      r.inUse P s + if i < maxPipes then [(f (r.pipes i)).readerReplyCap].count s else 0 := by
  have hsum := sum_update (Finset.range maxPipes) (fun x : Pipe => [x.readerReplyCap].count s)
    r.pipes i (f (r.pipes i))
  simp only [Finset.mem_range] at hsum
  simp only [Root.inUse, Root.setPipe]
  omega

namespace Balanced

/-- Fewer slots in hand keep the balance. -/
theorem mono (h : Balanced P l r) (hslot : ∀ s ≠ 0, l'.count (.slot s) ≤ l.count (.slot s))
    (hknown : ∀ p s, .tracked p s ∈ l' → .tracked p s ∈ l) : Balanced P l' r where
  bump := h.bump
  once s hs := (Nat.add_le_add_left (hslot s hs) _).trans (h.once s hs)
  known p hp s hs := h.known p hp s (hknown p s hs)
  owns := h.owns

/-- What is in hand may be lost, not doubled. -/
theorem drop (h : Balanced P l r) (hl : l'.Sublist l) : Balanced P l' r :=
  h.mono (fun _ _ => hl.count_le _) fun _ _ hs => hl.mem hs

/-- The balance is read from four parts of the state. -/
theorem congr (h : Balanced P l r) (halloc : t.alloc = r.alloc) (hpcbs : t.pcbs = r.pcbs)
    (hpipes : t.pipes = r.pipes) (hwait : t.driverReadyWaitReply = r.driverReadyWaitReply) :
    Balanced P l t where
  bump := by rw [halloc]; exact h.bump
  once s hs := by rw [Root.inUse, halloc, hpcbs, hpipes, hwait]; exact h.once s hs
  known := by rw [hpcbs]; exact h.known
  owns := by rw [hpcbs]; exact h.owns

/-- A change of the pool that puts nothing in two places. -/
theorem setAlloc (h : Balanced P l r) {a : PsychAllocator} (hbump : 0 < a.currentSlot)
    (hknown : ∀ p s, .tracked p s ∈ l' → .tracked p s ∈ l) (ha : ∀ s ≠ 0,
      a.freeSlots.count s + r.inUse P s + l'.count (.slot s) ≤ if s < a.currentSlot then 1 else 0) :
    Balanced P l' { r with alloc := a } :=
  ⟨hbump, ha, fun p hp s hs => h.known p hp s (hknown p s hs), h.owns⟩

/-- The slot that is handed out is in no other place. -/
theorem allocSlot (h : Balanced P l r) :
    Balanced P (.slot r.alloc.allocSlot.1 :: l) { r with alloc := r.alloc.allocSlot.2 } := by
  have hknown : ∀ a p s, .tracked p s ∈ Token.slot a :: l → .tracked p s ∈ l := by simp
  rw [PsychAllocator.allocSlot]
  cases hfree : r.alloc.freeSlots with
  | cons slot rest =>
    refine h.setAlloc h.bump (hknown _) fun s hs => ?_
    have honce := h.once s hs
    rw [hfree, List.count_cons] at honce
    simp only [beq_iff_eq] at honce
    rw [count_slot_cons]
    dsimp only
    omega
  | nil =>
    dsimp only
    split
    · refine h.setAlloc (Nat.zero_lt_succ _) (hknown _) fun s hs => ?_
      have honce := h.once s hs
      rw [hfree] at honce
      rw [count_slot_cons]
      dsimp only
      split_ifs at honce ⊢ <;> omega
    · refine h.mono (fun s hs => ?_) (hknown _)
      rw [count_slot_cons, if_neg hs.symm]
      exact Nat.le_refl _

/-- A slot in hand goes back to the pool, or is forgotten. -/
theorem free (h : Balanced P (.slot slot :: l) r) :
    Balanced P l { r with alloc := r.alloc.free slot } := by
  have hdrop : Balanced P l r := h.drop (List.sublist_cons_self _ _)
  rw [PsychAllocator.free]
  split
  · exact hdrop
  · split
    · exact hdrop
    · refine hdrop.setAlloc h.bump (fun _ _ => id) fun s hs => ?_
      have honce := h.once s hs
      rw [count_slot_cons] at honce
      rw [List.count_cons]
      simp only [beq_iff_eq]
      omega

/-- Slots move between the hand and a block. -/
theorem setPcb (h : Balanced P l r) {f : Pcb → Pcb}
    (hcount : ∀ s ≠ 0, (if p ∈ P then (f (r.pcbs p)).held.count s else 0) + l'.count (.slot s) ≤
      (if p ∈ P then (r.pcbs p).held.count s else 0) + l.count (.slot s))
    (hknown : ∀ q ∈ P, ∀ s, .tracked q s ∈ l' → s ∈ ((r.setPcb p f).pcbs q).capTracker)
    (howns : p ∈ P → (f (r.pcbs p)).active = true → (f (r.pcbs p)).Owns) :
    Balanced P l' (r.setPcb p f) := by
  refine ⟨h.bump, fun s hs => ?_, hknown, fun q hq hactive => ?_⟩
  · have honce := h.once s hs
    have hle := hcount s hs
    have hsum := inUse_setPcb P r p f s
    change r.alloc.freeSlots.count s + _ + l'.count _ ≤ if s < r.alloc.currentSlot then 1 else 0
    omega
  · by_cases hqp : q = p
    · subst hqp
      rw [Root.setPcb_self] at hactive ⊢
      exact howns hq hactive
    · rw [Root.setPcb_of_ne r f hqp] at hactive ⊢
      exact h.owns q hq hactive

/-- What is known stays true while blocks track no less. -/
theorem known_setPcb (h : Balanced P l r) {f : Pcb → Pcb}
    (hsub : p ∈ P → (r.pcbs p).capTracker ⊆ (f (r.pcbs p)).capTracker) :
    ∀ q ∈ P, ∀ s, .tracked q s ∈ l → s ∈ ((r.setPcb p f).pcbs q).capTracker := by
  intro q hq s hs
  have htracked := h.known q hq s hs
  by_cases hqp : q = p
  · subst hqp
    rw [Root.setPcb_self]
    exact hsub hq htracked
  · rwa [Root.setPcb_of_ne r f hqp]

/-- Slots move between the hand and a pipe. -/
theorem setPipe (h : Balanced P l r) {f : Pipe → Pipe} (hcount : ∀ s ≠ 0,
    (if i < maxPipes then [(f (r.pipes i)).readerReplyCap].count s else 0) + l'.count (.slot s) ≤
      (if i < maxPipes then [(r.pipes i).readerReplyCap].count s else 0) + l.count (.slot s))
    (hknown : ∀ p s, .tracked p s ∈ l' → .tracked p s ∈ l) : Balanced P l' (r.setPipe i f) := by
  refine ⟨h.bump, fun s hs => ?_, fun p hp s hs => h.known p hp s (hknown p s hs), h.owns⟩
  have honce := h.once s hs
  have hle := hcount s hs
  have hsum := inUse_setPipe P r i f s
  change r.alloc.freeSlots.count s + _ + l'.count _ ≤ if s < r.alloc.currentSlot then 1 else 0
  omega

/-- Slots move between the hand and the wait for the drivers. -/
theorem setWait (h : Balanced P l r) {cap : ℕ} (hcap : ∀ s ≠ 0,
    [cap].count s + l'.count (.slot s) ≤ [r.driverReadyWaitReply].count s + l.count (.slot s))
    (hknown : ∀ p s, .tracked p s ∈ l' → .tracked p s ∈ l) :
    Balanced P l' { r with driverReadyWaitReply := cap } := by
  refine ⟨h.bump, fun s hs => ?_, fun p hp s hs => h.known p hp s (hknown p s hs), h.owns⟩
  have honce := h.once s hs
  have hle := hcap s hs
  simp only [Root.inUse] at honce ⊢
  omega

/-- A block that is taken apart: what it answered for comes into hand. -/
theorem erase (h : Balanced P l r) (hp : p ∈ P) :
    Balanced (P.erase p) ((r.pcbs p).held.map .slot ++ l) r where
  bump := h.bump
  once s hs := by
    have honce := h.once s hs
    rw [Root.inUse, ← Finset.add_sum_erase P _ hp] at honce
    rw [Root.inUse, List.count_append, count_slots]
    omega
  known q hq s hs := h.known q (Finset.mem_of_mem_erase hq) s
    ((List.mem_append.mp hs).resolve_left (tracked_notMem_slots _ _ _))
  owns q hq := h.owns q (Finset.mem_of_mem_erase hq)

/-- A block counts again, with what it answers for now. -/
theorem readmit (h : Balanced (P.erase p) ((r.pcbs p).held.map .slot ++ l) r) (hp : p ∈ P)
    (hknown : ∀ s, .tracked p s ∉ l) (howns : (r.pcbs p).active = true → (r.pcbs p).Owns) :
    Balanced P l r where
  bump := h.bump
  once s hs := by
    have honce := h.once s hs
    rw [Root.inUse, List.count_append, count_slots] at honce
    rw [Root.inUse, ← Finset.add_sum_erase P _ hp]
    omega
  known q hq s hs := by
    by_cases hqp : q = p
    · exact absurd (hqp ▸ hs) (hknown s)
    · exact h.known q (Finset.mem_erase.mpr ⟨hqp, hq⟩) s (List.mem_append_right _ hs)
  owns q hq hactive := by
    by_cases hqp : q = p
    · exact hqp ▸ howns (hqp ▸ hactive)
    · exact h.owns q (Finset.mem_erase.mpr ⟨hqp, hq⟩) hactive

end Balanced

/-- The part of the program finds its slots in their places and leaves them there, whatever its
caller has in hand. -/
abbrev Neutral {α : Type} (P : Finset ℕ) (m : RootM K α) : Prop :=
  Custody (Balanced P) [] m fun _ => []

/-- The block answers for the same slots. -/
structure Pcb.Alike (x y : Pcb) : Prop where
  active : y.active = x.active
  tracked : y.capTracker = x.capTracker
  held : y.held = x.held

namespace Neutral

/-! ## Primitive steps -/

/-- The kernel moves no slot of the books. -/
theorem sys (inv : Invocation) : Neutral P (Rootserver.sys sel4 inv) := by
  intro _ r hr _ t hrun
  cases hrun
  exact hr.congr rfl rfl rfl rfl

/-- The slot that is handed out is in hand. -/
theorem allocSlot :
    Custody (Balanced P) [] (Rootserver.allocSlot : RootM K ℕ) fun cap => [.slot cap] := by
  intro _ r hr _ t hrun
  cases hrun
  exact hr.allocSlot

/-- A slot in hand goes back to the pool. -/
theorem freeSlot (slot : ℕ) :
    Custody (Balanced P) [.slot slot] (Rootserver.freeSlot slot : RootM K PUnit) fun _ => [] :=
  fun _ _ hr => .modify hr.free

/-- A block takes what is in hand, and may name what it is known to track. -/
theorem setPcb (p : ℕ) {f : Pcb → Pcb}
    (hcount : ∀ x, ∀ s ≠ 0, (f x).held.count s ≤ x.held.count s + l.count (.slot s))
    (hsub : ∀ x, x.capTracker ⊆ (f x).capTracker)
    (howns : ∀ x, (∀ s, .tracked p s ∈ l → s ∈ x.capTracker) → (x.active = true → x.Owns) →
      (f x).active = true → (f x).Owns) :
    Custody (Balanced P) l (Rootserver.setPcb p f : RootM K PUnit) fun _ => [] := by
  refine fun rest r hr => .modify (hr.setPcb (fun s hs => ?_) ?_ fun hp => ?_)
  · have hle := hcount (r.pcbs p) s hs
    rw [List.count_append, List.count_append, List.count_nil]
    split_ifs <;> omega
  · exact (hr.drop (List.sublist_append_right _ _)).known_setPcb fun _ => hsub _
  · exact howns _ (fun s hs => hr.known p hp s (List.mem_append_left _ hs)) (hr.owns p hp)

/-- A block names slots that it is known to track. -/
theorem name (p : ℕ) {f : Pcb → Pcb} (hf : ∀ x : Pcb, x.Alike (f x))
    (hnames : ∀ x, ∀ s ∈ (f x).names, s ∈ x.names ∨ .tracked p s ∈ l) :
    Custody (Balanced P) l (Rootserver.setPcb p f : RootM K PUnit) fun _ => [] := by
  refine setPcb p (fun x s _ => ?_) (fun x => (hf x).tracked ▸ List.Subset.refl _)
    fun x hknown howns hactive => ?_
  · rw [(hf x).held]
    exact Nat.le_add_right _ _
  · rw [(hf x).active] at hactive
    refine (howns hactive).extend ((hf x).tracked ▸ List.Subset.refl _) fun s hs _ => ?_
    exact (hnames x s hs).imp id fun h => (hf x).tracked ▸ hknown s h

/-- What a block answers for and names stays the same. -/
theorem note (p : ℕ) {f : Pcb → Pcb} (hf : ∀ x : Pcb, x.Alike (f x))
    (hnames : ∀ x, (f x).names = x.names) :
    Neutral P (Rootserver.setPcb p f : RootM K PUnit) :=
  name p hf fun x _ hs => .inl (hnames x ▸ hs)

/-- A block that does not count. -/
theorem apart (hp : p ∉ P) (f : Pcb → Pcb) :
    Neutral P (Rootserver.setPcb p f : RootM K PUnit) := by
  refine fun rest r hr => .modify (hr.setPcb (fun s _ => ?_) ?_ fun h => absurd h hp)
  · rw [if_neg hp, if_neg hp]
  · exact hr.known_setPcb fun h => absurd h hp

/-- A pipe takes what is in hand. -/
theorem setPipe (i : ℕ) {f : Pipe → Pipe} (hf : ∀ x : Pipe, ∀ s ≠ 0,
    [(f x).readerReplyCap].count s ≤ [x.readerReplyCap].count s + l.count (.slot s)) :
    Custody (Balanced P) l (Rootserver.setPipe i f : RootM K PUnit) fun _ => [] := by
  refine fun rest r hr => .modify (hr.setPipe (fun s hs => ?_) fun _ _ => List.mem_append_right _)
  have hle := hf (r.pipes i) s hs
  rw [List.count_append, List.count_append, List.count_nil]
  split_ifs <;> omega

/-- The reader of a pipe stays the same. -/
theorem mark (i : ℕ) {f : Pipe → Pipe} (hf : ∀ x : Pipe, (f x).readerReplyCap = x.readerReplyCap) :
    Neutral P (Rootserver.setPipe i f : RootM K PUnit) :=
  setPipe i fun x s _ => by rw [hf]; exact Nat.le_add_right _ _

/-- A window of the rootserver moves. -/
theorem window {g : Root K → Root K} (halloc : ∀ r, (g r).alloc = r.alloc)
    (hpcbs : ∀ r, (g r).pcbs = r.pcbs) (hpipes : ∀ r, (g r).pipes = r.pipes)
    (hwait : ∀ r, (g r).driverReadyWaitReply = r.driverReadyWaitReply) :
    Neutral P (modify g : RootM K PUnit) :=
  fun _ r hr => .modify (hr.congr (halloc r) (hpcbs r) (hpipes r) (hwait r))

/-- A failed call ends the handler. -/
theorem checkErr (err : SeL4Error) : Neutral P (Rootserver.checkErr err : RootM K PUnit) :=
  .ite (fun _ => .pure _) fun _ => .throw

/-- An answer moves no slot. -/
theorem reply (mrs : List ℤ) : Neutral P (Rootserver.reply sel4 mrs) :=
  .seq (sys _) fun _ => .pure _

/-- Nor does an answer through a saved capability: its slot is still in its field. -/
theorem answer (cap : ℕ) (mrs : List ℤ) : Neutral P (Rootserver.answer sel4 boot cap mrs) :=
  .seq (sys _) fun _ => .seq (sys _) fun _ => .pure _

/-- What is in hand may be forgotten. -/
theorem forget {α : Type} {m : RootM K α} {l₂ : α → List Token} (h : Custody (Balanced P) l m l₂)
    (l₃ : α → List Token) (hl : ∀ a, (l₃ a).Sublist (l₂ a)) : Custody (Balanced P) l m l₃ :=
  fun rest r hr => (h rest r hr).mono fun a _ ht => ht.drop ((hl a).append_right _)

/-- The slot is tracked, so it is in hand no more. -/
theorem allocKnown (pid : ℕ) : Custody (Balanced P) []
    (Rootserver.allocAndTrackCap pid : RootM K ℕ) fun cap => [.tracked pid cap] := by
  refine .bind allocSlot fun cap => .get fun r => .ite (fun _ => .throw) fun _ => ?_
  have hset : Custody (Balanced P) [.slot cap] (Rootserver.setPcb pid fun pcb =>
      { pcb with capTracker := pcb.capTracker ++ [cap] } : RootM K PUnit)
      fun _ => [.tracked pid cap] := by
    refine fun rest r hr => .modify (hr.setPcb (fun s _ => ?_) (fun q hq s hs => ?_) fun hp h => ?_)
    · have hle := Pcb.count_track (r.pcbs pid) cap s
      have hnone : [Token.tracked pid cap].count (.slot s) = 0 := by simp
      rw [List.count_append, List.count_append, hnone, count_slot]
      split_ifs <;> omega
    · rcases List.mem_cons.mp hs with heq | hs
      · obtain ⟨rfl, rfl⟩ := Token.tracked.inj heq
        rw [Root.setPcb_self]
        exact List.mem_append_right _ (List.mem_singleton_self _)
      · refine (hr.drop (List.sublist_cons_self _ _)).known_setPcb (fun _ => ?_) q hq s hs
        exact List.subset_append_left _ _
    · exact (hr.owns pid hp h).extend (List.subset_append_left _ _) fun s hs _ => .inl hs
  exact .bind hset fun _ => .value rfl

/-- The slot that is handed out goes to the tracker of the process. -/
theorem allocAndTrackCap (pid : ℕ) : Neutral P (Rootserver.allocAndTrackCap pid : RootM K ℕ) :=
  forget (allocKnown pid) _ fun _ => List.nil_sublist _

/-- A slot in hand is emptied and returned. -/
theorem releaseCap (cap : ℕ) :
    Custody (Balanced P) [.slot cap] (Rootserver.releaseCap sel4 boot cap) fun _ => [] :=
  .seq (sys _) fun _ => .seq (sys _) fun _ => freeSlot cap

/-- So is the slot of a copy that was made. -/
theorem dropCopy (cap : ℕ) :
    Custody (Balanced P) [.slot cap] (Rootserver.dropCopy sel4 boot cap) fun _ => [] :=
  .ite (fun _ => .seq (sys _) fun _ => freeSlot cap) fun _ =>
    forget (.pure _) _ fun _ => List.nil_sublist _

/-- Stopping a thread moves no slot. -/
theorem stopThread (pcb : Pcb) : Neutral P (Rootserver.stopThread sel4 pcb) :=
  .seq (sys _) fun _ => .onlyIf fun _ => .seq (sys _) fun _ => .pure _

/-! ## Starting a process -/

/-- The object of a page table is tracked. -/
theorem addTable (pid : ℕ) (type : ObjectType) (map : ℕ → Invocation) :
    Neutral P (Rootserver.addTable sel4 pid type map) := by
  refine .seq (allocAndTrackCap pid) fun _ => .seq (sys _) fun _ => .onlyIf fun _ => ?_
  exact .seq (sys _) fun _ => .pure _

/-- So are all tables that a mapping needs. -/
theorem mapFrameRobust (pid frame vspace vaddr : ℕ) :
    Neutral P (Rootserver.mapFrameRobust sel4 pid frame vspace vaddr) := by
  refine .seq (sys _) fun _ => .ite (fun _ => ?_) fun _ => .pure _
  refine .seq ?_ fun _ => .pure _
  iterate 3 refine .seq (addTable _ _ _) fun _ => ?_
  exact sys _

/-- A request to the block driver moves no slot. -/
theorem readRequest (name : CString) (offset : ℕ) :
    Neutral P (Rootserver.readRequest sel4 name offset) := by
  intro rest r hr a t hrun
  rw [run_readRequest] at hrun
  cases hcall : sel4.callBlk r.kernel name offset with
  | none => rw [hcall] at hrun; cases hrun
  | some p => rw [hcall] at hrun; cases hrun; exact hr.congr rfl rfl rfl rfl

/-- Nor does the loop of requests. -/
theorem loadLoop (name : CString) (fuel : ℕ) (loaded : List ℕ) :
    Neutral P (Rootserver.loadLoop sel4 name fuel loaded) := by
  induction fuel generalizing loaded with
  | zero => exact .throw
  | succ fuel ih =>
    refine .seq (readRequest _ _) fun a => .ite (fun _ => .pure _) fun _ => ?_
    exact .ite (fun _ => .pure _) fun _ => .ite (fun _ => .throw) fun _ => ih _

/-- A copy for the child lies in the child's CNode. -/
theorem giveCap (cnode slot cap : ℕ) (badge : Option ℕ) :
    Neutral P (Rootserver.giveCap sel4 boot cnode slot cap badge) := by
  refine .ite (fun _ => .pure _) fun _ => ?_
  cases badge with
  | none => exact .seq (sys _) fun _ => checkErr _
  | some badge => exact .seq (sys _) fun _ => checkErr _

/-- The CNode and the endpoint of a child are tracked, and its block names them. -/
theorem spawnCSpace (pid : ℕ) (role : Role) :
    Neutral P (Rootserver.spawnCSpace sel4 boot pid role) := by
  refine .next (allocKnown pid) fun childCNode => .seq (sys _) fun _ => ?_
  refine .next (allocKnown pid) fun badgedEp => .seq (sys _) fun _ => .seq ?_ fun _ => ?_
  · iterate 6 refine .seq (giveCap _ _ _ _) fun _ => ?_
    exact giveCap _ _ _ _
  · refine name pid (fun _ => ⟨rfl, rfl, rfl⟩) fun x s hs => ?_
    rcases Pcb.mem_names.mp hs with h | rfl | h | ⟨hx, h | rfl⟩
    · exact .inl (Pcb.mem_names.mpr (.inl h))
    · exact .inr (by simp)
    · exact .inl (Pcb.mem_names.mpr (.inr (.inr (.inl h))))
    · exact .inl (Pcb.mem_names.mpr (.inr (.inr (.inr ⟨hx, .inl h⟩))))
    · exact .inr (by simp)

/-- The address space of a child is tracked and handed on. -/
theorem spawnVSpace (pid : ℕ) : Custody (Balanced P) [] (Rootserver.spawnVSpace sel4 pid)
    fun childVspace => [.tracked pid childVspace] := by
  refine .bind (allocKnown pid) fun childVspace => ?_
  iterate 4 refine .seq (allocAndTrackCap pid) fun _ => ?_
  iterate 10 refine .seq (sys _) fun _ => ?_
  exact .seq (note pid (fun _ => ⟨rfl, rfl, rfl⟩) fun _ => rfl) fun _ => .value rfl

/-- The frames of the segments are tracked. -/
theorem spawnSegments (pid childVspace : ℕ) (elf : Elf) :
    Neutral P (Rootserver.spawnSegments sel4 boot pid childVspace elf) := by
  refine .get fun r => .seq ?_ fun _ => .forM fun h _ => .forM fun page _ => ?_
  · exact window (fun _ => rfl) (fun _ => rfl) (fun _ => rfl) fun _ => rfl
  · refine .seq (allocAndTrackCap pid) fun frame => ?_
    iterate 5 refine .seq (sys _) fun _ => ?_
    exact .pure _

/-- So are the copies of device frames. -/
theorem spawnDevice (pid childVspace vaddr : ℕ) (role : Role) :
    Neutral P (Rootserver.spawnDevice sel4 boot pid childVspace vaddr role) := by
  iterate 3 refine .seq (allocAndTrackCap pid) fun _ => ?_
  iterate 3 refine .seq (sys _) fun _ => .seq (checkErr _) fun _ => ?_
  iterate 3 refine .seq (sys _) fun _ => ?_
  refine .forM fun i _ => .seq (allocAndTrackCap pid) fun _ => ?_
  exact .seq (sys _) fun _ => .seq (checkErr _) fun _ => .seq (sys _) fun _ => checkErr _

/-- The thread of a child is tracked, and its block names it with the address space. -/
theorem spawnThread (pid childVspace devVaddr : ℕ) (role : Role) (entry : ℕ) :
    Custody (Balanced P) [.tracked pid childVspace]
      (Rootserver.spawnThread sel4 boot pid childVspace devVaddr role entry) fun _ => [] := by
  iterate 2 refine .seq (allocAndTrackCap pid) fun _ => ?_
  iterate 2 refine .seq (sys _) fun _ => ?_
  refine .get fun r => .seq ?_ fun _ => .seq (sys _) fun _ => ?_
  · exact window (fun _ => rfl) (fun _ => rfl) (fun _ => rfl) fun _ => rfl
  refine .seq (checkErr _) fun _ => .seq (.onlyIf fun _ => spawnDevice _ _ _ _) fun _ => ?_
  refine .seq (sys _) fun _ => ?_
  iterate 3 refine .seq (sys _) fun _ => .seq (checkErr _) fun _ => ?_
  refine .next (allocKnown pid) fun tcb => ?_
  refine .bind (name pid (fun _ => ⟨rfl, rfl, rfl⟩) ?_) fun _ => ?_
  · intro x s hs
    rcases Pcb.mem_names.mp hs with rfl | h | h | ⟨hx, rfl | h⟩
    · exact .inr (by simp)
    · exact .inl (Pcb.mem_names.mpr (.inr (.inl h)))
    · exact .inl (Pcb.mem_names.mpr (.inr (.inr (.inl h))))
    · exact .inr (by simp)
    · exact .inl (Pcb.mem_names.mpr (.inr (.inr (.inr ⟨hx, .inr h⟩))))
  refine .seq (sys _) fun _ => .get fun _ => ?_
  iterate 4 refine .seq (sys _) fun _ => ?_
  refine .seq (.onlyIf fun _ => .seq (sys _) fun _ => checkErr _) fun _ => ?_
  exact .seq (sys _) fun _ => .pure _

/-- So a spawn ends with all that it took in the tracker. -/
theorem spawnBody (pid : ℕ) (image : List ℕ) (role : Role) :
    Neutral P (Rootserver.spawnBody sel4 boot pid image role) := by
  refine .seq (spawnCSpace _ _) fun _ => .bind (spawnVSpace pid) fun childVspace => ?_
  exact .seq (spawnSegments _ _ _) fun _ => spawnThread _ _ _ _ _

end Neutral

namespace Balanced

/-- A block is set up for a new process, with nothing in hand. -/
theorem renew (h : Balanced P [] r) {x : Pcb} (hheld : ∀ s ≠ 0, x.held.count s = 0) (howns : x.Owns)
    (p : ℕ) : Balanced P [] (r.setPcb p fun _ => x) := by
  refine h.setPcb (fun s hs => ?_) (fun _ _ _ hs => absurd hs List.not_mem_nil) fun _ _ => howns
  rw [hheld s hs, ite_self]
  omega

/-- A spawn keeps the balance, whether it starts a process or not. -/
theorem spawnProcess (h : Balanced P [] r) (name : CString) (data : Option (List ℕ)) (role : Role) :
    Ends (Rootserver.spawnProcess sel4 boot name data role) r fun _ t => Balanced P [] t := by
  unfold Rootserver.spawnProcess
  cases data.orElse fun _ => boot.cpioGetFile name with
  | none => exact .pure h
  | some image =>
    refine .bind (.get ?_)
    cases r.freePid with
    | none => exact .pure h
    | some pid =>
      have hfresh : Balanced P [] (r.setPcb pid fun _ => Pcb.fresh name) :=
        h.renew (fun _ => Pcb.count_fresh name) (Pcb.owns_fresh name) pid
      refine .bind (.modify ?_)
      exact .seq (Neutral.spawnBody pid image role [] _ hfresh) fun _ t ht => .pure ht

end Balanced

end PsychWard.Rootserver
