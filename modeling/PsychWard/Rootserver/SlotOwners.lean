import PsychWard.Rootserver.Allocator
import PsychWard.Common.Run
import Mathlib.Data.List.Perm.Basic
import Mathlib.Data.List.Nodup
import Mathlib.Data.List.Range

/-!
# The slots of an allocator

The users of a `PsychAllocator` take slots and give them back. At any time the slots of the empty
range are outstanding, in the pool, not yet taken from the range, or lost: a slot that comes back to
a full pool is forgotten. `account_of_run` says so for every history, and the freshness of what
`alloc_slot` returns and the number of allocations that are left follow from it.
-/

namespace PsychWard.Rootserver

namespace PsychAllocator

/-- The constructor: `emptyStart` and `emptyEnd` bound the empty slots of the boot information. -/
def new (emptyStart emptyEnd : ℕ) : PsychAllocator := ⟨emptyStart, emptyEnd, []⟩

/-- The slots that the bump pointer has not reached. Slot 0 counts as a failed allocation. -/
def unused (a : PsychAllocator) : List ℕ :=
  (List.range' a.currentSlot (a.maxSlot - a.currentSlot)).filter (· ≠ 0)

/-- What `n` allocations in a row return. -/
def allocs (a : PsychAllocator) : ℕ → List ℕ
  | 0 => []
  | n + 1 => a.allocSlot.1 :: a.allocSlot.2.allocs n

variable {a : PsychAllocator} {slot : ℕ}

/-- The pool comes first. -/
theorem allocSlot_pool {rest : List ℕ} (h : a.freeSlots = slot :: rest) :
    a.allocSlot = (slot, { a with freeSlots := rest }) := by
  rw [allocSlot, h]

/-- Then the slots that were never given out. -/
theorem allocSlot_bump (h : a.freeSlots = []) (hlt : a.currentSlot < a.maxSlot) :
    a.allocSlot = (a.currentSlot, { a with currentSlot := a.currentSlot + 1 }) := by
  rw [allocSlot, h]
  exact if_pos hlt

/-- Then there is none. -/
theorem allocSlot_empty (h : a.freeSlots = []) (hge : a.maxSlot ≤ a.currentSlot) :
    a.allocSlot = (0, a) := by
  rw [allocSlot, h]
  exact if_neg (Nat.not_lt.mpr hge)

/-- A full pool loses the slot. -/
theorem free_full (h : freePoolSize ≤ a.freeSlots.length) : a.free slot = a :=
  if_pos (.inr h)

/-- A slot that is in the pool is not put there twice. -/
theorem free_mem (h : slot ∈ a.freeSlots) : a.free slot = a := by
  rw [free, if_pos h, ite_self]

/-- Any other slot goes into the pool. -/
theorem free_new (h0 : slot ≠ 0) (h : a.freeSlots.length < freePoolSize) (hn : slot ∉ a.freeSlots) :
    a.free slot = { a with freeSlots := slot :: a.freeSlots } := by
  rw [free, if_neg (by omega), if_neg hn]

/-- The slot that is given out next is the first unused one. -/
theorem unused_of_lt (hlt : a.currentSlot < a.maxSlot) (h0 : a.currentSlot ≠ 0) :
    a.unused = a.currentSlot :: { a with currentSlot := a.currentSlot + 1 }.unused := by
  obtain ⟨k, hk⟩ := Nat.exists_eq_add_of_lt hlt
  simp only [unused, hk]
  rw [show a.currentSlot + k + 1 - a.currentSlot = k + 1 by omega,
    show a.currentSlot + k + 1 - (a.currentSlot + 1) = k by omega, List.range'_succ,
    List.filter_cons_of_pos (by simpa using h0)]

/-- Slot 0 is never given out. -/
theorem unused_of_zero (hlt : a.currentSlot < a.maxSlot) (h0 : a.currentSlot = 0) :
    a.unused = { a with currentSlot := a.currentSlot + 1 }.unused := by
  obtain ⟨k, hk⟩ := Nat.exists_eq_add_of_lt hlt
  simp only [unused, hk]
  rw [show a.currentSlot + k + 1 - a.currentSlot = k + 1 by omega,
    show a.currentSlot + k + 1 - (a.currentSlot + 1) = k by omega, List.range'_succ,
    List.filter_cons_of_neg (by simpa using h0)]

/-- The unused slots are those from the pointer on. -/
theorem unused_eq (h0 : 0 < a.currentSlot) :
    a.unused = List.range' a.currentSlot (a.maxSlot - a.currentSlot) := by
  refine List.filter_eq_self.mpr fun slot hs => ?_
  have := (List.mem_range'_1.mp hs).1
  simp
  omega

/-- As many allocations succeed as there are slots in the pool and in the rest of the range. -/
theorem countP_allocs (hpool : 0 ∉ a.freeSlots) (h0 : 0 < a.currentSlot) (n : ℕ) :
    (a.allocs n).countP (· ≠ 0) = min n (a.freeSlots.length + (a.maxSlot - a.currentSlot)) := by
  induction n generalizing a with
  | zero => simp [allocs]
  | succ n ih =>
    rw [allocs]
    rcases hf : a.freeSlots with _ | ⟨slot, rest⟩
    · rcases Nat.lt_or_ge a.currentSlot a.maxSlot with hlt | hge
      · rw [allocSlot_bump hf hlt, List.countP_cons_of_pos (by simpa using h0.ne'),
          ih (by simpa using hpool) (by simp)]
        simp only [hf, List.length_nil]
        omega
      · rw [allocSlot_empty hf hge, List.countP_cons_of_neg (by simp), ih hpool h0, hf]
        simp only [List.length_nil]
        omega
    · rw [hf, List.mem_cons, not_or] at hpool
      rw [allocSlot_pool hf, List.countP_cons_of_pos (by simpa using Ne.symm hpool.1),
        ih (a := { a with freeSlots := rest }) hpool.2 h0]
      simp only [List.length_cons]
      omega

end PsychAllocator

/-! ## Histories of allocations and frees -/

/-- An allocator with the slots its users hold and those it has forgotten. -/
structure Lending where
  alloc : PsychAllocator
  outstanding : List ℕ
  /-- the slots that came back while the pool was full -/
  lost : List ℕ

/-- A call of a user. -/
inductive SlotCall
  | alloc
  | free (slot : ℕ)

namespace Lending

/-- Nothing is lent. -/
def new (emptyStart emptyEnd : ℕ) : Lending := ⟨.new emptyStart emptyEnd, [], []⟩

/-- A call, with its effect on who holds what. -/
def call (u : Lending) : SlotCall → Lending
  | .alloc =>
    { u with
      alloc := u.alloc.allocSlot.2
      outstanding :=
        if u.alloc.allocSlot.1 = 0 then u.outstanding
        else u.alloc.allocSlot.1 :: u.outstanding }
  | .free slot =>
    { alloc := u.alloc.free slot
      outstanding := u.outstanding.erase slot
      lost :=
        if slot ∈ u.outstanding ∧ freePoolSize ≤ u.alloc.freeSlots.length then slot :: u.lost
        else u.lost }

/-- A slot that is freed is held by a user or has been freed before. -/
def MayFree (u : Lending) : SlotCall → Prop
  | .alloc => True
  | .free slot => slot ∈ u.outstanding ∨ slot ∈ u.alloc.freeSlots

/-- A slot that is freed is held by a user. -/
def Holds (u : Lending) : SlotCall → Prop
  | .alloc => True
  | .free slot => slot ∈ u.outstanding

def Step (u : Lending) (c : SlotCall) (u' : Lending) : Prop := u.call c = u'

/-- Where the slots of a lending are. -/
def slots (u : Lending) : List ℕ :=
  u.outstanding ++ (u.alloc.freeSlots ++ (u.lost ++ u.alloc.unused))

/-- Every slot of the empty range is in one place. -/
structure Account (emptyStart emptyEnd : ℕ) (u : Lending) : Prop where
  perm : u.slots.Perm (PsychAllocator.new emptyStart emptyEnd).unused
  max : u.alloc.maxSlot = emptyEnd
  current : emptyStart ≤ u.alloc.currentSlot

variable {emptyStart emptyEnd : ℕ} {u u' : Lending} {cs : List SlotCall} {slot : ℕ}

/-- At the start all slots are unused. -/
theorem account_new : Account emptyStart emptyEnd (new emptyStart emptyEnd) :=
  ⟨.refl _, rfl, le_refl _⟩

/-- Slot 0 is not in the account. -/
theorem Account.ne_zero (h : Account emptyStart emptyEnd u) (hs : slot ∈ u.slots) : slot ≠ 0 := by
  simpa using (List.mem_filter.mp (h.perm.subset hs)).2

/-- The slots are those of the start. -/
theorem Account.range (h : Account emptyStart emptyEnd u) (hs : slot ∈ u.slots) :
    emptyStart ≤ slot ∧ slot < emptyEnd := by
  obtain ⟨h1, h2⟩ := List.mem_range'_1.mp (List.mem_filter.mp (h.perm.subset hs)).1
  simp only [PsychAllocator.new] at h1 h2
  omega

/-- No slot is in two places. -/
theorem Account.nodup (h : Account emptyStart emptyEnd u) : u.slots.Nodup :=
  h.perm.nodup_iff.mpr (List.Nodup.filter _ List.nodup_range')

/-- Slot 0 is not in the pool. -/
theorem Account.zero_notMem_pool (h : Account emptyStart emptyEnd u) : 0 ∉ u.alloc.freeSlots :=
  fun hmem => h.ne_zero (List.mem_append_right _ (List.mem_append_left _ hmem)) rfl

/-- Who holds a slot may free it. -/
theorem mayFree_of_holds {c : SlotCall} (h : u.Holds c) : u.MayFree c := by
  cases c with
  | alloc => trivial
  | free slot => exact .inl h

/-- What is outstanding is in the account. -/
theorem mem_slots_outstanding (hs : slot ∈ u.outstanding) : slot ∈ u.slots :=
  List.mem_append_left _ hs

/-- What an allocation takes was in the pool or not yet used. -/
theorem slots_alloc (u : Lending) : (u.call .alloc).slots.Perm u.slots ∨ 0 ∈ u.alloc.freeSlots := by
  by_cases hpool : 0 ∈ u.alloc.freeSlots
  · exact .inr hpool
  refine .inl ?_
  rcases hf : u.alloc.freeSlots with _ | ⟨slot, rest⟩
  · rcases Nat.lt_or_ge u.alloc.currentSlot u.alloc.maxSlot with hlt | hge
    · by_cases h0 : u.alloc.currentSlot = 0
      · have hcall : u.call .alloc =
            { u with alloc := { u.alloc with currentSlot := u.alloc.currentSlot + 1 } } := by
          simp only [call, PsychAllocator.allocSlot_bump hf hlt, if_pos h0]
        rw [hcall, slots, slots, PsychAllocator.unused_of_zero hlt h0]
      · have hcall : u.call .alloc =
            { u with
              alloc := { u.alloc with currentSlot := u.alloc.currentSlot + 1 }
              outstanding := u.alloc.currentSlot :: u.outstanding } := by
          simp only [call, PsychAllocator.allocSlot_bump hf hlt, if_neg h0]
        rw [hcall, slots, slots, PsychAllocator.unused_of_lt hlt h0]
        simp only [hf, List.nil_append, List.cons_append, ← List.append_assoc]
        exact List.perm_middle.symm
    · have hcall : u.call .alloc = u := by
        simp only [call, PsychAllocator.allocSlot_empty hf hge, if_true]
      rw [hcall]
  · have h0 : slot ≠ 0 := fun h => hpool (by rw [hf, h]; exact List.mem_cons_self)
    have hcall : u.call .alloc =
        { u with
          alloc := { u.alloc with freeSlots := rest }
          outstanding := slot :: u.outstanding } := by
      simp only [call, PsychAllocator.allocSlot_pool hf, if_neg h0]
    rw [hcall, slots, slots, hf]
    exact List.perm_middle.symm

/-- What a user gives back goes to the pool or is lost. -/
theorem slots_free (h0 : slot ≠ 0) (hn : u.slots.Nodup) (hs : slot ∈ u.outstanding) :
    (u.call (.free slot)).slots.Perm u.slots := by
  have herase := List.perm_cons_erase hs
  rcases Nat.lt_or_ge u.alloc.freeSlots.length freePoolSize with hlt | hge
  · have hnot : slot ∉ u.alloc.freeSlots := fun hmem =>
      (List.nodup_append.mp hn).2.2 slot hs slot (List.mem_append_left _ hmem) rfl
    have hcall : u.call (.free slot) =
        { u with
          alloc := { u.alloc with freeSlots := slot :: u.alloc.freeSlots }
          outstanding := u.outstanding.erase slot } := by
      simp only [call, PsychAllocator.free_new h0 hlt hnot,
        if_neg fun hfull : slot ∈ u.outstanding ∧ _ => hlt.not_ge hfull.2]
    rw [hcall, slots, slots]
    exact List.perm_middle.trans (herase.symm.append_right _)
  · have hcall : u.call (.free slot) =
        { u with outstanding := u.outstanding.erase slot, lost := slot :: u.lost } := by
      simp only [call, PsychAllocator.free_full hge, if_pos (show _ ∧ _ from ⟨hs, hge⟩)]
    rw [hcall, slots, slots, ← List.append_assoc, List.cons_append]
    refine List.perm_middle.trans ?_
    rw [← List.append_assoc u.outstanding]
    exact (herase.symm.append_right _).append_right _

/-- Every call keeps the account. -/
theorem Account.call (h : Account emptyStart emptyEnd u) {c : SlotCall} (hc : u.MayFree c) :
    Account emptyStart emptyEnd (u.call c) := by
  cases c with
  | alloc =>
    refine ⟨((slots_alloc u).resolve_right h.zero_notMem_pool).trans h.perm, ?_, ?_⟩
    · rw [← h.max]
      simp only [Lending.call, PsychAllocator.allocSlot]
      split
      · rfl
      · split <;> rfl
    · refine h.current.trans ?_
      simp only [Lending.call, PsychAllocator.allocSlot]
      split
      · exact le_refl _
      · split
        · exact Nat.le_succ _
        · exact le_refl _
  | free slot =>
    have hfree : (u.alloc.free slot).maxSlot = u.alloc.maxSlot ∧
        (u.alloc.free slot).currentSlot = u.alloc.currentSlot := by
      rw [PsychAllocator.free]
      split
      · exact ⟨rfl, rfl⟩
      · split <;> exact ⟨rfl, rfl⟩
    refine ⟨?_, hfree.1.trans h.max, h.current.trans hfree.2.ge⟩
    by_cases hs : slot ∈ u.outstanding
    · exact (slots_free (h.ne_zero (mem_slots_outstanding hs)) h.nodup hs).trans h.perm
    · -- a second free changes nothing
      have hcall : u.call (.free slot) = u := by
        simp only [Lending.call, PsychAllocator.free_mem (hc.resolve_left hs),
          List.erase_of_not_mem hs,
          if_neg fun hfull : slot ∈ u.outstanding ∧ _ => hs hfull.1]
      rw [hcall]
      exact h.perm

/-- The account of a whole run. -/
theorem account_of_run (h : Run (guarded Step MayFree) (new emptyStart emptyEnd) cs u) :
    Account emptyStart emptyEnd u := by
  refine h.invariant (fun t c t' ht hstep => ?_) account_new
  obtain ⟨hc, rfl⟩ := hstep
  exact ht.call hc

/-- In every history in which a freed slot is outstanding or in the pool, the pool has no slot twice
and what `alloc_slot` returns is a slot of the empty range that nobody holds. -/
theorem fresh_of_run (h : Run (guarded Step MayFree) (new emptyStart emptyEnd) cs u) :
    u.alloc.freeSlots.Nodup ∧ u.outstanding.Nodup ∧
      (u.alloc.allocSlot.1 ≠ 0 → emptyStart ≤ u.alloc.allocSlot.1 ∧
        u.alloc.allocSlot.1 < emptyEnd ∧ u.alloc.allocSlot.1 ∉ u.outstanding) := by
  have ha := account_of_run h
  have hnext := account_of_run (h.snoc (show guarded Step MayFree u .alloc _ from ⟨trivial, rfl⟩))
  have hnd := List.nodup_append.mp ha.nodup
  refine ⟨(List.nodup_append.mp hnd.2.1).1, hnd.1, fun h0 => ?_⟩
  -- the next history holds the slot once
  have hout : (u.call .alloc).outstanding = u.alloc.allocSlot.1 :: u.outstanding := if_neg h0
  obtain ⟨h1, h2⟩ := hnext.range (mem_slots_outstanding (by rw [hout]; exact List.mem_cons_self))
  refine ⟨h1, h2, ?_⟩
  have hnd' := (List.nodup_append.mp hnext.nodup).1
  rw [hout] at hnd'
  exact (List.nodup_cons.mp hnd').1

/-- A slot is taken, given back twice and taken again. -/
theorem fresh_of_run_twice :
    (PsychAllocator.mk 6 7 [5]).freeSlots.Nodup ∧ ([] : List ℕ).Nodup ∧
      ((PsychAllocator.mk 6 7 [5]).allocSlot.1 ≠ 0 →
        5 ≤ (PsychAllocator.mk 6 7 [5]).allocSlot.1 ∧ (PsychAllocator.mk 6 7 [5]).allocSlot.1 < 7 ∧
          (PsychAllocator.mk 6 7 [5]).allocSlot.1 ∉ ([] : List ℕ)) := by
  have h1 : Run (guarded Step MayFree) (new 5 7) [.alloc] ⟨⟨6, 7, []⟩, [5], []⟩ :=
    .single ⟨trivial, rfl⟩
  have h2 : Run (guarded Step MayFree) (new 5 7) [.alloc, .free 5] ⟨⟨6, 7, [5]⟩, [], []⟩ :=
    .snoc h1 ⟨.inl (by decide), rfl⟩
  have h3 : Run (guarded Step MayFree) (new 5 7) [.alloc, .free 5, .free 5]
      ⟨⟨6, 7, [5]⟩, [], []⟩ := .snoc h2 ⟨.inr (by decide), rfl⟩
  exact fresh_of_run h3

/-- In every history in which users free what they hold, a slot of the empty range is outstanding,
in the pool, not yet used or lost; once everything has been freed, of `n` allocations as many
succeed as there are slots that are not lost. -/
theorem conserved_of_run (h0 : 0 < emptyStart)
    (h : Run (guarded Step Holds) (new emptyStart emptyEnd) cs u) :
    (∀ slot, emptyStart ≤ slot → slot < emptyEnd → slot ∈ u.outstanding ∨
      slot ∈ u.alloc.freeSlots ∨ u.alloc.currentSlot ≤ slot ∨ slot ∈ u.lost) ∧
    (u.outstanding = [] → u.lost.length ≤ emptyEnd - emptyStart ∧ ∀ n,
      (u.alloc.allocs n).countP (· ≠ 0) = min n (emptyEnd - emptyStart - u.lost.length)) := by
  have ha : Account emptyStart emptyEnd u :=
    account_of_run (h.mono fun t c t' ht => ⟨mayFree_of_holds ht.1, ht.2⟩)
  have hcur := h0.trans_le ha.current
  have hperm : u.slots.Perm (List.range' emptyStart (emptyEnd - emptyStart)) :=
    ha.perm.trans (.of_eq (PsychAllocator.unused_eq h0))
  refine ⟨fun slot h1 h2 => ?_, fun hnil => ?_⟩
  · have hmem : slot ∈ u.slots := hperm.symm.subset (List.mem_range'_1.mpr ⟨h1, by omega⟩)
    rw [slots, List.mem_append, List.mem_append, List.mem_append,
      PsychAllocator.unused_eq hcur, List.mem_range'_1] at hmem
    tauto
  · have hlen := hperm.length_eq
    rw [slots, hnil, PsychAllocator.unused_eq hcur] at hlen
    simp only [List.nil_append, List.length_append, List.length_range'] at hlen
    refine ⟨by omega, fun n => ?_⟩
    rw [PsychAllocator.countP_allocs ha.zero_notMem_pool hcur]
    congr 1
    omega

/-! ## A loss -/

/-- The pool never has more than its size. -/
theorem length_pool_of_run (h : Run (guarded Step Holds) (new emptyStart emptyEnd) cs u) :
    u.alloc.freeSlots.length ≤ freePoolSize := by
  refine h.invariant (I := fun u => u.alloc.freeSlots.length ≤ freePoolSize)
    (fun t c t' ht hstep => ?_) (Nat.zero_le _)
  obtain ⟨-, rfl⟩ := hstep
  cases c with
  | alloc =>
    simp only [Lending.call, PsychAllocator.allocSlot]
    split
    · rename_i slot rest hf
      rw [hf, List.length_cons] at ht
      exact Nat.le_of_succ_le ht
    · split <;> exact ht
  | free slot =>
    simp only [Lending.call, PsychAllocator.free]
    split
    · exact ht
    · rename_i hfull
      split
      · exact ht
      · rw [List.length_cons]
        omega

/-- As many slots as there are can be taken one after the other. -/
theorem run_allocs (h0 : 0 < emptyStart) {k : ℕ} (hk : emptyStart + k ≤ emptyEnd) :
    Run (guarded Step Holds) (new emptyStart emptyEnd) (List.replicate k .alloc)
      ⟨⟨emptyStart + k, emptyEnd, []⟩, (List.range' emptyStart k).reverse, []⟩ := by
  induction k with
  | zero => exact .nil
  | succ k ih =>
    rw [List.replicate_succ']
    refine .snoc (ih (by omega)) ⟨trivial, ?_⟩
    have hlt : emptyStart + k < emptyEnd := by omega
    have hne : emptyStart + k ≠ 0 := by omega
    simp only [Step, Lending.call, PsychAllocator.allocSlot, if_pos hlt, if_neg hne,
      List.range'_concat, List.reverse_append, Nat.one_mul]
    rfl

/-- Users can give back all they hold. -/
theorem run_frees (u : Lending) : ∃ u', Run (guarded Step Holds) u (u.outstanding.map .free) u' ∧
    u'.outstanding = [] ∧ u'.alloc.currentSlot = u.alloc.currentSlot := by
  obtain ⟨alloc, outstanding, lost⟩ := u
  induction outstanding generalizing alloc lost with
  | nil => exact ⟨_, .nil, rfl, rfl⟩
  | cons slot outstanding ih =>
    have hcall : (Lending.mk alloc (slot :: outstanding) lost).call (.free slot) =
        ⟨alloc.free slot, outstanding, if freePoolSize ≤ alloc.freeSlots.length then slot :: lost
          else lost⟩ := by
      simp [Lending.call]
    obtain ⟨u', hrun, hnil, hcur⟩ := ih (alloc.free slot) _
    refine ⟨u', .cons ⟨List.mem_cons_self, hcall⟩ hrun, hnil, hcur.trans ?_⟩
    simp only [PsychAllocator.free]
    split
    · rfl
    · split <;> rfl

/-- After 257 slots were taken and given back, at most 256 of them can be taken again. -/
theorem exists_overfull : ∃ cs u, Run (guarded Step Holds) (new 1 258) cs u ∧ u.outstanding = [] ∧
    (u.alloc.allocs 257).countP (· ≠ 0) ≤ 256 := by
  have htaken : Run (guarded Step Holds) (new 1 258) (List.replicate 257 .alloc) _ :=
    run_allocs (by decide) (by decide)
  obtain ⟨u, hfreed, hnil, hcur⟩ := run_frees ⟨⟨1 + 257, 258, []⟩, (List.range' 1 257).reverse, []⟩
  have hrun := htaken.trans hfreed
  have hcur : u.alloc.currentSlot = 258 := hcur
  have hpool := length_pool_of_run hrun
  have ha : Account 1 258 u :=
    account_of_run (hrun.mono fun t c t' ht => ⟨mayFree_of_holds ht.1, ht.2⟩)
  refine ⟨_, u, hrun, hnil, ?_⟩
  rw [PsychAllocator.countP_allocs ha.zero_notMem_pool (by omega), ha.max, hcur]
  simp only [freePoolSize] at hpool
  omega

/-- One of these slots is lost, and the others can be taken again. -/
theorem conserved_of_run_overfull : ∃ u : Lending, (u.outstanding = [] ∧ u.lost ≠ []) ∧
    (∀ slot, 1 ≤ slot → slot < 258 → slot ∈ u.outstanding ∨ slot ∈ u.alloc.freeSlots ∨
      u.alloc.currentSlot ≤ slot ∨ slot ∈ u.lost) ∧
    ∀ n, (u.alloc.allocs n).countP (· ≠ 0) = min n (258 - 1 - u.lost.length) := by
  obtain ⟨cs, u, hrun, hnil, hcount⟩ := exists_overfull
  obtain ⟨hplaces, hallocs⟩ := conserved_of_run (by decide) hrun
  have hall := (hallocs hnil).2
  refine ⟨u, ⟨hnil, fun hlost => ?_⟩, hplaces, hall⟩
  rw [hall, hlost, List.length_nil] at hcount
  omega

/-- Not all of the 257 slots can be taken again. -/
theorem not_conserved : ¬ ∀ emptyStart emptyEnd cs u, 0 < emptyStart →
    Run (guarded Step Holds) (new emptyStart emptyEnd) cs u →
    (∀ slot, emptyStart ≤ slot → slot < emptyEnd → slot ∈ u.outstanding ∨
      slot ∈ u.alloc.freeSlots ∨ u.alloc.currentSlot ≤ slot) ∧
    (u.outstanding = [] → ∀ n,
      (u.alloc.allocs n).countP (· ≠ 0) = min n (emptyEnd - emptyStart)) := by
  intro h
  obtain ⟨cs, u, hrun, hnil, hle⟩ := exists_overfull
  rw [(h 1 258 cs u (by decide) hrun).2 hnil] at hle
  omega

end Lending

end PsychWard.Rootserver
