import PsychWard.Fat32.RoundTrip
import PsychWard.Fat32.Scanners

/-!
# Names that share a short name

The operations that create an entry keep only the 8.3 form of its name, and a lookup folds the name
it is given in the same way. Two names with the same 8.3 form are therefore told apart only by what
stands in the directory before the new entry: `apart_iff` says exactly when a second name leads to
the entry that was created for the first one.
-/

namespace PsychWard.Fat32

namespace Volume

variable {v v' : Volume} {step : LfnBuf → Entry → LfnBuf} {target : CString}
  {A B : List DirCursor} {q : DirCursor}

/-- A scanner goes through the slots in front first. -/
theorem firstCarrier_append_or (hA : ∀ a ∈ A, v.entry a 0 ≠ 0) (buf : LfnBuf) :
    v.firstCarrier step target buf (A ++ B) = (v.firstCarrier step target buf A).or
      (v.firstCarrier step target (A.foldl (fun buf p => step buf (v.entry p)) buf) B) := by
  induction A generalizing buf with
  | nil => rfl
  | cons a A ih =>
    rw [List.cons_append, firstCarrier, firstCarrier, if_neg (hA a List.mem_cons_self),
      if_neg (hA a List.mem_cons_self)]
    split
    · rfl
    · exact ih (fun b hb => hA b (List.mem_cons_of_mem a hb)) _

theorem firstCarrier_congr (h : ∀ a ∈ A, v'.entry a = v.entry a) (buf : LfnBuf) :
    v'.firstCarrier step target buf A = v.firstCarrier step target buf A := by
  induction A generalizing buf with
  | nil => rfl
  | cons a A ih =>
    rw [firstCarrier, firstCarrier, h a List.mem_cons_self]
    rw [ih fun b hb => h b (List.mem_cons_of_mem a hb)]

theorem bufferAfter_congr (h : ∀ a ∈ A, v'.entry a = v.entry a) :
    v'.bufferAfter step A = v.bufferAfter step A := by
  induction A using List.reverseRecOn with
  | nil => rfl
  | append_singleton A a ih =>
    rw [bufferAfter_snoc, bufferAfter_snoc, h a (by simp), ih fun b hb => h b (by simp [hb])]

/-- The part of a directory in front of its first free slot. -/
def inFront (v : Volume) (l : List ℕ) : List DirCursor :=
  (v.walked l).takeWhile fun p => decide ¬ (v.entry p).IsFree

/-- A search finds the name in front of the first free slot. -/
def FoundInFront (v : Volume) (l : List ℕ) (name : CString) : Prop :=
  (v.firstCarrier lfnStep name .clear (v.inFront l)).isSome

/-- The number of slots that the format allows a directory. -/
def maxDirSlots : ℕ := 65536

/-- A directory of the largest size has no free slot. -/
def Full (v : Volume) (l : List ℕ) : Prop :=
  (∀ p ∈ v.walked l, ¬ (v.entry p).IsFree) ∧ l.length = walkLimit

/-- The walks of the code reach the end of a directory of at most the largest size. -/
theorem length_le_walkLimit {l : List ℕ} (hspc : 0 < v.sectorsPerCluster)
    (hsize : (v.slots l).length ≤ maxDirSlots) : l.length ≤ walkLimit := by
  have hmul : 16 * l.length ≤ (v.slots l).length := by
    induction l with
    | nil => exact Nat.le_refl 0
    | cons c l ih =>
      have h16 := Geometry.sixteen_le_slots hspc c
      rw [← List.singleton_append, slots_append, List.length_append] at hsize ⊢
      have := ih (by omega)
      simp only [List.length_append, List.length_singleton]
      omega
  rw [maxDirSlots] at hsize
  rw [walkLimit]
  omega

theorem inFront_eq_of_free {l : List ℕ} (hw : v.walked l = A ++ q :: B)
    (hA : ∀ a ∈ A, ¬ (v.entry a).IsFree) (hq : (v.entry q).IsFree) : v.inFront l = A := by
  rw [inFront, hw, List.takeWhile_append_of_pos fun a ha => decide_eq_true (hA a ha),
    List.takeWhile_cons_of_neg (by simpa using hq), List.append_nil]

theorem inFront_eq_walked {l : List ℕ} (h : ∀ p ∈ v.walked l, ¬ (v.entry p).IsFree) :
    v.inFront l = v.walked l :=
  List.takeWhile_eq_self_iff.mpr fun p hp => decide_eq_true (h p hp)

/-- `v'` is `v` with an entry of the short name `short` in the slot `q` of the directory `l`. -/
structure EntryStored (v v' : Volume) (c : ℕ) (l : List ℕ) (q : DirCursor) (short : List UInt8) :
    Prop where
  chain : v'.forest.Chain c l
  entry_eq : ∀ s ∈ v.slots l, s ≠ q → v'.entry s = v.entry s
  attr : (v'.entry q).attr ≠ 0x0F ∧ (v'.entry q).attr &&& 0x08 = 0
  name : (v'.entry q).name = short

theorem EntryStored.zero {c : ℕ} {l : List ℕ} {short : List UInt8}
    (h : EntryStored v v' c l q short) : v'.entry q 0 = short.getD 0 0 := by
  rw [← h.name, Entry.name_eq]
  rfl

end Volume

open Volume

/-! ## Short names -/

/-- An entry with the short form of one name carries another name exactly if that has the same
short form. -/
theorem entryMatches_clear_iff {e : Entry} {a b : CString} (he : e.name = formatFat32Name a)
    (ha : 0 ∉ a) (hb : 0 ∉ b) :
    entryMatches .clear e b = true ↔ formatFat32Name b = formatFat32Name a := by
  have hstr : cString (formatFat32Name a) = formatFat32Name a := by
    refine List.takeWhile_eq_self_iff.mpr fun x hx => ?_
    have hx0 : x ≠ 0 := fun h => zero_notMem_formatFat32Name ha (h ▸ hx)
    simpa using hx0
  rw [entryMatches, if_neg (by simp [LfnBuf.clear]), he, hstr, decide_eq_true_eq,
    myStrcmp_eq_zero (zero_notMem_formatFat32Name ha) (zero_notMem_formatFat32Name hb)]
  exact eq_comm

/-- The entry stored for a printable name names a file or a directory. -/
theorem Volume.EntryStored.named {v v' : Volume} {c : ℕ} {l : List ℕ} {q : DirCursor}
    {name : CString} (h : EntryStored v v' c l q (formatFat32Name name))
    (hprint : ∀ x ∈ name, 32 ≤ x ∧ x ≤ 126) : (v'.entry q).IsNamed := by
  have h0 : 0 ∉ name := fun h => absurd (hprint 0 h).1 (by decide)
  have hdel : deleted ∉ name := fun h => absurd (hprint deleted h).2 (by decide)
  refine ⟨?_, h.attr⟩
  rw [Entry.IsFree, h.zero]
  rintro (hz | hd)
  · exact formatFat32Name_ne_zero h0 hz
  · exact formatFat32Name_ne_deleted h0 hdel hd

/-! ## The operations that create an entry -/

/-- `touch`, `mkdir`, and `echo` into a file that does not exist. -/
inductive Creation
  | create | mkdir | write (text : List UInt8)

def Creation.run (fs : Fat32Instance) (d : Disk) (path : CString) : Creation → Bool × Disk
  | .create => fat32CreateFile fs d path
  | .mkdir => fat32Mkdir fs d path
  | .write text => fat32WriteFile fs d path text

/-- The second name does not lead to the entry of the first. -/
def Apart (fs : Fat32Instance) (d : Disk) (p : ℕ) (a b : CString) : Prop :=
  ¬ ∃ pos, scanTarget fs d p a = some pos ∧ scanTarget fs d p b = some pos

/-- Without a slot for the entry the operations fail. -/
theorem run_eq_false {fs : Fat32Instance} {d d₀ : Disk} {path name : CString} {p : ℕ}
    {slot : DirSlot} {op : Creation} (hres : resolveTarget fs d path = some (p, name))
    (hscan : dirScan fs d (orRoot fs p) name = some slot) (hnone : slot.found = none)
    (htake : takeSlot fs d slot = (none, d₀)) : (op.run fs d path).1 = false := by
  cases op with
  | create =>
    rw [Creation.run, fat32CreateFile, hres]
    simp only [hscan, hnone, Option.isSome_none, Bool.false_eq_true, if_false, htake]
  | mkdir =>
    rw [Creation.run, fat32Mkdir, hres]
    simp only [hscan, hnone, Option.isSome_none, Bool.false_eq_true, if_false, htake]
  | write text =>
    rw [Creation.run, fat32WriteFile, hres]
    simp only [hscan, writeSlot, hnone, htake]

namespace Geometry

variable {fs : Fat32Instance} (g : Geometry fs) {d d₀ d' : Disk} {l l' : List ℕ} {p c : ℕ}
  {path name : CString} {q : DirCursor}

include g

/-- `touch` stores the entry. -/
theorem entryStored_create (hl : (volume fs d₀).forest.Chain c l)
    (hq : q ∈ (volume fs d₀).slots l) :
    EntryStored (volume fs d₀) (volume fs (d₀.write (dirCursorSector fs q)
      (((volume fs d₀).block q).setEntry q.offsetInSector
        (shortEntry (formatFat32Name name) 0x20 0 0)))) c l q (formatFat32Name name) := by
  rw [g.volume_write_slot hl.2 hq]
  obtain ⟨hedit, hself⟩ := setEntry_edit (v := volume fs d₀) (aligned_of_slots hq)
    (shortEntry (formatFat32Name name) 0x20 0 0)
  refine ⟨hedit.chain hl, fun s hs hne => ?_, ?_, ?_⟩
  · exact hedit.entry_eq s (aligned_of_slots hs) (by simpa using hne)
  · change (((volume fs d₀).setEntry q _).entry q).attr ≠ 0x0F ∧
      (((volume fs d₀).setEntry q _).entry q).attr &&& 0x08 = 0
    rw [hself, shortEntry_attr]
    decide
  · change (((volume fs d₀).setEntry q _).entry q).name = _
    rw [hself, shortEntry_name _ _ _ _ (length_formatFat32Name name)]

omit g in
/-- `echo` stores the entry and the text. -/
theorem entryStored_write (hl : (volume fs d₀).forest.Chain c l)
    (hq : q ∈ (volume fs d₀).slots l) {text : List UInt8} {m : List ℕ} {n : ℕ} {d₁ d₂ : Disk} {r : Bool}
    (h : WriteSteps fs d₀ q (shortEntry (formatFat32Name name) 0x20 0 0) text m n d₁ d₂ r d') :
    EntryStored (volume fs d₀) (volume fs d') c l q (formatFat32Name name) := by
  refine ⟨h.chain hl, fun s hs hne => h.entry_eq hq hl hs hne, ?_, ?_⟩
  · rw [h.entry_self hl hq, Entry.attr_setClus_setSize, shortEntry_attr]
    decide
  · rw [h.entry_self hl hq, Entry.name_setClus_setSize,
      shortEntry_name _ _ _ _ (length_formatFat32Name name)]

/-- `mkdir` stores the entry and the first sector of the new directory. -/
theorem entryStored_mkdir (hl : (volume fs d₀).forest.Chain c l)
    (hq : q ∈ (volume fs d₀).slots l) {n parent : ℕ} {d₁ : Disk}
    (hal : Allocated (volume fs d₀) (volume fs d₁) [n]) (hn : n ∈ (volume fs d₀).freeClusters) :
    EntryStored (volume fs d₀) (volume fs ((d₁.write (dirCursorSector fs q)
      ((d₁.sectors (dirCursorSector fs q)).setEntry q.offsetInSector
        (shortEntry (formatFat32Name name) 0x10 n 0))).write (clusterToSector fs n)
          (newDirSector n parent))) c l q (formatFat32Name name) := by
  have hin := (mem_freeClusters.mp hn).1
  have hl₁ : (volume fs d₁).forest.Chain c l := hal.chain (by simpa using hn) hl
  have hq₁ : q ∈ (volume fs d₁).slots l := by
    rw [slots_congr hal.sectorsPerCluster]
    exact hq
  -- the new cluster is none of the directory
  have hne : ∀ s ∈ (volume fs d₀).slots l, s.cluster ≠ n := by
    rintro s hs rfl
    exact not_used_of_free hn (hl.2 _ (mem_slots.mp hs).1)
  have hout : ∀ s ∈ (volume fs d₀).slots l, ∀ w : Volume,
      (w.setData n 0 (newDirSector n parent)).entry s = w.entry s := by
    intro s hs w
    rw [Volume.entry, setData_data, if_neg (fun h => hne s hs h.1), ← Volume.entry]
  obtain ⟨hedit, hself⟩ := setEntry_edit (v := volume fs d₁) (aligned_of_slots hq₁)
    (shortEntry (formatFat32Name name) 0x10 n 0)
  rw [g.clusterToSector_eq hin, g.volume_write_data hin g.sectors_pos,
    g.volume_write_slot hl₁.2 hq₁, g.block_eq hl₁.2 hq₁]
  have hset : ((volume fs d₁).setData q.cluster q.sectorInCluster
      (((volume fs d₁).block q).setEntry q.offsetInSector
        (shortEntry (formatFat32Name name) 0x10 n 0))) =
      (volume fs d₁).setEntry q (shortEntry (formatFat32Name name) 0x10 n 0) := rfl
  rw [hset]
  refine ⟨chain_congr (hedit.chain hl₁) rfl fun _ _ => rfl, fun s hs hsq => ?_, ?_, ?_⟩
  · rw [hout s hs, hedit.entry_eq s (aligned_of_slots hs) (by simpa using hsq), Volume.entry,
      Volume.entry, hal.data_eq _ (by simpa using hne s hs)]
  · rw [hout q hq, hself, shortEntry_attr]
    decide
  · rw [hout q hq, hself, shortEntry_name _ _ _ _ (length_formatFat32Name name)]

/-- An operation that succeeds has stored the entry in the slot that it took. -/
theorem entryStored_run {A B : List DirCursor} {slot : DirSlot} {op : Creation}
    (hres : resolveTarget fs d path = some (p, name))
    (hscan : dirScan fs d (orRoot fs p) name = some slot)
    (hnone : slot.found = none)
    (htake : takeSlot fs d slot = (some (dirCursorSector fs q, q.offsetInSector), d₀))
    (hl : (volume fs d₀).forest.Chain c l') (hrun : FreeRun (volume fs d₀) l' A [q] B)
    (hok : (op.run fs d path).1 = true) :
    EntryStored (volume fs d₀) (volume fs (op.run fs d path).2) c l' q (formatFat32Name name) := by
  have hq := hrun.place.mem_slots
  cases op with
  | create =>
    have hcreate : fat32CreateFile fs d path = (true, d₀.write (dirCursorSector fs q)
        (((volume fs d₀).block q).setEntry q.offsetInSector
          (shortEntry (formatFat32Name name) 0x20 0 0))) := by
      rw [fat32CreateFile, hres]
      simp only [hscan, hnone, Option.isSome_none, Bool.false_eq_true, if_false, htake, g.read,
        g.write, g.block_eq hl.2 hq]
    rw [Creation.run, hcreate]
    exact g.entryStored_create hl hq
  | write text =>
    have hwrite : fat32WriteFile fs d path text = writeEntryAndData fs d₀ (dirCursorSector fs q)
        q.offsetInSector 0 ((volume fs d₀).block q) (shortEntry (formatFat32Name name) 0x20 0 0)
        text := by
      rw [fat32WriteFile, hres]
      simp only [hscan, writeSlot, hnone, htake, g.read, g.block_eq hl.2 hq]
    rw [Creation.run, hwrite] at hok ⊢
    obtain ⟨r, d', hrest, ⟨m, n, d₁, d₂, hst⟩ | ⟨rfl, -⟩⟩ :=
      g.writeEntryAndData_spec hl.2 hq (shortEntry (formatFat32Name name) 0x20 0 0) text
    · rw [hrest]
      exact entryStored_write hl hq hst
    · rw [hrest] at hok
      cases hok
  | mkdir =>
    obtain ⟨n, d₁, halloc, -, hsome, hfew⟩ := g.fatAllocChain_spec 1 d₀
    have hmkdir : fat32Mkdir fs d path = if n = 0 then (false, d₁) else
        (true, (d₁.write (dirCursorSector fs q) ((d₁.sectors (dirCursorSector fs q)).setEntry
          q.offsetInSector (shortEntry (formatFat32Name name) 0x10 n 0))).write
            (clusterToSector fs n) (newDirSector n p)) := by
      rw [fat32Mkdir, hres]
      simp only [hscan, hnone, Option.isSome_none, Bool.false_eq_true, if_false, htake, halloc,
        g.read, g.write]
    rw [Creation.run, hmkdir] at hok ⊢
    by_cases hn : n = 0
    · rw [if_pos hn] at hok
      cases hok
    · rw [if_neg hn]
      rcases hfree : (volume fs d₀).freeClusters with _ | ⟨n', rest⟩
      · -- no cluster is left
        exact absurd (hfew (by simp [hfree])).1 hn
      · obtain ⟨rfl, hal⟩ := hsome (by simp [hfree])
        rw [hfree] at hal hn ⊢
        exact g.entryStored_mkdir hl hq hal (by simp [hfree])

/-- Where the new entry stands behind the used slots `A`, the names are apart exactly if their short
forms differ or the second is found in `A`. -/
theorem apart_iff_of_split {A B : List DirCursor} {a b : CString}
    (hl : (volume fs d').forest.Chain (dirHead fs p) l')
    (hw : (volume fs d').walked l' = A ++ q :: B) (hfront : (volume fs d).inFront l = A)
    (hA : ∀ s ∈ A, (volume fs d).entry s 0 ≠ 0)
    (hclear : (volume fs d).bufferAfter lfnStep A = .clear)
    (hsame : ∀ s ∈ A, (volume fs d').entry s = (volume fs d).entry s)
    (hq : ((volume fs d').entry q).IsNamed)
    (hname : ((volume fs d').entry q).name = formatFat32Name a)
    (hnone : (volume fs d).firstCarrier lfnStep a .clear A = none) (ha : 0 ∉ a) (hb : 0 ∉ b) :
    Apart fs d' p a b ↔
      formatFat32Name b ≠ formatFat32Name a ∨ (volume fs d).FoundInFront l b := by
  have hq0 : (volume fs d').entry q 0 ≠ 0 := fun h => hq.1 (.inl h)
  -- a search goes through `A` as before and meets the new entry with an empty buffer
  have hsearch : ∀ t, (volume fs d').firstCarrier lfnStep t .clear ((volume fs d').walked l') =
      ((volume fs d).firstCarrier lfnStep t .clear A).or
        (if ((volume fs d').entry q).IsNamed ∧
            entryMatches .clear ((volume fs d').entry q) t = true then some q
          else (volume fs d').firstCarrier lfnStep t (lfnStep .clear ((volume fs d').entry q)) B) := by
    intro t
    have hbuf : A.foldl (fun buf s => lfnStep buf ((volume fs d').entry s)) .clear = .clear :=
      (bufferAfter_congr hsame).trans hclear
    rw [hw, firstCarrier_append_or fun s hs => by rw [hsame s hs]; exact hA s hs,
      firstCarrier_congr hsame, hbuf, firstCarrier, if_neg hq0]
  have hnd := nodup_walked (v := volume fs d') hl.1.nodup
  rw [hw] at hnd
  have hqA : q ∉ A := fun h => (List.nodup_append.mp hnd).2.2 q h q (by simp) rfl
  have hqB : q ∉ B := (List.nodup_cons.mp (List.nodup_append.mp hnd).2.1).1
  have hfirst : scanTarget fs d' p a = some (dirCursorSector fs q, q.offsetInSector) := by
    rw [g.scanTarget_eq hl, hsearch, hnone, Option.none_or,
      if_pos ⟨hq, (entryMatches_clear_iff hname ha ha).mpr rfl⟩]
    rfl
  -- the second name leads to the entry only by way of the slot itself
  have hapart : Apart fs d' p a b ↔
      (volume fs d').firstCarrier lfnStep b .clear ((volume fs d').walked l') ≠ some q := by
    rw [Apart, not_iff_not]
    constructor
    · rintro ⟨pos, hpa, hpb⟩
      rw [hfirst] at hpa
      rw [g.scanTarget_eq hl, ← hpa] at hpb
      obtain ⟨s, hs, hpos⟩ := Option.map_eq_some_iff.mp hpb
      rw [hs, g.slot_inj hl (mem_of_firstCarrier hs) (by rw [hw]; simp) hpos]
    · intro hfound
      exact ⟨_, hfirst, by rw [g.scanTarget_eq hl, hfound]; rfl⟩
  rw [hapart, hsearch, FoundInFront, hfront]
  cases hfa : (volume fs d).firstCarrier lfnStep b .clear A with
  | some s =>
    have hs : s ≠ q := fun h => hqA (h ▸ mem_of_firstCarrier hfa)
    simp [hs]
  | none =>
    rw [Option.none_or]
    by_cases hshort : formatFat32Name b = formatFat32Name a
    · rw [if_pos ⟨hq, (entryMatches_clear_iff hname ha hb).mpr hshort⟩]
      simp [hshort]
    · have hno : ¬ (((volume fs d').entry q).IsNamed ∧
          entryMatches .clear ((volume fs d').entry q) b = true) := fun h =>
        hshort ((entryMatches_clear_iff hname ha hb).mp h.2)
      rw [if_neg hno]
      exact iff_of_true (fun h => hqB (mem_of_firstCarrier h)) (.inl hshort)

/-- In a directory that is in order, the operation that creates an entry for the first name makes the
second name lead to it exactly if the two have the same short form, the second is not found in front
of the first free slot, and the directory can still grow. -/
theorem apart_iff {op : Creation} {a b : CString}
    (hl : (volume fs d).forest.Chain (dirHead fs p) l) (hok : (volume fs d).SlotsOk l)
    (hsize : ((volume fs d).slots l).length ≤ maxDirSlots)
    (hres : resolveTarget fs d path = some (p, a)) (hprint : ∀ x ∈ a, 32 ≤ x ∧ x ≤ 126)
    (hb : 0 ∉ b) (hnone : scanTarget fs d p a = none) (hrun : (op.run fs d path).1 = true) :
    Apart fs (op.run fs d path).2 p a b ↔ formatFat32Name b ≠ formatFat32Name a ∨
      (volume fs d).FoundInFront l b ∨ (volume fs d).Full l := by
  have ha : 0 ∉ a := fun h => absurd (hprint 0 h).1 (by decide)
  have hlen := length_le_walkLimit (v := volume fs d) g.sectors_pos hsize
  have hfirst : (volume fs d).firstCarrier lfnStep a .clear ((volume fs d).walked l) = none := by
    rw [g.scanTarget_eq hl] at hnone
    exact Option.map_eq_none_iff.mp hnone
  obtain ⟨slot, hscan, hr⟩ := g.dirScan_spec rfl hl a
  have hfound : slot.found = none := by
    rw [scanTarget, lookup, hscan] at hnone
    exact Option.map_eq_none_iff.mp hnone
  have hsafe : (volume fs d).SlotSafe l := by
    refine ⟨fun A q B hs _ h0 s hs' => ?_, fun _ => hlen⟩
    rw [hok.zero A q B hs h0 s (List.mem_of_mem_head? hs')]
    rfl
  obtain ⟨r, d₀, htake, -, ⟨rfl, -⟩ | ⟨A, q, B, l', rfl, hfree, hA, hcase⟩⟩ :=
    g.takeSlot_spec hl hr hfound hsafe
  · rw [run_eq_false hres hscan hfound htake] at hrun
    cases hrun
  have hl₀ : (volume fs d₀).forest.Chain (dirHead fs p) l' := by
    rcases hcase with ⟨rfl, rfl, -⟩ | ⟨x, hgr, rfl, -⟩
    · exact hl
    · exact hgr.chain hl
  have hst := g.entryStored_run hres hscan hfound htake hl₀ hfree hrun
  set d' := (op.run fs d path).2
  have hmem : ∀ s ∈ A, s ∈ (volume fs d₀).slots l' := fun s hs => by
    rw [hfree.slots_eq]
    exact List.mem_append_left _ hs
  have hneq : ∀ s ∈ A, s ≠ q := by
    rintro s hs rfl
    have hslots := (volume fs d₀).nodup_slots hl₀.1.nodup
    rw [hfree.slots_eq] at hslots
    exact (List.nodup_append.mp hslots).2.2 s hs s (by simp) rfl
  have hkept : ∀ s ∈ A, (volume fs d').entry s = (volume fs d₀).entry s := fun s hs =>
    hst.entry_eq s (hmem s hs) (hneq s hs)
  have hwalked : (volume fs d').walked l' = (volume fs d₀).walked l' := by
    rw [walked, walked, slots_disk d₀]
  have hA0 : ∀ s ∈ A, (volume fs d₀).entry s 0 ≠ 0 := hfree.before
  rcases hcase with ⟨rfl, rfl, hq⟩ | ⟨x, hgr, rfl, -, rfl, hnofree⟩
  · -- a slot of the directory was free
    have hqfree : ((volume fs d₀).entry q).IsFree := by
      rcases hfree.free [] q [] rfl with hdel | ⟨e, he, h0⟩
      · exact .inr hdel
      · rw [List.mem_singleton.mp he] at h0
        exact .inl h0
    obtain ⟨B', hw⟩ := walked_of_mem hl.1.nodup hfree.slots_eq hq
    have hclear : (volume fs d₀).lfnAfter A = .clear := by
      refine hok.lfn A (q :: B) hfree.slots_eq hA0 fun s hs => ?_
      obtain rfl := Option.some.inj hs
      exact hqfree
    have hbefore : (volume fs d₀).firstCarrier lfnStep a .clear A = none := by
      rw [hw, firstCarrier_append_or hA0, Option.or_eq_none_iff] at hfirst
      exact hfirst.1
    have hnot : ¬ (volume fs d₀).Full l' := fun hfull => hfull.1 q hq hqfree
    rw [g.apart_iff_of_split hst.chain (hwalked.trans hw) (inFront_eq_of_free hw hA hqfree) hA0
      hclear hkept (hst.named hprint) hst.name hbefore ha hb]
    simp only [hnot, or_false]
  · have hall := firstFree_eq_none.mp hnofree
    have hback : ∀ s ∈ (volume fs d).slots l,
        (volume fs d').entry s = (volume fs d).entry s := fun s hs =>
      (hkept s hs).trans (hgr.entry_eq fun h => hgr.ne_of_used (hl.2 _ (mem_slots.mp hs).1) h)
    rcases hlen.lt_or_eq with hlt | heq
    · -- the directory has grown and is walked to its end
      have hwl : (volume fs d).walked l = (volume fs d).slots l := by
        rw [walked, List.take_of_length_le hlen]
      have hw : (volume fs d').walked (l ++ [x]) = (volume fs d).slots l ++ q :: B := by
        have hlen' : (l ++ [x]).length ≤ walkLimit := by
          rw [List.length_append, List.length_singleton]
          exact hlt
        rw [hwalked, walked, List.take_of_length_le hlen']
        exact hfree.slots_eq
      have hclear : (volume fs d).lfnAfter ((volume fs d).slots l) = .clear :=
        hok.lfn _ [] (List.append_nil _).symm (fun s hs h0 => hall s (hwl ▸ hs) (.inl h0)) (by simp)
      have hnot : ¬ (volume fs d).Full l := fun hfull => hlt.ne hfull.2
      rw [g.apart_iff_of_split hst.chain hw ((inFront_eq_walked hall).trans hwl)
        (fun s hs h0 => hall s (hwl ▸ hs) (.inl h0)) hclear hback (hst.named hprint) hst.name
        (hwl ▸ hfirst) ha hb]
      simp only [hnot, or_false]
    · -- the new entry is out of reach
      have hw : (volume fs d').walked (l ++ [x]) = (volume fs d).walked l := by
        rw [walked_append, heq, Nat.sub_self, List.take_zero, slots, List.flatMap_nil,
          List.append_nil, walked, walked, slots_disk d]
      have hgone : scanTarget fs d' p a = none := by
        rw [g.scanTarget_eq hst.chain, hw, firstCarrier_congr fun s hs =>
          hback s (mem_slots_of_walked hs), hfirst]
        rfl
      refine iff_of_true ?_ (.inr (.inr ⟨hall, heq⟩))
      rintro ⟨pos, hpa, -⟩
      rw [hgone] at hpa
      cases hpa

end Geometry

/-! ## Two long names -/

/-- `longfilename1` and `longfilename2`. -/
def fileName1 : CString := [108, 111, 110, 103, 102, 105, 108, 101, 110, 97, 109, 101, 49]

def fileName2 : CString := [108, 111, 110, 103, 102, 105, 108, 101, 110, 97, 109, 101, 50]

/-- In an empty directory `A` and `B` are apart. -/
theorem apart_emptyVolume :
    Apart tinyFs (Creation.create.run tinyFs emptyVolume.disk [65]).2 2 [65] [66] := by
  have hchain : (volume tinyFs emptyVolume.disk).forest.Chain (dirHead tinyFs 2) [2] :=
    Volume.chain_of_chainOk (show (volume tinyFs emptyVolume.disk).ChainOk [2] by decide +kernel)
  have hzero : ∀ s ∈ (volume tinyFs emptyVolume.disk).slots [2],
      (volume tinyFs emptyVolume.disk).entry s = Entry.zero := by decide +kernel
  have hok : (volume tinyFs emptyVolume.disk).SlotsOk [2] := by
    refine Volume.slotsOk_of_used [] _ rfl (by simp) hzero fun A B hAB _ => ?_
    rw [(List.append_eq_nil_iff.mp hAB.symm).1]
    rfl
  exact Iff.mpr (tinyFs_geometry.apart_iff hchain hok (by decide +kernel) (by decide +kernel)
    (by decide +kernel) (by decide) (by decide +kernel) (by decide +kernel))
      (.inl (by decide +kernel))

/-- After `touch longfilename1` the name `longfilename2` leads to the new file. -/
theorem not_apart_fileName :
    (Creation.create.run tinyFs emptyVolume.disk fileName1).1 = true ∧
    scanTarget tinyFs emptyVolume.disk 2 fileName1 = none ∧
    fileName1.map toUpper ≠ fileName2.map toUpper ∧
    ¬ Apart tinyFs (Creation.create.run tinyFs emptyVolume.disk fileName1).2 2 fileName1
      fileName2 := by
  have h1 : scanTarget tinyFs (Creation.create.run tinyFs emptyVolume.disk fileName1).2 2
      fileName1 = some (2, 0) := by decide +kernel
  have h2 : scanTarget tinyFs (Creation.create.run tinyFs emptyVolume.disk fileName1).2 2
      fileName2 = some (2, 0) := by decide +kernel
  exact ⟨by decide +kernel, by decide +kernel, by decide +kernel, fun h => h ⟨(2, 0), h1, h2⟩⟩

end PsychWard.Fat32
