import PsychWard.Fat32.WalkSpec

/-!
# Edits of the directory tree

The writes of the driver as edits of a volume, and what they do to the directory tree: storing a run
of entries in a directory, appending a zeroed cluster to it, allocating and clearing a chain. Each
rule keeps `Consistent`, possibly with a chain that is a root of its own until an entry names it.
-/

namespace PsychWard.Fat32

/-! ## Entries of a sector -/

namespace Block

variable (b : Block) {i j : ℕ}

/-- Storing an entry changes that entry. -/
theorem entry_setEntry_self (e : Entry) (hi : i < 16) : (b.setEntry (32 * i) e).entry (32 * i) = e := by
  refine Entry.ext fun k => ?_
  have hk := k.isLt
  simp only [entry, get, setEntry]
  rw [dif_pos (by omega), dif_pos (by constructor <;> omega)]
  congr 1
  exact Fin.ext (by simp)

/-- Storing an entry leaves the others of the sector. -/
theorem entry_setEntry_of_ne (e : Entry) (hij : i ≠ j) :
    (b.setEntry (32 * i) e).entry (32 * j) = b.entry (32 * j) := by
  refine Entry.ext fun k => ?_
  have hk := k.isLt
  simp only [entry, get, setEntry]
  by_cases h : 32 * j + k < 512
  · rw [dif_pos h, dif_pos h, dif_neg (by omega)]
  · rw [dif_neg h, dif_neg h]

/-- A sector of zeros has no entries. -/
theorem entry_zero (i : ℕ) : Block.zero.entry i = Entry.zero := by
  refine Entry.ext fun k => ?_
  simp only [entry, get, Block.zero, Entry.zero]
  split <;> rfl

theorem get_put (i j : ℕ) (x : UInt8) :
    (b.put i x).get j = if j = i ∧ j < 512 then x else b.get j := by
  unfold get put
  by_cases h : j = i
  · subst h
    by_cases hj : j < 512 <;> simp [hj]
  · simp [h]

/-- Storing the first byte of an entry. -/
theorem entry_put_self (x : UInt8) (hi : i < 16) :
    (b.put (32 * i) x).entry (32 * i) = (b.entry (32 * i)).setByte 0 x := by
  refine Entry.ext fun k => ?_
  have hk := k.isLt
  have h0 : k = 0 ↔ 32 * i + (k : ℕ) = 32 * i := by
    rw [Fin.ext_iff]
    simp
  rw [entry, get_put, Entry.setByte]
  by_cases h : k = 0
  · rw [if_pos ⟨h0.mp h, by omega⟩, if_pos h]
  · rw [if_neg fun hh => h (h0.mpr hh.1), if_neg h]
    rfl

/-- The first byte of an entry belongs to no other entry. -/
theorem entry_put_of_ne (x : UInt8) (hij : i ≠ j) :
    (b.put (32 * i) x).entry (32 * j) = b.entry (32 * j) := by
  refine Entry.ext fun k => ?_
  have hk := k.isLt
  rw [entry, get_put, if_neg (by omega)]
  rfl

end Block

namespace Volume

variable {v v' : Volume} {X X' : ℕ → Bool → Prop} {o : Owner ℕ DirCursor} {c d n : ℕ} {b : Bool}
  {l m : List ℕ} {R : List DirCursor} {p q : DirCursor}

/-- A slot of a directory lies at a multiple of 32 in its sector. -/
theorem aligned_of_slots (h : p ∈ v.slots l) : ∃ k < 16, p.offsetInSector = 32 * k :=
  (mem_slots.mp h).2.2

/-- `v'` is `v` with other entries in the slots `R`. -/
structure Edit (v v' : Volume) (R : List DirCursor) : Prop where
  clusters : v'.clusters = v.clusters
  sectorsPerCluster : v'.sectorsPerCluster = v.sectorsPerCluster
  fat : v'.fat = v.fat
  entry_eq : ∀ p, (∃ k < 16, p.offsetInSector = 32 * k) → p ∉ R → v'.entry p = v.entry p
  data_eq : ∀ c, (∀ r ∈ R, r.cluster ≠ c) → v'.data c = v.data c

theorem Edit.refl (v : Volume) (R : List DirCursor) : Edit v v R :=
  ⟨rfl, rfl, rfl, fun _ _ _ => rfl, fun _ _ => rfl⟩

/-- Two changes of slots are one. -/
theorem Edit.trans {v'' : Volume} {R' : List DirCursor} (h : Edit v v' R) (h' : Edit v' v'' R') :
    Edit v v'' (R ++ R') where
  clusters := h'.clusters.trans h.clusters
  sectorsPerCluster := h'.sectorsPerCluster.trans h.sectorsPerCluster
  fat := h'.fat.trans h.fat
  entry_eq p hp hR := by
    rw [List.mem_append, not_or] at hR
    rw [h'.entry_eq p hp hR.2, h.entry_eq p hp hR.1]
  data_eq c hc := by
    rw [h'.data_eq c fun r hr => hc r (List.mem_append_right _ hr),
      h.data_eq c fun r hr => hc r (List.mem_append_left _ hr)]

/-- More slots may change. -/
theorem Edit.mono {R' : List DirCursor} (h : Edit v v' R) (hR : R ⊆ R') : Edit v v' R' :=
  ⟨h.clusters, h.sectorsPerCluster, h.fat, fun p hp hp' => h.entry_eq p hp fun hm => hp' (hR hm),
    fun c hc => h.data_eq c fun r hr => hc r (hR hr)⟩

/-- A sector write that changes only the entries in the slots `R` of that sector. -/
theorem edit_setData {s : ℕ} {buf : Block} (hR : R ≠ []) (hin : ∀ r ∈ R, r.cluster = c)
    (hbuf : ∀ k < 16, ⟨c, s, 32 * k⟩ ∉ R → buf.entry (32 * k) = v.entry ⟨c, s, 32 * k⟩) :
    Edit v (v.setData c s buf) R where
  clusters := rfl
  sectorsPerCluster := rfl
  fat := rfl
  entry_eq := by
    rintro ⟨pc, ps, po⟩ ⟨k, hk, hpo⟩ hp
    simp only at hpo
    subst hpo
    rw [setData_entry]
    split
    case isTrue h =>
      obtain ⟨rfl, rfl⟩ := h
      exact hbuf k hk hp
    case isFalse => rfl
  data_eq c' hc' := by
    obtain ⟨r, hr⟩ := List.exists_mem_of_ne_nil R hR
    have hne : c' ≠ c := fun heq => hc' r hr (heq ▸ hin r hr)
    exact Function.update_of_ne hne _ _

/-- Store an entry in a slot. -/
def setEntry (v : Volume) (p : DirCursor) (e : Entry) : Volume :=
  v.setData p.cluster p.sectorInCluster ((v.block p).setEntry p.offsetInSector e)

/-- Storing an entry changes its slot alone. -/
theorem setEntry_edit (hp : ∃ k < 16, p.offsetInSector = 32 * k) (e : Entry) :
    Edit v (v.setEntry p e) [p] ∧ (v.setEntry p e).entry p = e := by
  obtain ⟨pc, ps, po⟩ := p
  obtain ⟨k, hk, hpo⟩ := hp
  simp only at hpo
  subst hpo
  refine ⟨edit_setData (by simp) (by simp) fun j _ hj => ?_, ?_⟩
  · rw [Block.entry_setEntry_of_ne]
    · rfl
    · rintro rfl
      exact hj (by simp)
  · rw [setEntry, setData_entry, if_pos ⟨rfl, rfl⟩]
    exact Block.entry_setEntry_self _ _ hk

/-- An entry stored before a further edit of other slots. -/
theorem edit_cons {e : Entry} (hp : ∃ k < 16, p.offsetInSector = 32 * k) (hR : p ∉ R)
    (h : Edit (v.setEntry p e) v' R) : Edit v v' (p :: R) ∧ v'.entry p = e := by
  obtain ⟨h1, h2⟩ := setEntry_edit (v := v) hp e
  exact ⟨h1.trans h, (h.entry_eq p hp hR).trans h2⟩

/-! ## References of a directory after an edit -/

private theorem takeWhile_congr {α : Type*} {f f' : α → Bool} {L : List α}
    (h : ∀ a ∈ L, f' a = f a) : L.takeWhile f' = L.takeWhile f := by
  induction L with
  | nil => rfl
  | cons a L ih =>
    rw [List.takeWhile_cons, List.takeWhile_cons, h a (by simp), ih fun x hx => h x (by simp [hx])]

/-- A reference is an entry in front of the end mark. -/
theorem refs_iff : v.forest.refs l p c b ↔ p ∈ v.beforeEnd l ∧ (v.entry p).Refers c b := Iff.rfl

/-- A reference lies in a slot of its directory. -/
theorem mem_slots_of_refs (h : v.forest.refs l p c b) : p ∈ v.slots l :=
  (List.takeWhile_sublist _).subset h.1

/-- The end mark depends on the entries of the directory alone. -/
theorem beforeEnd_congr (hspc : v'.sectorsPerCluster = v.sectorsPerCluster)
    (h : ∀ p ∈ v.slots l, v'.entry p = v.entry p) : v'.beforeEnd l = v.beforeEnd l := by
  rw [beforeEnd, beforeEnd, slots_congr hspc]
  exact takeWhile_congr fun q hq => by rw [h q hq]

/-- What lies in front of the end mark is a slot. -/
theorem mem_slots_of_beforeEnd (h : p ∈ v.beforeEnd l) : p ∈ v.slots l :=
  (List.takeWhile_sublist _).subset h

/-- A slot behind slots in use is before the end mark. -/
theorem mem_beforeEnd_of_used {A B : List DirCursor} (hs : v.slots l = A ++ p :: B)
    (hA : ∀ q ∈ A, v.entry q 0 ≠ 0) (hp : v.entry p 0 ≠ 0) : p ∈ v.beforeEnd l := by
  rw [beforeEnd, hs, List.takeWhile_append_of_pos fun q hq => by simpa using hA q hq,
    List.takeWhile_cons_of_pos (by simpa using hp)]
  simp

/-- The references of a directory depend on its entries alone. -/
theorem refs_congr (hspc : v'.sectorsPerCluster = v.sectorsPerCluster)
    (h : ∀ p ∈ v.slots l, v'.entry p = v.entry p) :
    v'.forest.refs l p c b ↔ v.forest.refs l p c b := by
  rw [refs_iff, refs_iff, beforeEnd_congr hspc h]
  refine and_congr_right fun hp => ?_
  rw [h p (mem_slots_of_beforeEnd hp)]

/-- The references of a directory depend on the data of its clusters alone. -/
theorem refs_congr_data (hspc : v'.sectorsPerCluster = v.sectorsPerCluster)
    (h : ∀ x ∈ l, v'.data x = v.data x) : v'.forest.refs l p c b ↔ v.forest.refs l p c b :=
  refs_congr hspc fun q hq => by rw [entry, entry, h _ (mem_slots.mp hq).1]

/-- What a run of changed elements in the middle does to an initial segment. -/
private theorem mem_takeWhile_run {α : Type*} {f f' : α → Bool} {A R B : List α}
    (hA : ∀ a ∈ A, f a = true) (hA' : ∀ a ∈ A, f' a = f a) (hB : ∀ a ∈ B, f' a = f a)
    (hR : ∀ a ∈ R, f' a = true)
    (htail : (∀ a ∈ R, f a = true) ∨ ∀ a, B.head? = some a → f a = false) (p : α) :
    p ∈ (A ++ (R ++ B)).takeWhile f' ↔ p ∈ (A ++ (R ++ B)).takeWhile f ∨ p ∈ R := by
  rw [List.takeWhile_append_of_pos fun a ha => (hA' a ha).trans (hA a ha),
    List.takeWhile_append_of_pos hR, takeWhile_congr hB, List.takeWhile_append_of_pos hA]
  rcases htail with hall | hhead
  · rw [List.takeWhile_append_of_pos hall]
    simp only [List.mem_append]
    tauto
  · -- nothing behind the run was before the end mark
    have hnil : B.takeWhile f = [] := by
      cases B with
      | nil => rfl
      | cons x B => rw [List.takeWhile_cons, hhead x rfl]; rfl
    have hsub : ∀ x ∈ (R ++ B).takeWhile f, x ∈ R := by
      intro x hx
      rw [List.takeWhile_append] at hx
      split at hx
      · simpa [hnil] using hx
      · exact (List.takeWhile_sublist _).subset hx
    rw [hnil, List.append_nil]
    simp only [List.mem_append]
    constructor
    · tauto
    · rintro ((hp | hp) | hp)
      · exact .inl hp
      · exact .inr (hsub p hp)
      · exact .inr hp

/-- A run `R` of slots of the directory `l` was stored over: all slots before it were in use, the end
mark moves behind it at most. -/
structure Stored (v v' : Volume) (l : List ℕ) (A R B : List DirCursor) : Prop where
  edit : Edit v v' R
  slots_eq : v.slots l = A ++ (R ++ B)
  before : ∀ p ∈ A, v.entry p 0 ≠ 0
  stored : ∀ p ∈ R, v'.entry p 0 ≠ 0
  tail : (∀ p ∈ R, v.entry p 0 ≠ 0) ∨ ∀ p, B.head? = some p → v.entry p 0 = 0

variable {A B : List DirCursor}

/-- The slots around the edited ones keep their entries. -/
theorem Edit.around (h : Edit v v' R) (hs : v.slots l = A ++ (R ++ B)) (hl : l.Nodup)
    (hp : p ∈ A ++ B) : v'.entry p = v.entry p := by
  have hnd := v.nodup_slots hl
  rw [hs, List.nodup_append, List.nodup_append] at hnd
  obtain ⟨-, ⟨-, -, hRB⟩, hAR⟩ := hnd
  rcases List.mem_append.mp hp with hp | hp
  · have hmem : p ∈ v.slots l := by
      rw [hs]
      exact List.mem_append_left _ hp
    exact h.entry_eq p (aligned_of_slots hmem) fun hR =>
      hAR p hp p (List.mem_append_left _ hR) rfl
  · have hmem : p ∈ v.slots l := by
      rw [hs]
      exact List.mem_append_right _ (List.mem_append_right _ hp)
    exact h.entry_eq p (aligned_of_slots hmem) fun hR => hRB p hR p hp rfl

/-- The slots before the end mark after storing a run. -/
theorem Stored.mem_beforeEnd (h : Stored v v' l A R B) (hl : l.Nodup) :
    p ∈ v'.beforeEnd l ↔ p ∈ v.beforeEnd l ∨ p ∈ R := by
  have hsame : ∀ q ∈ A ++ B, v'.entry q = v.entry q := fun q hq => h.edit.around h.slots_eq hl hq
  rw [beforeEnd, beforeEnd, slots_congr h.edit.sectorsPerCluster, h.slots_eq]
  refine mem_takeWhile_run (fun q hq => by simpa using h.before q hq) (fun q hq => ?_)
    (fun q hq => ?_) (fun q hq => by simpa using h.stored q hq) ?_ p
  · rw [hsame q (List.mem_append_left _ hq)]
  · rw [hsame q (List.mem_append_right _ hq)]
  · refine h.tail.imp (fun hh q hq => by simpa using hh q hq) fun hh q hq => by simpa using hh q hq

/-- Slots outside the run keep their entries. -/
theorem Stored.entry_eq (h : Stored v v' l A R B) (hp : p ∈ v.beforeEnd l) (hR : p ∉ R) :
    v'.entry p = v.entry p :=
  h.edit.entry_eq p (aligned_of_slots (mem_slots_of_beforeEnd hp)) hR

/-- The references of a directory after storing a run. -/
theorem Stored.refs (h : Stored v v' l A R B) (hl : l.Nodup) :
    v'.forest.refs l p c b ↔ v.forest.refs l p c b ∧ p ∉ R ∨ p ∈ R ∧ (v'.entry p).Refers c b := by
  rw [refs_iff, refs_iff, h.mem_beforeEnd hl]
  by_cases hR : p ∈ R
  · simp [hR]
  · simp only [hR, or_false, not_false_eq_true, and_true, false_and]
    exact and_congr_right fun hp => by rw [h.entry_eq hp hR]

/-- Directories of other owners keep their references. -/
theorem Stored.refs_other (h : Stored v v' l A R B) (hc : v.forest.Consistent X)
    (ho : v.forest.Owns X o d true) (hl : v.forest.Chain d l) {o' : Owner ℕ DirCursor} {d' : ℕ}
    (ho' : v.forest.Owns X o' d' true) (hm : v.forest.Chain d' m) (hne : o' ≠ o)
    (p : DirCursor) (c : ℕ) (b : Bool) : v'.forest.refs m p c b ↔ v.forest.refs m p c b := by
  refine refs_congr_data h.edit.sectorsPerCluster fun x hx => h.edit.data_eq x fun r hr heq => ?_
  have hrl : r.cluster ∈ l := (mem_slots.mp (show r ∈ v.slots l by simp [h.slots_eq, hr])).1
  exact hne (hc.disjoint ho' ho hm hl hx (heq ▸ hrl))

/-- Changes of entries use no cluster. -/
theorem Edit.used (h : Edit v v' R) (x : ℕ) : v'.forest.used x ↔ v.forest.used x := by
  show v'.Used x ↔ v.Used x
  rw [Used, Used, InRange, InRange, h.clusters, h.fat]

/-- Changes of entries leave the table. -/
theorem Edit.next_eq (h : Edit v v' R) (x : ℕ) : v'.forest.next x = v.forest.next x := by
  show v'.next x = v.next x
  rw [next, next, h.fat]

/-- Changes of entries leave the chains. -/
theorem Edit.chain (h : Edit v v' R) (hl : v.forest.Chain c l) : v'.forest.Chain c l :=
  hl.congr (fun x hx => (h.used x).mpr (hl.2 x hx)) fun x _ => h.next_eq x

section Rules

variable (hc : v.forest.Consistent X) (ho : v.forest.Owns X o d true) (hl : v.forest.Chain d l)

include hc ho hl

/-- Storing entries that stand for the same chains as before. -/
theorem Stored.keep (h : Stored v v' l A R B)
    (hR : ∀ p ∈ R, ∀ c b, v.forest.refs l p c b ↔ (v'.entry p).Refers c b) :
    v'.forest.Consistent X := by
  refine hc.frame h.edit.used (fun x _ => h.edit.next_eq x) fun {o' d' m} ho' hm p c b => ?_
  by_cases heq : o' = o
  · subst heq
    obtain ⟨rfl, -⟩ := hc.owns_fun ho' ho
    obtain rfl := hm.unique hl
    rw [h.refs hl.1.nodup]
    by_cases hp : p ∈ R
    · rw [← hR p hp]
      simp [hp]
    · simp [hp]
  · exact h.refs_other hc ho hl ho' hm heq p c b

/-- Storing an entry for the chain of a root. -/
theorem Stored.attach (h : Stored v v' l A R B) (hX : X c b)
    (hX' : ∀ c' b', X' c' b' ↔ X c' b' ∧ ¬ (c' = c ∧ b' = b)) (hoX' : v.forest.Owns X' o d true)
    (hold : ∀ p ∈ R, ∀ c b, ¬ v.forest.refs l p c b) (hq : q ∈ R) (hqc : (v'.entry q).Refers c b)
    (hnew : ∀ p ∈ R, p ≠ q → ∀ c b, ¬ (v'.entry p).Refers c b) : v'.forest.Consistent X' := by
  refine hc.attach (i := q) hX hX' hoX' hl h.edit.used (fun x _ => h.edit.next_eq x)
    (fun ho' hm hne => h.refs_other hc ho hl ho' hm hne) fun p c' b' => ?_
  rw [h.refs hl.1.nodup]
  constructor
  · rintro (⟨hp, -⟩ | ⟨hp, hr⟩)
    · exact .inl hp
    · by_cases hpq : p = q
      · subst hpq
        exact .inr ⟨rfl, hr.2.2.1.symm.trans hqc.2.2.1, hr.2.2.2.2.symm.trans hqc.2.2.2.2⟩
      · exact absurd hr (hnew p hp hpq _ _)
  · rintro (hp | ⟨rfl, rfl, rfl⟩)
    · exact .inl ⟨hp, fun hR => hold p hR _ _ hp⟩
    · exact .inr ⟨hq, hqc⟩

/-- Storing over the only entry of the run that stood for a chain, by entries that do not. -/
theorem Stored.detach (h : Stored v v' l A R B)
    (hX' : ∀ c' b', X' c' b' ↔ X c' b' ∨ c' = c ∧ b' = b) (hq : q ∈ R)
    (hqc : v.forest.refs l q c b) (hold : ∀ p ∈ R, p ≠ q → ∀ c b, ¬ v.forest.refs l p c b)
    (hnew : ∀ p ∈ R, ∀ c b, ¬ (v'.entry p).Refers c b) :
    v'.forest.Consistent X' ∧ v'.forest.Owns X o d true := by
  have hrefs : ∀ p c' b', v'.forest.refs l p c' b' ↔ v.forest.refs l p c' b' ∧ p ≠ q := by
    intro p c' b'
    rw [h.refs hl.1.nodup]
    constructor
    · rintro (⟨hp, hR⟩ | ⟨hp, hr⟩)
      · exact ⟨hp, fun heq => hR (heq ▸ hq)⟩
      · exact absurd hr (hnew p hp _ _)
    · rintro ⟨hp, hne⟩
      exact .inl ⟨hp, fun hR => hold p hR hne _ _ hp⟩
  exact ⟨hc.detach ho hl hqc hX' h.edit.used (fun x _ => h.edit.next_eq x)
      (fun ho' hm hne => h.refs_other hc ho hl ho' hm hne) hrefs,
    hc.detach_owns ho hl hqc (fun x _ => h.edit.next_eq x)
      (fun ho' hm hne => h.refs_other hc ho hl ho' hm hne) hrefs⟩

/-- Owners outlive it when the run held no entry of a chain. -/
theorem Stored.owns (h : Stored v v' l A R B) (hold : ∀ p ∈ R, ∀ c b, ¬ v.forest.refs l p c b)
    (hX' : ∀ c b, X' c b → X c b) {o' : Owner ℕ DirCursor} {d' : ℕ} {b' : Bool}
    (ho' : v.forest.Owns X' o' d' b') : v'.forest.Owns X' o' d' b' := by
  refine ho'.lift (fun _ _ => id) fun {o₁ d₁ m p c₁ b₁} ho₁ _ hm hr => ?_
  obtain ⟨k, hk⟩ := hc.chain (ho₁.mono hX')
  obtain rfl := hm.unique hk.1
  refine ⟨m, (h.edit.chain hk).1, ?_⟩
  by_cases heq : o₁ = o
  · subst heq
    obtain ⟨rfl, -⟩ := hc.owns_fun (ho₁.mono hX') ho
    obtain rfl := hk.unique hl
    exact (h.refs hl.1.nodup).mpr (.inl ⟨hr, fun hR => hold p hR _ _ hr⟩)
  · exact (h.refs_other hc ho hl (ho₁.mono hX') hk heq p c₁ b₁).mpr hr

end Rules

/-! ## Edits of chains -/

/-- A cluster with sectors has a first slot. -/
theorem clusterSlots_eq_cons {k : ℕ} (hk : 0 < k) (c : ℕ) :
    ∃ T, clusterSlots k c = ⟨c, 0, 0⟩ :: T := by
  obtain ⟨j, rfl⟩ : ∃ j, k = j + 1 := ⟨k - 1, by omega⟩
  have hhead : (⟨c, 0, 0⟩ : DirCursor) ∈ (clusterSlots (j + 1) c).head? := by
    rw [clusterSlots, List.range_succ_eq_map (n := j), List.flatMap_cons]
    rfl
  exact ⟨_, (List.cons_head?_tail hhead).symm⟩

/-- A directory whose first cluster is zero has no references. -/
theorem not_refs_of_zero (hspc : 0 < v.sectorsPerCluster) (hl : l.head? = some n)
    (hz : v.data n 0 = Block.zero) : ¬ v.forest.refs l p c b := by
  rintro ⟨hp, -⟩
  obtain ⟨t, rfl⟩ : ∃ t, l = n :: t := by
    cases l with
    | nil => cases hl
    | cons a t => exact ⟨t, by simpa using hl⟩
  obtain ⟨T, hT⟩ := clusterSlots_eq_cons hspc n
  have h0 : v.entry ⟨n, 0, 0⟩ 0 = 0 := by
    rw [entry, hz]
    rfl
  rw [beforeEnd, slots, List.flatMap_cons, hT, List.cons_append, List.takeWhile_cons, h0] at hp
  cases hp

/-- An allocated chain is a root of its own until an entry names it. -/
theorem Allocated.consistent (h : Allocated v v' m) (hc : v.forest.Consistent X)
    (hm : m ⊆ v.freeClusters) (hn : m.head? = some n) (hspc : 0 < v.sectorsPerCluster)
    (hX' : ∀ c b', X' c b' ↔ X c b' ∨ c = n ∧ b' = b) : v'.forest.Consistent X' := by
  have hfree : ∀ x ∈ m, v.InRange x ∧ v.fat x = 0 := fun x hx => mem_freeClusters.mp (hm hx)
  have hout : ∀ x, v.Used x → x ∉ m := fun x hu hx => hu.2 (hfree x hx).2
  refine hc.alloc (n := n) (fun x hx => not_used_of_free (hm hx)) (h.walk n hn) hX' (fun x => ?_)
    (fun x hx => ?_) (fun ho hl p c b' => ?_) fun _ p c b' => ?_
  · show v'.Used x ↔ v.Used x ∨ x ∈ m
    rw [Used, Used, InRange, InRange, h.clusters]
    by_cases hx : x ∈ m
    · have := (hfree x hx).1
      simp only [hx, or_true, iff_true]
      exact ⟨this, h.fat_ne_zero x hx⟩
    · simp only [hx, or_false]
      rw [h.fat_eq x hx]
  · show v'.next x = v.next x
    rw [next, next, h.fat_eq x (hout x hx)]
  · exact refs_congr_data h.sectorsPerCluster fun x hx => h.data_eq x (hout x (hl.2 x hx))
  · refine not_refs_of_zero (h.sectorsPerCluster ▸ hspc) hn (h.data_zero n ?_ 0 hspc)
    exact List.mem_of_mem_head? hn

/-- Directories and chains outlive an allocation. -/
theorem Allocated.chain (h : Allocated v v' m) (hm : m ⊆ v.freeClusters)
    (hl : v.forest.Chain c l) : v'.forest.Chain c l :=
  chain_congr hl h.clusters fun x hx => h.fat_eq x fun hxm =>
    (hl.2 x hx : v.Used x).2 (mem_freeClusters.mp (hm hxm)).2

/-- An allocation takes nothing from an owner. -/
theorem Allocated.owns (h : Allocated v v' m) (hc : v.forest.Consistent X)
    (hm : m ⊆ v.freeClusters) (ho : v.forest.Owns X o d b) : v'.forest.Owns X o d b := by
  refine hc.owns_lift ho (fun _ _ => id) fun {o' d' k} ho' hk => ⟨k, (h.chain hm hk).1, ?_⟩
  intro p c b hr
  refine (refs_congr_data h.sectorsPerCluster fun x hx => h.data_eq x fun hxm => ?_).mpr hr
  exact (hk.2 x hx : v.Used x).2 (mem_freeClusters.mp (hm hxm)).2

/-- `v'` is `v` with the free cluster `n`, zeroed, linked behind the last cluster of the chain `l`. -/
structure Grown (v v' : Volume) (l : List ℕ) (n : ℕ) : Prop where
  clusters : v'.clusters = v.clusters
  sectorsPerCluster : v'.sectorsPerCluster = v.sectorsPerCluster
  free : n ∈ v.freeClusters
  small : n < fat32Eoc
  fat_eq : ∀ x ≠ n, l.getLast? ≠ some x → v'.fat x = v.fat x
  fat_last : ∀ x, l.getLast? = some x → v'.fat x = n
  fat_new : v'.fat n ≠ 0
  next_new : v'.next n = none
  data_eq : ∀ x ≠ n, v'.data x = v.data x
  data_zero : ∀ k < v.sectorsPerCluster, v'.data n k = Block.zero

section Grown

variable (h : Grown v v' l n)

include h

/-- The new cluster is a data cluster. -/
theorem Grown.two_le : 2 ≤ n := (mem_freeClusters.mp h.free).1.1

/-- The new cluster was not used before. -/
theorem Grown.ne_of_used {x : ℕ} (hx : v.Used x) : x ≠ n := by
  rintro rfl
  exact not_used_of_free h.free hx

/-- The old last cluster leads to the new one. -/
theorem Grown.next_last {x : ℕ} (hx : l.getLast? = some x) : v'.next x = some n := by
  have h2 := h.two_le
  have hs := h.small
  rw [next, h.fat_last x hx, if_pos]
  simp [clusterHasNext, h2, hs]

/-- One more cluster is used. -/
theorem Grown.used_iff (hl : v.forest.Chain d l) (x : ℕ) : v'.Used x ↔ v.Used x ∨ x = n := by
  have hin := (mem_freeClusters.mp h.free).1
  rw [Used, Used, InRange, InRange, h.clusters]
  by_cases hxn : x = n
  · subst hxn
    simp only [or_true, iff_true]
    exact ⟨hin, h.fat_new⟩
  · simp only [hxn, or_false]
    by_cases hxl : l.getLast? = some x
    · have hu : v.Used x := hl.2 x (List.mem_of_getLast? hxl)
      have h2 := h.two_le
      rw [h.fat_last x hxl]
      exact ⟨fun _ => hu, fun hh => ⟨hh.1, by omega⟩⟩
    · rw [h.fat_eq x hxn hxl]

/-- The new chain of the grown directory. -/
theorem Grown.chain (hl : v.forest.Chain d l) : v'.forest.Chain d (l ++ [n]) := by
  have hgl := List.getLast?_eq_some_getLast hl.1.ne_nil
  refine ⟨?_, fun x hx => ?_⟩
  · refine Walk.append (show Walk v.next d l from hl.1) (.last h.next_new) (fun x hx hn => ?_)
      fun x hx hn => ?_
    · have hxl : l.getLast? ≠ some x := fun hp => by
        rw [hgl] at hp
        exact hn ((hl.1.next_eq_none_iff hx).mpr (Option.some.inj hp).symm)
      show v'.next x = v.next x
      rw [next, next, h.fat_eq x (h.ne_of_used (hl.2 x hx)) hxl]
    · refine h.next_last ?_
      rw [hgl, ← (hl.1.next_eq_none_iff hx).mp hn]
  · show v'.Used x
    rw [h.used_iff hl]
    rcases List.mem_append.mp hx with hx | hx
    · exact .inl (hl.2 x hx)
    · exact .inr (List.mem_singleton.mp hx)

/-- The slots of the new cluster come behind the old ones. -/
theorem Grown.slot_new (hspc : 0 < v.sectorsPerCluster) :
    ∃ T, v'.slots (l ++ [n]) = v.slots l ++ (⟨n, 0, 0⟩ :: T) := by
  obtain ⟨T, hT⟩ := clusterSlots_eq_cons hspc n
  refine ⟨T, ?_⟩
  rw [slots_append, slots, slots, slots, List.flatMap_singleton, h.sectorsPerCluster, hT]

/-- The new cluster holds zeroed slots only. -/
theorem Grown.entry_new (hp : p ∈ v'.slots [n]) : v'.entry p = Entry.zero := by
  obtain ⟨hpn, hps, k, hk, hpo⟩ := mem_slots.mp hp
  obtain rfl := List.mem_singleton.mp hpn
  rw [entry, h.data_zero _ (h.sectorsPerCluster ▸ hps), Block.entry_zero]

/-- The entries of the other clusters are as before. -/
theorem Grown.entry_eq (hp : p.cluster ≠ n) : v'.entry p = v.entry p := by
  rw [entry, entry, h.data_eq _ hp]

/-- The other directories are as before. -/
theorem Grown.refs_other (hl : ∀ x ∈ m, v.Used x) (p : DirCursor) (c : ℕ) (b : Bool) :
    v'.forest.refs m p c b ↔ v.forest.refs m p c b :=
  refs_congr_data h.sectorsPerCluster fun x hx => h.data_eq x (h.ne_of_used (hl x hx))

/-- The new cluster lies behind the end mark. -/
theorem Grown.mem_beforeEnd (hl : v.forest.Chain d l) (p : DirCursor) :
    p ∈ v'.beforeEnd (l ++ [n]) ↔ p ∈ v.beforeEnd l := by
  have hold : v'.beforeEnd l = v.beforeEnd l := beforeEnd_congr h.sectorsPerCluster fun q hq =>
    h.entry_eq (h.ne_of_used (hl.2 _ (mem_slots.mp hq).1))
  have hnew : (v'.slots [n]).takeWhile (fun q => decide (v'.entry q 0 ≠ 0)) = [] := by
    cases hs : v'.slots [n] with
    | nil => rfl
    | cons q T =>
      rw [List.takeWhile_cons, h.entry_new (p := q) (by rw [hs]; exact List.mem_cons_self)]
      rfl
  rw [← hold, beforeEnd, beforeEnd, slots_append, List.takeWhile_append]
  split
  case isTrue hlen =>
    rw [hnew, List.append_nil, (List.takeWhile_prefix _).eq_of_length hlen]
  case isFalse => exact Iff.rfl

/-- A grown directory holds the entries it held. -/
theorem Grown.refs (hl : v.forest.Chain d l) (p : DirCursor) (c : ℕ) (b : Bool) :
    v'.forest.refs (l ++ [n]) p c b ↔ v.forest.refs l p c b := by
  rw [refs_iff, refs_iff, h.mem_beforeEnd hl]
  refine and_congr_right fun hp => ?_
  rw [h.entry_eq (h.ne_of_used (hl.2 _ (mem_slots.mp (mem_slots_of_beforeEnd hp)).1))]

/-- A directory that grows by an empty cluster leaves the volume consistent. -/
theorem Grown.consistent (hc : v.forest.Consistent X) (ho : v.forest.Owns X o d b)
    (hl : v.forest.Chain d l) : v'.forest.Consistent X := by
  have hgl := List.getLast?_eq_some_getLast hl.1.ne_nil
  refine hc.extend (n := n) ho hl (not_used_of_free h.free) (h.used_iff hl) (fun x hx hxl => ?_)
    (fun x hx hn => ?_) h.next_new (fun ho' hm _ => h.refs_other hm.2) fun _ => h.refs hl
  · show v'.next x = v.next x
    have hlast : l.getLast? ≠ some x := fun hp => by
      have hx' := List.mem_of_getLast? hp
      rw [hgl] at hp
      exact hxl hx' ((hl.1.next_eq_none_iff hx').mpr (Option.some.inj hp).symm)
    rw [next, next, h.fat_eq x (h.ne_of_used hx) hlast]
  · refine h.next_last ?_
    rw [hgl, ← (hl.1.next_eq_none_iff hx).mp hn]

/-- Other chains are untouched. -/
theorem Grown.chain_other (hm : v.forest.Chain c m)
    (hdis : ∀ x ∈ m, x ∉ l) : v'.forest.Chain c m :=
  chain_congr hm h.clusters fun x hx =>
    h.fat_eq x (h.ne_of_used (hm.2 x hx)) fun hp => hdis x hx (List.mem_of_getLast? hp)

/-- A directory that grows takes nothing from an owner. -/
theorem Grown.owns (hc : v.forest.Consistent X) (hl : v.forest.Chain d l)
    (ho : v.forest.Owns X o d b) (hX' : ∀ c b, X' c b → X c b) {o' : Owner ℕ DirCursor} {d' : ℕ}
    {b' : Bool} (ho' : v.forest.Owns X' o' d' b') : v'.forest.Owns X' o' d' b' := by
  refine ho'.lift (fun _ _ => id) fun {o₁ d₁ k p c₁ b₁} ho₁ _ hk hr => ?_
  obtain ⟨m, hm⟩ := hc.chain (ho₁.mono hX')
  obtain rfl := hk.unique hm.1
  by_cases heq : o₁ = o
  · subst heq
    obtain ⟨rfl, -⟩ := hc.owns_fun (ho₁.mono hX') ho
    obtain rfl := hm.unique hl
    exact ⟨_, (h.chain hl).1, (h.refs hl p c₁ b₁).mpr hr⟩
  · refine ⟨k, (h.chain_other hm fun x hx hxl => ?_).1, (h.refs_other hm.2 p c₁ b₁).mpr hr⟩
    exact heq (hc.disjoint (ho₁.mono hX') ho hm hl hx hxl)

end Grown

/-- Clearing the chain of a root that holds no references. -/
theorem clear_consistent (hc : v.forest.Consistent X) (hX : X c b) (hl : v.forest.Chain c l)
    (hX' : ∀ c' b', X' c' b' ↔ X c' b' ∧ ¬ (c' = c ∧ b' = b))
    (hempty : b = true → ∀ p c b, ¬ v.forest.refs l p c b) :
    (v.clear l).forest.Consistent X' := by
  refine hc.free hX hl hX' (fun x => ?_) (fun x _ hx => ?_)
    (fun _ _ _ p c b => refs_congr_data rfl fun _ _ => rfl) hempty
  · show (v.clear l).Used x ↔ v.Used x ∧ x ∉ l
    by_cases hx : x ∈ l <;> simp [Used, InRange, clear, hx]
  · show (v.clear l).next x = v.next x
    simp [next, clear, hx]

/-- Clearing clusters leaves the chains without them. -/
theorem clear_chain (hm : v.forest.Chain c m) (hdis : ∀ x ∈ m, x ∉ l) :
    (v.clear l).forest.Chain c m :=
  chain_congr hm rfl fun x hx => if_neg (hdis x hx)

/-- Other owners outlive it. -/
theorem clear_owns (hc : v.forest.Consistent X) (hX : X c b) (hl : v.forest.Chain c l)
    (hX' : ∀ c' b', X' c' b' ↔ X c' b' ∧ ¬ (c' = c ∧ b' = b)) {b' : Bool}
    (ho : v.forest.Owns X' o d b') : (v.clear l).forest.Owns X' o d b' := by
  refine ho.lift (fun _ _ => id) fun {o₁ d₁ m p c₁ b₁} ho₁ _ hm hr => ⟨m, ?_, hr⟩
  have hoX : v.forest.Owns X o₁ d₁ true := ho₁.mono fun c' b' h => ((hX' c' b').mp h).1
  obtain ⟨k, hk⟩ := hc.chain hoX
  obtain rfl := hm.unique hk.1
  refine (clear_chain hk fun x hx hxl => ?_).1
  obtain rfl := hc.disjoint hoX (.root hX) hk hl hx hxl
  cases ho₁ with
  | root h =>  exact ((hX' _ _).mp h).2 ⟨rfl, rfl⟩

/-- Writes to clusters that no directory uses. -/
theorem frame_data (hc : v.forest.Consistent X) (hcl : v'.clusters = v.clusters)
    (hspc : v'.sectorsPerCluster = v.sectorsPerCluster) (hfat : v'.fat = v.fat)
    (hdata : ∀ {o d m}, v.forest.Owns X o d true → v.forest.Chain d m →
      ∀ x ∈ m, v'.data x = v.data x) : v'.forest.Consistent X := by
  refine hc.frame (fun x => ?_) (fun x _ => ?_) fun ho hm p c b => refs_congr_data hspc (hdata ho hm)
  · show v'.Used x ↔ v.Used x
    rw [Used, Used, InRange, InRange, hcl, hfat]
  · show v'.next x = v.next x
    rw [next, next, hfat]

end Volume

end PsychWard.Fat32
