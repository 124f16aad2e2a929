import PsychWard.Fat32.Overwrite
import Mathlib.Data.List.TakeWhile

/-!
# Reading back what was written

A successful write leaves a disk on which the same path reads back the text, and on which every other
file and directory is what it was (`RoundTrip`).

The path is resolved twice, before and after the write, and the write changes the directories the
second resolution goes through. It goes the same way when the new entry does not come before a
directory of the path that is looked up under the same short name (`EntrySafe`).
-/

namespace PsychWard.Fat32

namespace Volume

variable (v : Volume)

/-- The slot of a directory is in use. -/
def Live (l : List ℕ) (p : DirCursor) : Prop := p ∈ v.beforeEnd l ∧ ¬ (v.entry p).IsFree

/-- The slots of a directory are in order: where a long name ends, its entry follows, so that none is
left over at a free slot or at the end, and the slots behind the end mark are zero. -/
structure SlotsOk (l : List ℕ) : Prop where
  lfn : ∀ A B, v.slots l = A ++ B → (∀ a ∈ A, v.entry a 0 ≠ 0) →
    (∀ p, B.head? = some p → (v.entry p).IsFree) → v.lfnAfter A = .clear
  zero : ∀ A p B, v.slots l = A ++ p :: B → v.entry p 0 = 0 → ∀ s ∈ B, v.entry s = Entry.zero

/-- The chains of the tree end and are pairwise disjoint, and the directories are in order. -/
structure WellFormed (root : ℕ) : Prop where
  separated : v.forest.Separated (rootOnly root)
  slotsOk : ∀ {o c l}, v.forest.Owns (rootOnly root) o c true → v.forest.Chain c l → v.SlotsOk l

variable {v} {v' : Volume} {l l' : List ℕ} {A B : List DirCursor} {p q : DirCursor}

theorem mem_beforeEnd : p ∈ v.beforeEnd l ↔ ∃ A B, v.slots l = A ++ p :: B ∧
    (∀ a ∈ A, v.entry a 0 ≠ 0) ∧ v.entry p 0 ≠ 0 := by
  constructor
  · intro hp
    obtain ⟨T, hT⟩ := List.takeWhile_prefix (l := v.slots l) fun p => decide (v.entry p 0 ≠ 0)
    obtain ⟨A, S, hA⟩ := List.append_of_mem hp
    have hall : ∀ a ∈ v.beforeEnd l, v.entry a 0 ≠ 0 := fun a ha =>
      of_decide_eq_true (List.mem_takeWhile_imp (p := fun a => decide (v.entry a 0 ≠ 0)) ha)
    refine ⟨A, S ++ T, ?_, fun a ha => hall a (by rw [hA]; simp [ha]), hall p hp⟩
    rw [← hT, ← beforeEnd, hA, List.append_assoc, List.cons_append]
  · rintro ⟨A, B, hs, hA, h0⟩
    exact mem_beforeEnd_of_used hs hA h0

theorem passed_of_append {target : CString} {T : List DirCursor} (h : v.Passed target (A ++ T)) :
    v.Passed target A := fun A₁ a A₂ hA => h A₁ a (A₂ ++ T) (by rw [hA]; simp)

/-- Freeing clusters changes no contents. -/
theorem clear_data (v : Volume) (m : List ℕ) : (v.clear m).data = v.data := rfl

theorem clear_entry (v : Volume) (m : List ℕ) (p : DirCursor) :
    (v.clear m).entry p = v.entry p := by
  rw [entry, entry, clear_data]

/-- A search that found nothing passed every slot before the first free one. -/
theorem ScanResult.passed_of_none {fs : Fat32Instance} {target : CString} {slot : DirSlot}
    (h : ScanResult fs v target l slot) (hnone : slot.found = none) {T : List DirCursor}
    (hw : v.walked l = A ++ T) (hA : ∀ a ∈ A, ¬ (v.entry a).IsFree) : v.Passed target A := by
  cases h with
  | found _ _ _ hf => exact nomatch hnone.symm.trans hf
  | full hP _ _ _ =>
    rw [hw] at hP
    exact passed_of_append hP
  | @endMark P Q e hw' hP h0 _ _ =>
    rw [hw] at hw'
    rcases List.append_eq_append_iff.mp hw' with ⟨S, rfl, -⟩ | ⟨S, rfl, hS⟩
    · exact passed_of_append hP
    · cases S with
      | nil => rwa [List.append_nil]
      | cons x S =>
        obtain ⟨rfl, -⟩ := List.cons.inj hS
        exact absurd (.inl h0) (hA e (by simp))

/-- A slot in use stays in use when another slot is stored over. -/
theorem live_of_prefix {T : List DirCursor} (hs' : v'.slots l' = v.slots l ++ T)
    (h0 : v'.entry q 0 ≠ 0) (heq : ∀ s ∈ v.slots l, s ≠ q → v'.entry s = v.entry s)
    (hp : v.Live l p) (hpq : p ≠ q) : v'.Live l' p ∧ v'.entry p = v.entry p := by
  obtain ⟨hbefore, hfree⟩ := hp
  obtain ⟨A, B, hs, hA, hp0⟩ := mem_beforeEnd.mp hbefore
  have hpe : v'.entry p = v.entry p := heq p (by rw [hs]; simp) hpq
  refine ⟨⟨mem_beforeEnd.mpr ⟨A, B ++ T, by rw [hs', hs]; simp, fun a ha => ?_, ?_⟩, ?_⟩, hpe⟩
  · by_cases haq : a = q
    · rwa [haq]
    · rw [heq a (by rw [hs]; simp [ha]) haq]
      exact hA a ha
  · rwa [hpe]
  · rwa [hpe]

/-- Storing over one slot takes no other slot into use. -/
theorem live_of_grown {T : List DirCursor} (hs' : v'.slots l' = v.slots l ++ T)
    (hT : ∀ s ∈ T, s ≠ q → v'.entry s 0 = 0)
    (heq : ∀ s ∈ v.slots l, s ≠ q → v'.entry s = v.entry s) (hok : v.SlotsOk l)
    (hp : v'.Live l' p) (hpq : p ≠ q) : v.Live l p := by
  obtain ⟨hbefore, hfree⟩ := hp
  obtain ⟨A, B, hs, hA, hp0⟩ := mem_beforeEnd.mp hbefore
  -- the slot lies in the old part of the directory
  obtain ⟨B', hB'⟩ : ∃ B', v.slots l = A ++ p :: B' := by
    rw [hs'] at hs
    rcases List.append_eq_append_iff.mp hs with ⟨S, -, hS⟩ | ⟨S, hS, hB⟩
    · refine absurd (hT p ?_ hpq) hp0
      rw [hS]
      simp
    · cases S with
      | nil => exact absurd (hT p (by rw [← List.nil_append T, ← hB]; simp) hpq) hp0
      | cons x S =>
        obtain ⟨rfl, -⟩ := List.cons.inj hB
        exact ⟨S, hS⟩
  have hpe : v'.entry p = v.entry p := heq p (by rw [hB']; simp) hpq
  rw [hpe] at hp0 hfree
  refine ⟨mem_beforeEnd.mpr ⟨A, B', hB', fun a ha h0 => ?_, hp0⟩, hfree⟩
  -- an end mark before it would leave zeros only
  obtain ⟨A₁, A₂, rfl⟩ := List.append_of_mem ha
  have hzero := hok.zero A₁ a (A₂ ++ p :: B') (by rw [hB']; simp) h0 p (by simp)
  rw [hzero] at hp0
  exact hp0 rfl

/-- A grown directory is walked through its old slots first. -/
theorem walked_append (l m : List ℕ) :
    v.walked (l ++ m) = v.walked l ++ v.slots (m.take (walkLimit - l.length)) := by
  rw [walked, walked, List.take_append, slots_append]

end Volume

open Volume

theorem sectorsPerCluster_disk {fs : Fat32Instance} (d d' : Disk) :
    (volume fs d').sectorsPerCluster = (volume fs d).sectorsPerCluster := by
  have h : ∀ d, (volume fs d).sectorsPerCluster = fs.sectorsPerCluster := fun _ => rfl
  rw [h, h]

/-- Which slots a chain has depends on the mounted instance only. -/
theorem slots_disk {fs : Fat32Instance} (d d' : Disk) (l : List ℕ) :
    (volume fs d').slots l = (volume fs d).slots l := slots_congr (sectorsPerCluster_disk d d') l

/-! ## The steps of a write -/

namespace WriteSteps

variable {fs : Fat32Instance} {d d₁ d₂ d' : Disk} {q : DirCursor} {e : Entry} {text : List UInt8}
  {m k l : List ℕ} {n c : ℕ} {r : Bool} (h : WriteSteps fs d q e text m n d₁ d₂ r d')

include h

/-- The clusters the write takes are none of a chain. -/
theorem notMem (hk : (volume fs d).forest.Chain c k) {x : ℕ} (hx : x ∈ k) : x ∉ m := fun hxm =>
  not_used_of_free (h.sub hxm) (hk.2 x hx)

theorem chain (hk : (volume fs d).forest.Chain c k) : (volume fs d').forest.Chain c k := by
  refine chain_congr hk rfl fun x hx => ?_
  rw [h.dataOnly.fat, h.volume_entry]
  exact h.allocated.fat_eq x (h.notMem hk hx)

/-- The other slots of a directory keep their entries. -/
theorem entry_eq (hq : q ∈ (volume fs d).slots l)
    (hk : (volume fs d).forest.Chain c k) {s : DirCursor} (hs : s ∈ (volume fs d).slots k)
    (hne : s ≠ q) : (volume fs d').entry s = (volume fs d).entry s := by
  obtain ⟨hE, -⟩ := setEntry_edit (v := volume fs d₁) (aligned_of_slots hq)
    ((e.setClus n).setSize text.length)
  have hsm := h.notMem hk (mem_slots.mp hs).1
  rw [Volume.entry, h.dataOnly.data_eq _ hsm, ← Volume.entry, h.volume_entry,
    hE.entry_eq s (aligned_of_slots hs) (by simpa using hne), Volume.entry,
    h.allocated.data_eq _ hsm]
  rfl

/-- Other chains keep their contents. -/
theorem data_eq (hq : q ∈ (volume fs d).slots l) (hk : (volume fs d).forest.Chain c k)
    (hqk : q.cluster ∉ k) {x : ℕ} (hx : x ∈ k) :
    (volume fs d').data x = (volume fs d).data x := by
  obtain ⟨hE, -⟩ := setEntry_edit (v := volume fs d₁) (aligned_of_slots hq)
    ((e.setClus n).setSize text.length)
  have hxm := h.notMem hk hx
  have hxq : ∀ s ∈ [q], s.cluster ≠ x := fun s hs heq => by
    rw [List.mem_singleton.mp hs] at heq
    exact hqk (heq ▸ hx)
  rw [h.dataOnly.data_eq _ hxm, h.volume_entry, hE.data_eq _ hxq, h.allocated.data_eq _ hxm]

/-- The entry the write stores. -/
theorem entry_self (hl : (volume fs d).forest.Chain c l) (hq : q ∈ (volume fs d).slots l) :
    (volume fs d').entry q = (e.setClus n).setSize text.length := by
  obtain ⟨-, hent⟩ := setEntry_edit (v := volume fs d₁) (aligned_of_slots hq)
    ((e.setClus n).setSize text.length)
  rw [Volume.entry, h.dataOnly.data_eq _ (h.notMem hl (mem_slots.mp hq).1), ← Volume.entry,
    h.volume_entry, hent]

/-- The first cluster of the new chain. -/
theorem inRange (ht : text ≠ []) : 2 ≤ n ∧ n < fs.clusters :=
  (mem_freeClusters.mp (h.sub (List.mem_of_mem_head? (h.head ht).2.2))).1

theorem chain_new (ht : text ≠ []) : (volume fs d').forest.Chain n m := by
  refine chain_congr (Geometry.allocated_chain h.allocated
    (fun x hx => (mem_freeClusters.mp (h.sub hx)).1) (h.head ht).2.2) rfl fun x _ => ?_
  rw [h.dataOnly.fat, h.volume_entry]
  rfl

end WriteSteps

/-- The clusters a write takes are enough for the text. -/
theorem le_needClusters {fs : Fat32Instance} (g : Geometry fs) (hspc : fs.sectorsPerCluster < 2 ^ 8)
    {len : ℕ} (hlen : len ≤ 4096) :
    len ≤ 512 * (needClusters fs len * fs.sectorsPerCluster) := by
  have hpos : 0 < 512 * fs.sectorsPerCluster := Nat.mul_pos (by decide) g.sectors_pos
  rw [needClusters, g.bytes, Nat.mod_eq_of_lt (by omega)]
  set b := 512 * fs.sectorsPerCluster with hb
  have hdiv := Nat.div_add_mod (len + b - 1) b
  have hmod := Nat.mod_lt (len + b - 1) hpos
  have hassoc : 512 * ((len + b - 1) / b * fs.sectorsPerCluster) = b * ((len + b - 1) / b) := by
    rw [hb]
    ring
  omega

/-- The text is read back from the new chain. -/
theorem WriteSteps.readChainData {fs : Fat32Instance} (g : Geometry fs)
    (hspc : fs.sectorsPerCluster < 2 ^ 8) {d d₁ d₂ d' : Disk} {q : DirCursor} {e : Entry}
    {text : List UInt8} {m : List ℕ} {n : ℕ} {r : Bool}
    (h : WriteSteps fs d q e text m n d₁ d₂ r d') (ht : text ≠ []) (hlen : text.length ≤ 4096) :
    readChainData fs d' n 0 (min text.length 4096) = text := by
  obtain ⟨-, hml, -⟩ := h.head ht
  have hchain := h.chain_new ht
  have hcap : text.length ≤ 512 * (m.length * fs.sectorsPerCluster) := by
    rw [hml]
    exact le_needClusters g hspc hlen
  have hmin : min (min text.length 4096) fat32MaxIoChunk = text.length := by
    rw [fat32MaxIoChunk]
    omega
  rw [g.readChainData_spec hchain, hmin, List.drop_zero, (h.result hcap).2]
  exact content_storeSectors (nodup_sectorsFrom_zero hchain.1.nodup) text
    (by rwa [length_sectorsFrom_zero]) _

/-! ## What a write leaves -/

/-- `v'` is `v` after a write of an entry to the slot `q` of the directory `D`, whose chain `l` has
become `l'`. -/
structure Written (root : ℕ) (v v' : Volume) (D : ℕ) (l l' : List ℕ) (q : DirCursor) : Prop where
  sectorsPerCluster : v'.sectorsPerCluster = v.sectorsPerCluster
  dir : v'.forest.Chain D l'
  slot : q ∈ v'.slots l'
  ne : ∀ {o c}, v.forest.Owns (rootOnly root) o c true → o ≠ .ref q
  grown : l' = l ∨ ∃ n, l' = l ++ [n] ∧ ∀ s ∈ v'.slots [n], s ≠ q → v'.entry s 0 = 0
  chain : ∀ {o c b k}, v.forest.Owns (rootOnly root) o c b → o ≠ .ref q → v.forest.Chain c k →
    c ≠ D → v'.forest.Chain c k
  entry_eq : ∀ {o c b k}, v.forest.Owns (rootOnly root) o c b → o ≠ .ref q → v.forest.Chain c k →
    ∀ s ∈ v.slots k, s ≠ q → v'.entry s = v.entry s
  data_eq : ∀ {o c k}, v.forest.Owns (rootOnly root) o c false → o ≠ .ref q →
    v.forest.Chain c k → ∀ x ∈ k, v'.data x = v.data x

section Written

variable {fs : Fat32Instance} {d d₀ d₁ d₂ d' : Disk} {D n : ℕ} {l m : List ℕ} {q : DirCursor}
  {e : Entry} {text : List UInt8} {r : Bool} {o : Owner ℕ DirCursor}

/-- Chains of different owners share no cluster. -/
theorem notMem_of_ne {v : Volume} {X : ℕ → Bool → Prop} (hs : v.forest.Separated X)
    {o₁ o₂ : Owner ℕ DirCursor} {c₁ c₂ : ℕ} {b₁ b₂ : Bool} {k₁ k₂ : List ℕ}
    (h₁ : v.forest.Owns X o₁ c₁ b₁) (h₂ : v.forest.Owns X o₂ c₂ b₂) (hk₁ : v.forest.Chain c₁ k₁)
    (hk₂ : v.forest.Chain c₂ k₂) (hne : o₁ ≠ o₂) {x : ℕ} (hx : x ∈ k₁) : x ∉ k₂ :=
  fun hx₂ => hne (hs.disjoint h₁ h₂ hk₁ hk₂ hx hx₂)

/-- An overwrite: the clusters `m₀` of the old chain are freed first. -/
theorem written_of_clear {m₀ : List ℕ} (hs : (volume fs d).forest.Separated (rootOnly fs.rootCluster))
    (ho : (volume fs d).forest.Owns (rootOnly fs.rootCluster) o D true)
    (hl : (volume fs d).forest.Chain D l) (hq : q ∈ (volume fs d).slots l)
    (hv : volume fs d₀ = (volume fs d).clear m₀)
    (hm₀ : ∀ {o c b k x}, (volume fs d).forest.Owns (rootOnly fs.rootCluster) o c b → o ≠ .ref q →
      (volume fs d).forest.Chain c k → x ∈ k → x ∉ m₀)
    (hneq : ∀ {o c}, (volume fs d).forest.Owns (rootOnly fs.rootCluster) o c true → o ≠ .ref q)
    (h : WriteSteps fs d₀ q e text m n d₁ d₂ r d') :
    Written fs.rootCluster (volume fs d) (volume fs d') D l l q := by
  -- the chains that are kept are chains when the old one is freed
  have hkeep : ∀ {o c b k}, (volume fs d).forest.Owns (rootOnly fs.rootCluster) o c b →
      o ≠ .ref q → (volume fs d).forest.Chain c k → (volume fs d₀).forest.Chain c k := by
    intro o c b k ho hne hk
    rw [hv]
    exact clear_chain hk fun x hx => hm₀ ho hne hk hx
  have hq₀ : q ∈ (volume fs d₀).slots l := by
    rw [slots_disk d]
    exact hq
  have hq' : q ∈ (volume fs d').slots l := by
    rw [slots_disk d]
    exact hq
  have hentry : ∀ s, (volume fs d₀).entry s = (volume fs d).entry s := fun s => by
    rw [hv, clear_entry]
  refine ⟨sectorsPerCluster_disk d d', h.chain (hkeep ho (hneq ho) hl), hq', hneq,
    .inl rfl, fun ho' hne hk _ => h.chain (hkeep ho' hne hk), fun ho' hne hk s hsk hsq => ?_,
    fun {o' c k} ho' hne hk x hx => ?_⟩
  · rw [← slots_disk d d₀] at hsk
    rw [h.entry_eq hq₀ (hkeep ho' hne hk) hsk hsq, hentry]
  · have hqk : q.cluster ∉ k := fun hqk => by
      have heq := hs.disjoint ho' ho hk hl hqk (mem_slots.mp hq).1
      subst heq
      exact absurd (hs.owns_fun ho' ho).2 (by simp)
    rw [h.data_eq hq₀ (hkeep ho' hne hk) hqk hx, hv, clear_data]

/-- A new entry in a slot that was free. -/
theorem written_of_same (hs : (volume fs d).forest.Separated (rootOnly fs.rootCluster))
    (ho : (volume fs d).forest.Owns (rootOnly fs.rootCluster) o D true)
    (hl : (volume fs d).forest.Chain D l) (hq : q ∈ (volume fs d).slots l)
    (hneq : ∀ {o c}, (volume fs d).forest.Owns (rootOnly fs.rootCluster) o c true → o ≠ .ref q)
    (h : WriteSteps fs d q e text m n d₁ d₂ r d') :
    Written fs.rootCluster (volume fs d) (volume fs d') D l l q :=
  written_of_clear hs ho hl hq (clear_nil).symm (fun _ _ _ _ => by simp) hneq h

/-- A new entry in the first slot of a new cluster. -/
theorem written_of_grown {x : ℕ} (hs : (volume fs d).forest.Separated (rootOnly fs.rootCluster))
    (ho : (volume fs d).forest.Owns (rootOnly fs.rootCluster) o D true)
    (hl : (volume fs d).forest.Chain D l) (hgr : Grown (volume fs d) (volume fs d₀) l x)
    (hq : q ∈ (volume fs d₀).slots [x]) (h : WriteSteps fs d₀ q e text m n d₁ d₂ r d') :
    Written fs.rootCluster (volume fs d) (volume fs d') D l (l ++ [x]) q := by
  have hl' := hgr.chain hl
  have hqx : q.cluster = x := List.mem_singleton.mp (mem_slots.mp hq).1
  have hq' : q ∈ (volume fs d₀).slots (l ++ [x]) := by
    rw [slots_append]
    exact List.mem_append_right _ hq
  have hkeep : ∀ {o' c b k}, (volume fs d).forest.Owns (rootOnly fs.rootCluster) o' c b →
      (volume fs d).forest.Chain c k → c ≠ D → (volume fs d₀).forest.Chain c k := by
    intro o' c b k ho' hk hne
    refine hgr.chain_other hk fun y hy => notMem_of_ne hs ho' ho hk hl ?_ hy
    rintro rfl
    exact hne (hs.owns_fun ho' ho).1
  have hne : ∀ {c k}, (volume fs d).forest.Chain c k → ∀ y ∈ k, y ≠ x := fun hk y hy =>
    hgr.ne_of_used (hk.2 y hy)
  -- the new cluster was nobody's, so no entry of the old volume lies in it
  have hneq : ∀ {o' c}, (volume fs d).forest.Owns (rootOnly fs.rootCluster) o' c true →
      o' ≠ .ref q := by
    rintro o' c ho' rfl
    cases ho' with
    | ref hd hw hr =>
      obtain ⟨k, hk⟩ := hs.chain hd
      obtain rfl := hw.unique hk.1
      exact hne hk _ (mem_slots.mp (mem_slots_of_refs hr)).1 hqx
  refine ⟨sectorsPerCluster_disk d d', h.chain hl', by rwa [slots_disk d₀], hneq,
    .inr ⟨x, rfl, fun s hsx hsq => ?_⟩,
    fun ho' _ hk hcD => h.chain (hkeep ho' hk hcD), fun {o' c b k} ho' _ hk s hsk hsq => ?_,
    fun {o' c k} ho' _ hk y hy => ?_⟩
  · rw [slots_disk d₀] at hsx
    have hsl : s ∈ (volume fs d₀).slots (l ++ [x]) := by
      rw [slots_append]
      exact List.mem_append_right _ hsx
    rw [h.entry_eq hq' hl' hsl hsq, hgr.entry_new hsx]
    rfl
  · have hold : (volume fs d₀).entry s = (volume fs d).entry s :=
      hgr.entry_eq (hne hk _ (mem_slots.mp hsk).1)
    rw [← slots_disk d d₀] at hsk
    by_cases hcD : c = D
    · subst hcD
      obtain rfl := hk.unique hl
      have hsl : s ∈ (volume fs d₀).slots (k ++ [x]) := by
        rw [slots_append]
        exact List.mem_append_left _ hsk
      rw [h.entry_eq hq' hl' hsl hsq, hold]
    · rw [h.entry_eq hq' (hkeep ho' hk hcD) hsk hsq, hold]
  · have hcD : c ≠ D := by
      rintro rfl
      exact absurd (hs.owns_fun (hs.owner_unique ho' ho ▸ ho') ho).2 (by simp)
    rw [h.data_eq hq' (hkeep ho' hk hcD) (fun hqk => hne hk _ hqk hqx) hy,
      hgr.data_eq _ (hne hk y hy)]

end Written

/-! ## The same path on the new disk -/

/-- The slot `s` lies behind the first free slot of a directory. -/
def Volume.BehindFree (v : Volume) (l : List ℕ) (s : DirCursor) : Prop :=
  ∃ A q B, v.walked l = A ++ q :: B ∧ (∀ a ∈ A, ¬ (v.entry a).IsFree) ∧ (v.entry q).IsFree ∧ s ∈ B

/-- A path of printable characters that names a regular file, or nothing yet, in a directory of the
tree. -/
structure FilePath (fs : Fat32Instance) (d : Disk) (path : CString) : Prop where
  printable : ∀ x ∈ path, 32 ≤ x ∧ x ≤ 126
  dirs : DirPath fs d path
  parent : ∃ p name l, resolveTarget fs d path = some (p, name) ∧ DirAt fs d p l ∧
    ∀ f, lookup fs d p name = some f → (f.entry d).isDir = false ∧ ¬ (f.entry d).IsDot

/-- The condition on a path that names nothing yet: a directory that has to grow is shorter than a
walk is long, and no directory of the path is looked up in the same directory behind the first free
slot, under a name that the new entry carries as well. -/
structure EntrySafe (fs : Fat32Instance) (d : Disk) (path : CString) : Prop where
  grow : ∀ p name l, resolveTarget fs d path = some (p, name) → DirAt fs d p l →
    lookup fs d p name = none → (∀ s ∈ (volume fs d).walked l, ¬ ((volume fs d).entry s).IsFree) →
      l.length < walkLimit
  shadow : ∀ p name l, resolveTarget fs d path = some (p, name) → DirAt fs d p l →
    lookup fs d p name = none → ∀ x ∈ lookups fs d path, ¬ RootDots fs x.1 x.2 →
      dirHead fs x.1 = dirHead fs p →
        entryMatches .clear (shortEntry (formatFat32Name name) 0x20 0 0) x.2 = true →
          ∀ s f, (volume fs d).BehindFree l s → lookup fs d x.1 x.2 = some f →
            ¬ (f.sector = dirCursorSector fs s ∧ f.offset = s.offsetInSector)

/-- The path leads to the entry in the slot `q`. -/
def IsEntry (fs : Fat32Instance) (d : Disk) (path : CString) (q : DirCursor) : Prop :=
  ∃ p name f, resolveTarget fs d path = some (p, name) ∧ lookup fs d p name = some f ∧
    f.sector = dirCursorSector fs q ∧ f.offset = q.offsetInSector

/-- `d'` is `d` with `text` written to `path`: the path reads it back, and every other file has the
chain and the contents it had, and every other slot in use its entry. -/
structure RoundTrip (fs : Fat32Instance) (d d' : Disk) (path : CString) (text : List UInt8) :
    Prop where
  read : fat32ReadFile fs d' path 0 = some text
  files : ∀ {s c l}, (volume fs d).forest.Owns (rootOnly fs.rootCluster) (.ref s) c false →
    ¬ IsEntry fs d path s → (volume fs d).forest.Chain c l →
      (volume fs d').forest.Chain c l ∧ ∀ x ∈ l, (volume fs d').data x = (volume fs d).data x
  dirs : ∀ {o c l}, (volume fs d).forest.Owns (rootOnly fs.rootCluster) o c true →
    (volume fs d).forest.Chain c l → ∃ l', (volume fs d').forest.Chain c l' ∧
      (l' = l ∨ ∃ p name n, resolveTarget fs d path = some (p, name) ∧ dirHead fs p = c ∧
        l' = l ++ [n]) ∧
      (∀ s, (volume fs d).Live l s → ¬ IsEntry fs d path s →
        (volume fs d').Live l' s ∧ (volume fs d').entry s = (volume fs d).entry s) ∧
      ∀ s, (volume fs d').Live l' s → (volume fs d).Live l s ∨ IsEntry fs d' path s

namespace Written

variable {fs : Fat32Instance} {d d' : Disk} {D h : ℕ} {k l l' : List ℕ} {q s : DirCursor}
  {A B P Q : List DirCursor} {o : Owner ℕ DirCursor} {path t : CString}
  (w : Written fs.rootCluster (volume fs d) (volume fs d') D l l' q)

include w

/-- The slots of the directory after the write start with those it had. -/
theorem slots_prefix : ∃ T, (volume fs d').slots l' = (volume fs d).slots l ++ T ∧
    ∀ s ∈ T, s ≠ q → (volume fs d').entry s 0 = 0 := by
  rcases w.grown with rfl | ⟨n, rfl, hn⟩
  · exact ⟨[], by rw [List.append_nil, slots_disk d], by simp⟩
  · exact ⟨(volume fs d').slots [n], by rw [slots_append, slots_disk d], hn⟩

theorem walked_prefix : ∃ T, (volume fs d').walked l' = (volume fs d).walked l ++ T := by
  rcases w.grown with rfl | ⟨n, rfl, -⟩
  · exact ⟨[], by rw [List.append_nil, walked, walked, slots_disk d]⟩
  · exact ⟨_, by rw [walked_append, walked, walked, slots_disk d]⟩

/-- A lookup finds the same slot again if the stored entry does not get in its way. -/
theorem lookup_eq (g : Geometry fs) (hl : (volume fs d).forest.Chain D l) (hdir : DirAt fs d h k)
    (hw : (volume fs d).walked k = A ++ s :: B) (hA : (volume fs d).Passed t A)
    (hst : ∀ A₁ A₂, A = A₁ ++ q :: A₂ →
      lfnStep ((volume fs d).lfnAfter A₁) ((volume fs d').entry q) =
          lfnStep ((volume fs d).lfnAfter A₁) ((volume fs d).entry q) ∧
        (volume fs d').entry q 0 ≠ 0 ∧ ¬ (((volume fs d').entry q).IsNamed ∧
          entryMatches ((volume fs d).lfnAfter A₁) ((volume fs d').entry q) t = true))
    (hm : ((volume fs d').entry s).IsNamed ∧
      entryMatches ((volume fs d).lfnAfter A) ((volume fs d').entry s) t = true) :
    lookup fs d' h t = some ⟨dirCursorSector fs s, s.offsetInSector, ((volume fs d').entry s).clus,
      ((volume fs d').entry s).size⟩ := by
  obtain ⟨o', ho'⟩ := hdir.owner
  have hk := hdir.chain
  have hslots : ∀ a ∈ A ++ s :: B, a ∈ (volume fs d).slots k := fun a ha =>
    mem_slots_of_walked (hw ▸ ha)
  have hsteady : Steady (volume fs d) (volume fs d') t A := by
    refine steady_of_edit hA (fun a ha hne => ?_) hst
    exact w.entry_eq ho' (w.ne ho') hk a (hslots a (by simp [ha])) hne
  have hm' : (volume fs d').Matches t A s := by
    rw [Matches, hsteady.lfnAfter_eq]
    exact hm
  by_cases hcD : dirHead fs h = D
  · rw [hcD] at hk
    obtain rfl := hk.unique hl
    obtain ⟨T, hT⟩ := w.walked_prefix
    rw [hw, List.append_assoc, List.cons_append] at hT
    exact g.lookup_eq (hcD ▸ w.dir) hT hsteady.passed hm'
  · rw [walked, ← slots_disk d d', ← walked] at hw
    exact g.lookup_eq (w.chain ho' (w.ne ho') hk hcD) hw hsteady.passed hm'

/-- What holds of other slots and files after the write makes it a round trip. -/
theorem roundTrip {text : List UInt8} (hwf : (volume fs d).WellFormed fs.rootCluster)
    (ho : (volume fs d).forest.Owns (rootOnly fs.rootCluster) o D true)
    (hl : (volume fs d).forest.Chain D l) (h0 : (volume fs d').entry q 0 ≠ 0)
    (hread : fat32ReadFile fs d' path 0 = some text) {p : ℕ} {name : CString}
    (hres : resolveTarget fs d path = some (p, name)) (hD : dirHead fs p = D)
    (hnew : IsEntry fs d' path q)
    (hold : IsEntry fs d path q ∨
      ∀ {o c k}, (volume fs d).forest.Owns (rootOnly fs.rootCluster) o c true →
        (volume fs d).forest.Chain c k → ¬ (volume fs d).Live k q) :
    RoundTrip fs d d' path text := by
  -- the slot of another file is another slot
  have hne : ∀ {s c b}, (volume fs d).forest.Owns (rootOnly fs.rootCluster) (.ref s) c b →
      ¬ IsEntry fs d path s → Owner.ref (κ := ℕ) s ≠ .ref q := by
    rintro s c b hs hns ⟨⟩
    rcases hold with hold | hfree
    · exact hns hold
    · cases hs with
      | ref hd hw hr =>
        obtain ⟨k, hk⟩ := hwf.separated.chain hd
        obtain rfl := hw.unique hk.1
        exact hfree hd hk ⟨hr.1, hr.2.1.1⟩
  refine ⟨hread, fun {s c k} hs hns hk => ⟨w.chain hs (hne hs hns) hk ?_,
    w.data_eq hs (hne hs hns) hk⟩, fun {o' c k} ho' hk => ?_⟩
  · rintro rfl
    have hown := hwf.separated.owner_unique hs ho
    rw [hown] at hs
    exact absurd (hwf.separated.owns_fun hs ho).2 (by simp)
  · have hok := hwf.slotsOk ho' hk
    have heq := w.entry_eq ho' (w.ne ho') hk
    have hkept : ∀ {k' T}, (volume fs d').slots k' = (volume fs d).slots k ++ T →
        (∀ s ∈ T, s ≠ q → (volume fs d').entry s 0 = 0) →
        (∀ s, (volume fs d).Live k s → ¬ IsEntry fs d path s →
          (volume fs d').Live k' s ∧ (volume fs d').entry s = (volume fs d).entry s) ∧
        ∀ s, (volume fs d').Live k' s → (volume fs d).Live k s ∨ IsEntry fs d' path s := by
      intro k' T hT hz
      refine ⟨fun s hs hns => ?_, fun s hs => ?_⟩
      · refine live_of_prefix hT h0 heq hs ?_
        rintro rfl
        exact hold.elim hns fun h => h ho' hk hs
      · by_cases hsq : s = q
        · exact .inr (hsq ▸ hnew)
        · exact .inl (live_of_grown hT hz heq hok hs hsq)
    by_cases hcD : c = D
    · subst hcD
      obtain rfl := hk.unique hl
      obtain ⟨T, hT, hz⟩ := w.slots_prefix
      refine ⟨l', w.dir, ?_, hkept hT hz⟩
      rcases w.grown with rfl | ⟨n, rfl, -⟩
      · exact .inl rfl
      · exact .inr ⟨p, name, n, hres, hD, rfl⟩
    · refine ⟨k, w.chain ho' (w.ne ho') hk hcD, .inl rfl, ?_⟩
      exact hkept (T := []) (by rw [List.append_nil, slots_disk d]) (by simp)

/-- The path leads to the same directory again if the stored entry does not get in its way. -/
theorem resolveTarget_eq (g : Geometry fs) (hroot : 2 ≤ fs.rootCluster)
    (hl : (volume fs d).forest.Chain D l) (hpath : DirPath fs d path)
    (hst : ∀ {h t k A s B}, (h, t) ∈ lookups fs d path → ¬ RootDots fs h t → DirAt fs d h k →
      (volume fs d).walked k = A ++ s :: B → (volume fs d).Passed t A →
      (volume fs d).Matches t A s → ((volume fs d).entry s).isDir = true →
      s ≠ q ∧ ∀ A₁ A₂, A = A₁ ++ q :: A₂ →
        lfnStep ((volume fs d).lfnAfter A₁) ((volume fs d').entry q) =
            lfnStep ((volume fs d).lfnAfter A₁) ((volume fs d).entry q) ∧
          (volume fs d').entry q 0 ≠ 0 ∧ ¬ (((volume fs d').entry q).IsNamed ∧
            entryMatches ((volume fs d).lfnAfter A₁) ((volume fs d').entry q) t = true)) :
    resolveTarget fs d' path = resolveTarget fs d path := by
  refine resolveTarget_congr fun x hx => ?_
  obtain ⟨⟨k, hdir⟩, hcase⟩ := hpath x hx
  by_cases hdots : RootDots fs x.1 x.2
  · rw [Geometry.fat32FindInDir_dots hdots, Geometry.fat32FindInDir_dots hdots]
  · obtain ⟨f, hf, hisdir⟩ := hcase.resolve_left hdots
    obtain ⟨A, B, s, hw, hA, hm, rfl⟩ := g.lookup_some hdir.chain hf
    have hsk : s ∈ (volume fs d).slots k := mem_slots_of_walked (by rw [hw]; simp)
    rw [FoundEntry.entry, g.block_eq hdir.chain.2 hsk] at hisdir
    obtain ⟨hsq, hsteady⟩ := hst hx hdots hdir hw hA hm hisdir
    obtain ⟨o', ho'⟩ := hdir.owner
    have hent : (volume fs d').entry s = (volume fs d).entry s :=
      w.entry_eq ho' (w.ne ho') hdir.chain s hsk hsq
    have hnew := w.lookup_eq g hl hdir hw hA hsteady (by rw [hent]; exact hm)
    rw [Geometry.fat32FindInDir_eq hroot hdots, Geometry.fat32FindInDir_eq hroot hdots, hnew, hf, hent]

end Written

namespace Geometry

variable {fs : Fat32Instance} (g : Geometry fs) {d d₀ d₁ d₂ d' : Disk} {n p : ℕ} {l m : List ℕ}
  {q : DirCursor} {e : Entry} {text : List UInt8} {r : Bool} {path name : CString}

include g

/-- Reading the path finds the text. -/
theorem fat32ReadFile_written (hspc : fs.sectorsPerCluster < 2 ^ 8) (hlen : text.length ≤ 4096)
    (h : WriteSteps fs d₀ q e text m n d₁ d₂ r d')
    (hres : resolveTarget fs d' path = some (p, name))
    (hlook : lookup fs d' p name = some ⟨dirCursorSector fs q, q.offsetInSector,
      ((e.setClus n).setSize text.length).clus, ((e.setClus n).setSize text.length).size⟩) :
    fat32ReadFile fs d' path 0 = some text := by
  have hsize : ((e.setClus n).setSize text.length).size = text.length :=
    Entry.size_setSize _ (by omega)
  rw [lookup] at hlook
  rw [fat32ReadFile, hres]
  simp only [hlook, hsize]
  by_cases ht : text = []
  · subst ht
    rfl
  · have hpos := List.length_pos_of_ne_nil ht
    have hin := h.inRange ht
    have hle := g.clusters_le
    rw [fat32Eoc] at hle
    have hclus : ((e.setClus n).setSize text.length).clus = n := by
      rw [Entry.clus_setSize, Entry.clus_setClus _ (by omega)]
    rw [if_neg (by omega), hclus, Nat.sub_zero, h.readChainData g hspc ht hlen, if_neg ht]

/-- The disk from which on a write to an existing entry frees nothing. -/
theorem writeEntryAndData_free (text : List UInt8) {o : Owner ℕ DirCursor} {D : ℕ}
    {A B : List DirCursor}
    (hs : (volume fs d).forest.Separated (rootOnly fs.rootCluster))
    (ho : (volume fs d).forest.Owns (rootOnly fs.rootCluster) o D true)
    (hl : (volume fs d).forest.Chain D l) (hw : (volume fs d).walked l = A ++ q :: B)
    (hA : (volume fs d).Passed name A) (hm : (volume fs d).Matches name A q)
    (hfile : ((volume fs d).entry q).isDir = false) (hdot : ¬ ((volume fs d).entry q).IsDot) :
    ∃ d₀ m₀, writeEntryAndData fs d (dirCursorSector fs q) q.offsetInSector
        ((volume fs d).entry q).clus ((volume fs d).block q) ((volume fs d).entry q) text =
          writeEntryAndData fs d₀ (dirCursorSector fs q) q.offsetInSector 0 ((volume fs d₀).block q)
            ((volume fs d).entry q) text ∧
      volume fs d₀ = (volume fs d).clear m₀ ∧
      ∀ {o c b k x}, (volume fs d).forest.Owns (rootOnly fs.rootCluster) o c b → o ≠ .ref q →
        (volume fs d).forest.Chain c k → x ∈ k → x ∉ m₀ := by
  obtain ⟨-, hrefs⟩ := place_of_found hw hA hm
  by_cases h2 : ((volume fs d).entry q).clus < 2
  · exact ⟨d, [], writeEntryAndData_of_lt h2, clear_nil.symm, fun _ _ _ _ => by simp⟩
  · have hle : 2 ≤ ((volume fs d).entry q).clus := by omega
    have hq := ChainForest.Owns.ref ho hl.1 ((hrefs _ _).mpr ⟨hm.1, hdot, rfl, hle, hfile⟩)
    obtain ⟨k₀, hk₀⟩ := hs.chain hq
    obtain ⟨d₀, hfree, hv, -⟩ := g.fatFreeChain_spec hk₀
    have hblock : (volume fs d₀).block q = (volume fs d).block q := by
      rw [block, block, hv, clear_data]
    refine ⟨d₀, k₀.take 65536, ?_, hv, fun ho' hne hk hx hxm => ?_⟩
    · rw [writeEntryAndData_of_le hle, hfree, hblock]
    · exact notMem_of_ne hs ho' hq hk hk₀ hne hx (List.mem_of_mem_take hxm)

/-- A successful overwrite is a round trip. -/
theorem roundTrip_found (hspc : fs.sectorsPerCluster < 2 ^ 8) (hlen : text.length ≤ 4096)
    (hwf : (volume fs d).WellFormed fs.rootCluster) (hpath : DirPath fs d path)
    (hres : resolveTarget fs d path = some (p, name)) (hdir : DirAt fs d p l) {f : FoundEntry}
    (hf : lookup fs d p name = some f) (hfile : (f.entry d).isDir = false)
    (hdot : ¬ (f.entry d).IsDot) (hok : (fat32WriteFile fs d path text).1 = true) :
    RoundTrip fs d (fat32WriteFile fs d path text).2 path text := by
  have hroot : 2 ≤ fs.rootCluster :=
    (hwf.separated.used_of_owns (.root ⟨rfl, rfl⟩) : (volume fs d).Used fs.rootCluster).1.1
  obtain ⟨o, ho⟩ := hdir.owner
  have hl := hdir.chain
  obtain ⟨A, B, q, hw, hA, hm, rfl⟩ := g.lookup_some hl hf
  have hq : q ∈ (volume fs d).slots l := mem_slots_of_walked (by rw [hw]; simp)
  rw [FoundEntry.entry, g.block_eq hl.2 hq, ← Volume.entry_eq] at hfile hdot
  obtain ⟨d₀, m₀, hwrite, hv, hm₀⟩ := g.writeEntryAndData_free text hwf.separated ho hl hw
    hA hm hfile hdot
  rw [g.fat32WriteFile_found text hres hdir.chain hw hA hm, hwrite] at hok ⊢
  -- the directory holds the slot, so its owner is not the file
  have hneq : ∀ {o c}, (volume fs d).forest.Owns (rootOnly fs.rootCluster) o c true →
      o ≠ .ref q := by
    rintro o c hoc rfl
    cases hoc with
    | ref _ _ hr => exact absurd (hr.2.2.2.2.2.symm.trans hfile) (by simp)
  have hl₀ : (volume fs d₀).forest.Chain (dirHead fs p) l := by
    rw [hv]
    exact clear_chain hl fun x hx => hm₀ ho (hneq ho) hl hx
  have hq₀ : q ∈ (volume fs d₀).slots l := by
    rw [slots_disk d]
    exact hq
  obtain ⟨r, d', hrest, ⟨m, n, d₁, d₂, hst⟩ | ⟨rfl, -⟩⟩ :=
    g.writeEntryAndData_spec hl₀.2 hq₀ ((volume fs d).entry q) text
  swap
  · rw [hrest] at hok
    cases hok
  rw [hrest]
  have w := written_of_clear hwf.separated ho hl hq hv hm₀ hneq hst
  have hself := hst.entry_self hl₀ hq₀
  set e := (volume fs d).entry q with he
  set e' := (e.setClus n).setSize text.length with he'
  have h0 : e' 0 = e 0 := e.setClus_setSize_of_lt n _ (by decide)
  have hattr : e'.attr = e.attr := e.attr_setClus_setSize n _
  have hname : e'.name = e.name := e.name_setClus_setSize n _
  have hnamed : e'.IsNamed := (Entry.isNamed_congr h0 hattr).mpr hm.1
  have hmatch : ∀ buf t, entryMatches buf e' t = entryMatches buf e t := fun buf t => by
    rw [entryMatches, entryMatches, hname]
  have h0' : (volume fs d').entry q 0 ≠ 0 := by
    rw [hself, h0]
    exact fun h => hm.1.1 (.inl h)
  have hqA : q ∉ A := by
    have hnd := (volume fs d).nodup_slots hl.1.nodup
    rw [slots_eq_walked_append, hw] at hnd
    intro hqA
    have := (List.nodup_append.mp (List.nodup_append.mp hnd).1).2.2 q hqA q (by simp)
    exact this rfl
  -- the path leads to the slot again
  have hres' : resolveTarget fs d' path = some (p, name) := by
    rw [← hres]
    refine w.resolveTarget_eq g hroot hl hpath fun {h t k A' s B'} _ _ _ _ hA' _ hsdir => ⟨?_, ?_⟩
    · rintro rfl
      rw [← he, hfile] at hsdir
      cases hsdir
    · intro A₁ A₂ hA₁
      have hnot : ¬ (e.IsNamed ∧ entryMatches ((volume fs d).lfnAfter A₁) e t = true) :=
        (hA' A₁ q A₂ hA₁).2
      refine ⟨?_, h0', ?_⟩
      · rw [hself, lfnStep_of_named _ hnamed, lfnStep_of_named _ hm.1]
      · rw [hself, hmatch, Entry.isNamed_congr h0 hattr]
        exact hnot
  have hlook := w.lookup_eq g hl hdir hw hA (fun A₁ A₂ hA₁ => absurd (by rw [hA₁]; simp) hqA)
    (by rw [hself, hmatch]; exact ⟨hnamed, hm.2⟩)
  rw [hself] at hlook
  exact w.roundTrip hwf ho hl h0' (g.fat32ReadFile_written hspc hlen hst hres' hlook) hres rfl
    ⟨p, name, _, hres', hlook, rfl, rfl⟩ (.inl ⟨p, name, _, hres, hf, rfl, rfl⟩)

omit g in
/-- A slot before which the directory is in use is reached by a walk. -/
theorem walked_of_mem {v : Volume} {A B : List DirCursor} (hnd : l.Nodup)
    (hs : v.slots l = A ++ q :: B) (hq : q ∈ v.walked l) : ∃ B', v.walked l = A ++ q :: B' := by
  have hslots := v.nodup_slots hnd
  obtain ⟨P, Q, hw⟩ := List.append_of_mem hq
  have hreach : A ++ q :: B = P ++ q :: (Q ++ v.slots (l.drop walkLimit)) := by
    rw [← hs, slots_eq_walked_append, hw, List.append_assoc]
    rfl
  rw [hs] at hslots
  obtain ⟨rfl, -⟩ := split_unique hslots hreach
  exact ⟨Q, hw⟩

omit g in
/-- The short entry of a printable name names a file, and carries the name when no long name was
collected. -/
theorem shortEntry_matches (hprint : ∀ x ∈ name, 32 ≤ x ∧ x ≤ 126) (len : ℕ) :
    (((shortEntry (formatFat32Name name) 0x20 0 0).setClus n).setSize len).IsNamed ∧
      entryMatches .clear (((shortEntry (formatFat32Name name) 0x20 0 0).setClus n).setSize len)
        name = true := by
  have h0 : 0 ∉ name := fun h => absurd (hprint 0 h).1 (by decide)
  have hdel : deleted ∉ name := fun h => absurd (hprint deleted h).2 (by decide)
  set e := shortEntry (formatFat32Name name) 0x20 0 0 with he
  have hname : ((e.setClus n).setSize len).name = formatFat32Name name := by
    rw [e.name_setClus_setSize, he, shortEntry_name _ _ _ _ (length_formatFat32Name name)]
  have hstr : cString (formatFat32Name name) = formatFat32Name name := by
    refine List.takeWhile_eq_self_iff.mpr fun x hx => ?_
    have hx0 : x ≠ 0 := fun h => zero_notMem_formatFat32Name h0 (h ▸ hx)
    simpa using hx0
  refine ⟨?_, ?_⟩
  · refine (Entry.isNamed_congr (e.setClus_setSize_of_lt n len (by decide))
      (e.attr_setClus_setSize n len)).mpr ⟨?_, by rw [he, shortEntry_attr]; decide, ?_⟩
    · rintro (hz | hd)
      · exact formatFat32Name_ne_zero h0 hz
      · exact formatFat32Name_ne_deleted h0 hdel hd
    · rw [he, shortEntry_attr]
      decide
  · rw [entryMatches, if_neg (by simp [LfnBuf.clear]), hname, hstr, myStrcmp_self]
    rfl

/-- What the choice of a slot for a new entry comes to. -/
structure NewSlot (fs : Fat32Instance) (d d' : Disk) (name : CString) (D : ℕ) (l l' : List ℕ)
    (A : List DirCursor) (q : DirCursor) : Prop where
  written : Written fs.rootCluster (volume fs d) (volume fs d') D l l' q
  before : ∀ a ∈ A, a ∈ (volume fs d).slots l ∧ a ≠ q
  passed : (volume fs d).Passed name A
  lfn : (volume fs d).lfnAfter A = .clear
  walked : ∃ B, (volume fs d').walked l' = A ++ q :: B
  /-- the slot was free, or lay in a free cluster -/
  fresh : (l' = l ∧ ((volume fs d).entry q).IsFree ∧ (∀ a ∈ A, ¬ ((volume fs d).entry a).IsFree) ∧
      ∃ B, (volume fs d).walked l = A ++ q :: B) ∨
    ∀ {c k}, (volume fs d).forest.Chain c k → q ∉ (volume fs d).slots k

omit g in
theorem newSlot_same {D : ℕ} {o : Owner ℕ DirCursor} {A B : List DirCursor} {slot : DirSlot}
    (hwf : (volume fs d).WellFormed fs.rootCluster)
    (ho : (volume fs d).forest.Owns (rootOnly fs.rootCluster) o D true)
    (hl : (volume fs d).forest.Chain D l) (hr : ScanResult fs (volume fs d) name l slot)
    (hnone : slot.found = none) (hrun : FreeRun (volume fs d) l A [q] B)
    (hA : ∀ a ∈ A, ¬ ((volume fs d).entry a).IsFree) (hq : q ∈ (volume fs d).walked l)
    (hst : WriteSteps fs d q e text m n d₁ d₂ r d') :
    NewSlot fs d d' name D l l A q := by
  have hfree : ((volume fs d).entry q).IsFree := by
    rcases hrun.free [] q [] rfl with hdel | ⟨x, hx, h0⟩
    · exact .inr hdel
    · rw [List.mem_singleton.mp hx] at h0
      exact .inl h0
  have hslots : (volume fs d).slots l = A ++ q :: B := hrun.slots_eq
  obtain ⟨B', hw⟩ := walked_of_mem hl.1.nodup hslots hq
  have hneq : ∀ {o c}, (volume fs d).forest.Owns (rootOnly fs.rootCluster) o c true →
      o ≠ .ref q := by
    rintro o c hoc rfl
    cases hoc with
    | ref _ _ hr => exact hr.2.1.1 hfree
  refine ⟨written_of_same hwf.separated ho hl (mem_slots_of_walked hq) hneq hst, fun a ha => ?_,
    hr.passed_of_none hnone hw hA, ?_, ?_, .inl ⟨rfl, hfree, hA, B', hw⟩⟩
  · refine ⟨by rw [hslots]; simp [ha], ?_⟩
    rintro rfl
    exact hA a ha hfree
  · refine (hwf.slotsOk ho hl).lfn A (q :: B) hslots hrun.before fun x hx => ?_
    obtain rfl := Option.some.inj hx
    exact hfree
  · refine ⟨B', ?_⟩
    rw [walked, slots_disk d, ← walked, hw]

omit g in
theorem newSlot_grown {D x : ℕ} {o : Owner ℕ DirCursor} {B : List DirCursor} {slot : DirSlot}
    (hwf : (volume fs d).WellFormed fs.rootCluster)
    (ho : (volume fs d).forest.Owns (rootOnly fs.rootCluster) o D true)
    (hl : (volume fs d).forest.Chain D l) (hr : ScanResult fs (volume fs d) name l slot)
    (hnone : slot.found = none)
    (hrun : FreeRun (volume fs d₀) (l ++ [x]) ((volume fs d).slots l) [q] B)
    (hgr : Grown (volume fs d) (volume fs d₀) l x)
    (hfull : ∀ s ∈ (volume fs d).walked l, ¬ ((volume fs d).entry s).IsFree)
    (hlen : l.length < walkLimit) (hst : WriteSteps fs d₀ q e text m n d₁ d₂ r d') :
    NewSlot fs d d' name D l (l ++ [x]) ((volume fs d).slots l) q := by
  have hwalked : (volume fs d).walked l = (volume fs d).slots l := by
    rw [walked, List.take_of_length_le hlen.le]
  have hslots : (volume fs d₀).slots (l ++ [x]) = (volume fs d).slots l ++ q :: B := hrun.slots_eq
  have hnew : (volume fs d₀).slots [x] = q :: B := by
    rw [slots_append, slots_disk d] at hslots
    exact List.append_cancel_left hslots
  have hq : q ∈ (volume fs d₀).slots [x] := by
    rw [hnew]
    exact List.mem_cons_self
  have hqx : q.cluster = x := List.mem_singleton.mp (mem_slots.mp hq).1
  have hout : ∀ {c k}, (volume fs d).forest.Chain c k → q ∉ (volume fs d).slots k := fun hk hqk =>
    hgr.ne_of_used (hk.2 _ (mem_slots.mp hqk).1) hqx
  refine ⟨written_of_grown hwf.separated ho hl hgr hq hst, fun a ha => ⟨ha, ?_⟩,
    hr.passed_of_none (T := []) hnone (by rw [List.append_nil, hwalked]) (hwalked ▸ hfull), ?_,
    ⟨B, ?_⟩, .inr hout⟩
  · rintro rfl
    exact hout hl ha
  · refine (hwf.slotsOk ho hl).lfn _ [] (List.append_nil _).symm (fun a ha h0 => ?_) (by simp)
    exact hfull a (hwalked ▸ ha) (.inl h0)
  · rw [walked, List.take_of_length_le (by rw [List.length_append]; exact hlen), slots_disk d₀, hslots]

/-- A successful write to a new name is a round trip. -/
theorem roundTrip_new (hspc : fs.sectorsPerCluster < 2 ^ 8) (hlen : text.length ≤ 4096)
    (hwf : (volume fs d).WellFormed fs.rootCluster) (hfp : FilePath fs d path)
    (hsafe : EntrySafe fs d path)
    (hres : resolveTarget fs d path = some (p, name)) (hdir : DirAt fs d p l)
    (hnone : lookup fs d p name = none) (hok : (fat32WriteFile fs d path text).1 = true) :
    RoundTrip fs d (fat32WriteFile fs d path text).2 path text := by
  have hroot : 2 ≤ fs.rootCluster :=
    (hwf.separated.used_of_owns (.root ⟨rfl, rfl⟩) : (volume fs d).Used fs.rootCluster).1.1
  obtain ⟨o, ho⟩ := hdir.owner
  have hl := hdir.chain
  have hprint : ∀ x ∈ name, 32 ≤ x ∧ x ≤ 126 := fun x hx => hfp.printable x ((name_subset hres).1 hx)
  obtain ⟨slot, hscan, hlook, hr⟩ := g.dirScan_at hdir name
  rw [hnone] at hlook
  have hss : (volume fs d).SlotSafe l :=
    ⟨fun A q B hs _ h0 a ha => by
      rw [(hwf.slotsOk ho hl).zero A q B hs h0 a (List.mem_of_mem_head? ha)]
      rfl, fun hfull => (hsafe.grow p name l hres hdir hnone hfull).le⟩
  obtain ⟨r₀, d₀, htake, -, ⟨rfl, -⟩ | ⟨A, q, B, l', rfl, hrun, hA, hcase⟩⟩ :=
    g.takeSlot_spec hl hr hlook.symm hss
  · rw [fat32WriteFile, hres] at hok
    simp only [hscan, writeSlot, ← hlook, htake] at hok
    cases hok
  have hl₀ : (volume fs d₀).forest.Chain (dirHead fs p) l' := by
    rcases hcase with ⟨rfl, rfl, -⟩ | ⟨x, hgr, rfl, -⟩
    · exact hl
    · exact hgr.chain hl
  have hwrite : fat32WriteFile fs d path text = writeEntryAndData fs d₀ (dirCursorSector fs q)
      q.offsetInSector 0 ((volume fs d₀).block q) (shortEntry (formatFat32Name name) 0x20 0 0)
      text := by
    rw [fat32WriteFile, hres]
    simp only [hscan, writeSlot, ← hlook, htake, g.read, g.block_eq hl₀.2 hrun.place.mem_slots]
  rw [hwrite] at hok ⊢
  obtain ⟨r, d', hrest, ⟨m, n, d₁, d₂, hst⟩ | ⟨rfl, -⟩⟩ :=
    g.writeEntryAndData_spec hl₀.2 hrun.place.mem_slots
      (shortEntry (formatFat32Name name) 0x20 0 0) text
  swap
  · rw [hrest] at hok
    cases hok
  rw [hrest]
  have hself := hst.entry_self hl₀ hrun.place.mem_slots
  obtain ⟨hnamed, hmatch⟩ := shortEntry_matches (n := n) hprint text.length
  have hsame : ∀ t, entryMatches .clear (((shortEntry (formatFat32Name name) 0x20 0 0).setClus
      n).setSize text.length) t =
        entryMatches .clear (shortEntry (formatFat32Name name) 0x20 0 0) t := fun t => by
    rw [entryMatches, entryMatches, Entry.name_setClus_setSize]
  set e' := ((shortEntry (formatFat32Name name) 0x20 0 0).setClus n).setSize text.length with he'
  obtain ⟨w, hbefore, hpassed, hlfn, ⟨B', hw'⟩, hfresh⟩ :
      NewSlot fs d d' name (dirHead fs p) l l' A q := by
    rcases hcase with ⟨rfl, rfl, hq⟩ | ⟨x, hgr, rfl, -, rfl, hfull⟩
    · exact newSlot_same hwf ho hl hr hlook.symm hrun hA hq hst
    · have hfull' := firstFree_eq_none.mp hfull
      exact newSlot_grown hwf ho hl hr hlook.symm hrun hgr hfull'
        (hsafe.grow p name l hres hdir hnone hfull') hst
  have h0' : (volume fs d').entry q 0 ≠ 0 := by
    rw [hself]
    exact fun h => hnamed.1 (.inl h)
  -- the path leads to the same directory
  have hres' : resolveTarget fs d' path = some (p, name) := by
    rw [← hres]
    refine w.resolveTarget_eq g hroot hl hfp.dirs
      fun {h t k A' s B''} hx hdots hdirk hwk hA' hm _ => ?_
    have hslotk : ∀ a ∈ A' ++ s :: B'', a ∈ (volume fs d).slots k := fun a ha =>
      mem_slots_of_walked (hwk ▸ ha)
    rcases hfresh with ⟨rfl, hfree, hAfree, B₁, hw⟩ | hout
    · refine ⟨?_, fun A₁ A₂ hA₁ => ?_⟩
      · rintro rfl
        exact hm.1.1 hfree
      · -- the lookup is made in the same directory
        obtain ⟨o', ho'⟩ := hdirk.owner
        have hqk := hslotk q (by rw [hA₁]; simp)
        have hql : q ∈ (volume fs d).slots l' := mem_slots_of_walked (by rw [hw]; simp)
        obtain rfl := hwf.separated.disjoint ho' ho hdirk.chain hl (mem_slots.mp hqk).1
          (mem_slots.mp hql).1
        have hheads := (hwf.separated.owns_fun ho' ho).1
        have hkl : k = l' := (hheads ▸ hdirk.chain).unique hl
        subst hkl
        have hnd : ((volume fs d).walked k).Nodup := nodup_walked hl.1.nodup
        have hsplit : A ++ q :: B₁ = A₁ ++ q :: (A₂ ++ s :: B'') := by
          rw [← hw, hwk, hA₁]
          simp
        obtain ⟨rfl, rfl⟩ := split_unique (hw ▸ hnd) hsplit
        rw [hlfn, hself]
        refine ⟨?_, hself ▸ h0', fun hnot => ?_⟩
        · rw [lfnStep_of_named _ hnamed, lfnStep_of_free _ hfree]
          simp
        · rw [hsame] at hnot
          refine hsafe.shadow p name k hres hdir hnone (h, t) hx hdots hheads hnot.2 s _
            ⟨_, q, _, hw, hAfree, hfree, by simp⟩
            (g.lookup_eq hdirk.chain hwk hA' hm) ⟨rfl, rfl⟩
    · refine ⟨?_, fun A₁ A₂ hA₁ => ?_⟩
      · rintro rfl
        exact hout hdirk.chain (hslotk s (by simp))
      · exact absurd (hslotk q (by rw [hA₁]; simp)) (hout hdirk.chain)
  have hsteady : Steady (volume fs d) (volume fs d') name A :=
    steady_of_eq hpassed fun a ha =>
      w.entry_eq ho (w.ne ho) hl a (hbefore a ha).1 (hbefore a ha).2
  have hlook' := g.lookup_eq w.dir hw' hsteady.passed
    (by rw [Matches, hsteady.lfnAfter_eq, hlfn, hself]; exact ⟨hnamed, hmatch⟩)
  rw [hself] at hlook'
  refine w.roundTrip hwf ho hl h0' (g.fat32ReadFile_written hspc hlen hst hres' hlook') hres rfl
    ⟨p, name, _, hres', hlook', rfl, rfl⟩ (.inr fun _ hk hlive => ?_)
  rcases hfresh with ⟨-, hfree, -⟩ | hout
  · exact hlive.2 hfree
  · obtain ⟨A₁, B₁, hs, -⟩ := mem_beforeEnd.mp hlive.1
    exact hout hk (by rw [hs]; simp)

/-- A successful write reads back, and leaves all other files and directories alone. -/
theorem roundTrip_of_write (hspc : fs.sectorsPerCluster < 2 ^ 8) (hlen : text.length ≤ 4096)
    (hwf : (volume fs d).WellFormed fs.rootCluster) (hfp : FilePath fs d path)
    (hsafe : EntrySafe fs d path) (hok : (fat32WriteFile fs d path text).1 = true) :
    RoundTrip fs d (fat32WriteFile fs d path text).2 path text := by
  obtain ⟨p, name, l, hres, hdir, hfile⟩ := hfp.parent
  rcases hf : lookup fs d p name with _ | f
  · exact g.roundTrip_new hspc hlen hwf hfp hsafe hres hdir hf hok
  · obtain ⟨hfile, hdot⟩ := hfile f hf
    exact g.roundTrip_found hspc hlen hwf hfp.dirs hres hdir hf hfile hdot hok

end Geometry

/-! ## A directory hidden by a new file -/

/-- The slots `P` of a directory are in use, the others are zero. -/
theorem Volume.slotsOk_of_used {v : Volume} {l : List ℕ} (P T : List DirCursor)
    (hs : v.slots l = P ++ T) (hP : ∀ a ∈ P, v.entry a 0 ≠ 0) (hT : ∀ s ∈ T, v.entry s = Entry.zero)
    (hlfn : ∀ A B, P = A ++ B → (∀ p, B.head? = some p → (v.entry p).IsFree) →
      v.lfnAfter A = .clear) : v.SlotsOk l := by
  have hT0 : ∀ s ∈ T, v.entry s 0 = 0 := fun s hs => by
    rw [hT s hs]
    rfl
  refine ⟨fun A B hAB hA hB => ?_, fun A p B hAB h0 s hs' => ?_⟩
  · rw [hs] at hAB
    rcases List.append_eq_append_iff.mp hAB with ⟨S, rfl, hS⟩ | ⟨S, hS, rfl⟩
    · cases S with
      | nil => exact hlfn _ [] (by simp) (by simp)
      | cons x S => exact absurd (hT0 x (by rw [hS]; simp)) (hA x (by simp))
    · refine hlfn A S hS fun p hp => hB p ?_
      rw [List.head?_append, hp]
      rfl
  · rw [hs] at hAB
    rcases List.append_eq_append_iff.mp hAB with ⟨S, rfl, hS⟩ | ⟨S, hS, hB⟩
    · exact hT s (by rw [hS]; simp [hs'])
    · cases S with
      | nil =>
        rw [List.nil_append] at hB
        exact hT s (by rw [← hB]; simp [hs'])
      | cons x S =>
        obtain ⟨rfl, -⟩ := List.cons.inj hB
        exact absurd h0 (hP p (by rw [hS]; simp))

/-- A long name that the entry of a file ends. -/
theorem Volume.lfnAfter_named {v : Volume} {A : List DirCursor} {p : DirCursor}
    (hp : (v.entry p).IsNamed) (h : v.lfnAfter A 0 ≠ 0 ∨ v.lfnAfter A = .clear) :
    v.lfnAfter (A ++ [p]) = .clear := by
  rw [lfnAfter_snoc, lfnStep_of_named _ hp]
  rcases h with h | h
  · exact if_pos h
  · rw [h]
    exact ite_self _

instance : DecidableEq Entry := inferInstanceAs (DecidableEq (Fin 32 → UInt8))

/-- `longdirname`, its alias `LONGDI~1`, and the path `longdirname/../LONGDIRN`. -/
def longName : CString := [108, 111, 110, 103, 100, 105, 114, 110, 97, 109, 101]

def longAlias : List UInt8 := [76, 79, 78, 71, 68, 73, 126, 49, 32, 32, 32]

def shadowPath : CString := longName ++ [slash, dot, dot, slash, 76, 79, 78, 71, 68, 73, 82, 78]

/-- A volume whose root directory holds a deleted entry and the directory `longdirname` behind it. -/
def shadowDisk : Disk where
  sectors s :=
    if s = 1 then tableOf [2, 3]
    else if s = 2 then
      ((Block.zero.put 0 deleted).setEntry 32 (lfnEntry longName (lfnChecksum longAlias) 1 1)).setEntry
        64 (shortEntry longAlias 0x10 3 0)
    else if s = 3 then newDirSector 3 2
    else Block.zero
  log := []

/-- A volume with a checked listing whose directories are in order is well formed. -/
theorem Volume.wellFormed_of_check {v : Volume} {root : ℕ} (top : List ℕ) (rest : List Listed)
    (h : v.Check root top rest)
    (hdirs : ∀ r ∈ listing top rest, r.dir = true → v.SlotsOk r.clusters) : v.WellFormed root := by
  refine ⟨(consistent_of_check top rest h).toSeparated, fun {o c l} ho hl => ?_⟩
  obtain ⟨r, hr, -, hdir, -, hrc⟩ := h.listed ho
  obtain rfl := hl.unique hrc
  exact hdirs r hr hdir.symm

theorem shadowDisk_check : (volume tinyFs shadowDisk).Check 2 [2] [⟨some ⟨2, 0, 64⟩, true, [3]⟩] := by
  decide +kernel

/-- A directory with one entry, and one with two. -/
theorem slotsOk_one {d : Disk} {c : ℕ} (h0 : ((volume tinyFs d).entry ⟨c, 0, 0⟩).IsNamed)
    (hz : ∀ s ∈ ((volume tinyFs d).slots [c]).drop 1, (volume tinyFs d).entry s = Entry.zero) :
    (volume tinyFs d).SlotsOk [c] := by
  refine slotsOk_of_used [⟨c, 0, 0⟩] (((volume tinyFs d).slots [c]).drop 1) rfl (fun a ha => ?_) hz
    fun A B hAB hB => ?_
  · rw [List.mem_singleton.mp ha]
    exact fun h => h0.1 (.inl h)
  · rcases List.append_eq_cons_iff.mp hAB.symm with ⟨rfl, rfl⟩ | ⟨A, rfl, hA⟩
    · rfl
    · obtain ⟨rfl, rfl⟩ := List.append_eq_nil_iff.mp hA.symm
      exact lfnAfter_named h0 (.inr rfl) (A := [])

theorem slotsOk_two {d : Disk} {c : ℕ} (h0 : ((volume tinyFs d).entry ⟨c, 0, 0⟩).IsNamed)
    (h1 : ((volume tinyFs d).entry ⟨c, 0, 32⟩).IsNamed)
    (hz : ∀ s ∈ ((volume tinyFs d).slots [c]).drop 2, (volume tinyFs d).entry s = Entry.zero) :
    (volume tinyFs d).SlotsOk [c] := by
  have hfirst := lfnAfter_named h0 (.inr rfl) (A := [])
  refine slotsOk_of_used [⟨c, 0, 0⟩, ⟨c, 0, 32⟩] (((volume tinyFs d).slots [c]).drop 2) rfl
    (fun a ha => ?_) hz fun A B hAB hB => ?_
  · rcases List.mem_pair.mp ha with rfl | rfl
    · exact fun h => h0.1 (.inl h)
    · exact fun h => h1.1 (.inl h)
  · rcases List.append_eq_cons_iff.mp hAB.symm with ⟨rfl, rfl⟩ | ⟨A, rfl, hA⟩
    · rfl
    · rcases List.append_eq_cons_iff.mp hA.symm with ⟨rfl, rfl⟩ | ⟨A, rfl, hA'⟩
      · exact hfirst
      · obtain ⟨rfl, rfl⟩ := List.append_eq_nil_iff.mp hA'.symm
        exact lfnAfter_named h1 (.inr hfirst) (A := [_])

theorem shadowDisk_wellFormed : (volume tinyFs shadowDisk).WellFormed tinyFs.rootCluster := by
  refine wellFormed_of_check [2] _ shadowDisk_check fun r hr _ => ?_
  rcases List.mem_pair.mp hr with rfl | rfl
  · refine slotsOk_of_used [⟨2, 0, 0⟩, ⟨2, 0, 32⟩, ⟨2, 0, 64⟩]
      (((volume tinyFs shadowDisk).slots [2]).drop 3) rfl (by decide +kernel) (by decide +kernel)
      fun A B hAB hB => ?_
    -- only the first slot is free
    have hused : ∀ s ∈ [(⟨2, 0, 32⟩ : DirCursor), ⟨2, 0, 64⟩],
        ¬ ((volume tinyFs shadowDisk).entry s).IsFree := by decide +kernel
    rcases List.append_eq_cons_iff.mp hAB.symm with ⟨rfl, rfl⟩ | ⟨A, rfl, hA⟩
    · rfl
    · rcases List.append_eq_cons_iff.mp hA.symm with ⟨rfl, rfl⟩ | ⟨A, rfl, hA'⟩
      · exact absurd (hB _ rfl) (hused _ (by simp))
      · rcases List.append_eq_cons_iff.mp hA'.symm with ⟨rfl, rfl⟩ | ⟨A, rfl, hA''⟩
        · exact absurd (hB _ rfl) (hused _ (by simp))
        · obtain ⟨rfl, rfl⟩ := List.append_eq_nil_iff.mp hA''.symm
          have hbuf : (volume tinyFs shadowDisk).lfnAfter [⟨2, 0, 0⟩, ⟨2, 0, 32⟩] 0 ≠ 0 := by
            decide +kernel
          exact lfnAfter_named (A := [_, _]) (by decide +kernel) (.inl hbuf)
  · exact slotsOk_two (by decide +kernel) (by decide +kernel) (by decide +kernel)

theorem shadowDisk_filePath : FilePath tinyFs shadowDisk shadowPath where
  printable := by decide +kernel
  dirs := by
    have hroot : (volume tinyFs shadowDisk).ChainOk [2] := by decide +kernel
    have hsub : (volume tinyFs shadowDisk).ChainOk [3] := by decide +kernel
    have hown := shadowDisk_check.owned ⟨some ⟨2, 0, 64⟩, true, [3]⟩ (by simp [listing])
    have hlook : lookups tinyFs shadowDisk shadowPath = [(2, longName), (3, [dot, dot])] := by
      decide +kernel
    intro x hx
    rw [hlook] at hx
    rcases List.mem_pair.mp hx with rfl | rfl
    · refine ⟨⟨[2], ⟨⟨.root 2 true, .root ⟨rfl, rfl⟩⟩, chain_of_chainOk hroot⟩⟩, .inr
        ⟨⟨2, 64, 3, 0⟩, by decide +kernel, by decide +kernel⟩⟩
    · refine ⟨⟨[3], ⟨⟨_, hown⟩, chain_of_chainOk hsub⟩⟩, .inr
        ⟨⟨3, 32, 2, 0⟩, by decide +kernel, by decide +kernel⟩⟩
  parent := by
    have hroot : (volume tinyFs shadowDisk).ChainOk [2] := by decide +kernel
    have hnone : lookup tinyFs shadowDisk 2 [76, 79, 78, 71, 68, 73, 82, 78] = none := by
      decide +kernel
    refine ⟨2, [76, 79, 78, 71, 68, 73, 82, 78], [2], by decide +kernel,
      ⟨⟨.root 2 true, .root ⟨rfl, rfl⟩⟩, chain_of_chainOk hroot⟩, fun f hf => ?_⟩
    exact nomatch hnone.symm.trans hf

/-- The new file hides the directory its own path goes through. -/
theorem not_roundTrip_shadowDisk :
    ¬ ∀ (fs : Fat32Instance) (d : Disk) (path : CString) (text : List UInt8), Geometry fs →
      fs.sectorsPerCluster < 2 ^ 8 → text.length ≤ 4096 → path.length ≤ 63 →
      (volume fs d).WellFormed fs.rootCluster → FilePath fs d path →
      (fat32WriteFile fs d path text).1 = true →
        RoundTrip fs d (fat32WriteFile fs d path text).2 path text := by
  intro h
  have hread := (h tinyFs shadowDisk shadowPath [120] tinyFs_geometry (by decide) (by decide)
    (by decide) shadowDisk_wellFormed shadowDisk_filePath (by decide +kernel)).read
  have hnone : fat32ReadFile tinyFs (fat32WriteFile tinyFs shadowDisk shadowPath [120]).2 shadowPath
      0 = none := by decide +kernel
  exact nomatch hnone.symm.trans hread

/-- Overwriting a file in the root directory. -/
theorem roundTrip_of_write_byteFile :
    RoundTrip tinyFs (fileDisk byteEntry [2, 3])
      (fat32WriteFile tinyFs (fileDisk byteEntry [2, 3]) [70] [120]).2 [70] [120] := by
  have hcheck : (volume tinyFs (fileDisk byteEntry [2, 3])).Check 2 [2]
      [⟨some ⟨2, 0, 0⟩, false, [3]⟩] := by decide +kernel
  have hfound : lookup tinyFs (fileDisk byteEntry [2, 3]) 2 [70] = some ⟨2, 0, 3, 1⟩ := by
    decide +kernel
  have hres : resolveTarget tinyFs (fileDisk byteEntry [2, 3]) [70] = some (2, [70]) := by
    decide +kernel
  have hsafe : EntrySafe tinyFs (fileDisk byteEntry [2, 3]) [70] := by
    refine ⟨fun p name l hp _ hn => ?_, fun p name l hp _ hn => ?_⟩
    all_goals
      obtain ⟨rfl, rfl⟩ := Prod.mk.inj (Option.some.inj (hres.symm.trans hp))
      exact nomatch hfound.symm.trans hn
  refine tinyFs_geometry.roundTrip_of_write (by decide) (by decide) ?_ ⟨by decide +kernel, ?_, ?_⟩
    hsafe (by decide +kernel)
  · refine wellFormed_of_check [2] _ hcheck fun r hr hdir => ?_
    rcases List.mem_pair.mp hr with rfl | rfl
    · exact slotsOk_one (by decide +kernel) (by decide +kernel)
    · exact nomatch hdir
  · exact byteFile_regular.dirs
  · have hroot : (volume tinyFs (fileDisk byteEntry [2, 3])).ChainOk [2] := by decide +kernel
    refine ⟨2, [70], [2], hres, ⟨⟨.root 2 true, .root ⟨rfl, rfl⟩⟩, chain_of_chainOk hroot⟩,
      fun f hf => ?_⟩
    obtain rfl := Option.some.inj (hfound.symm.trans hf)
    exact ⟨byteFile_regular.file, byteFile_regular.notDot⟩

end PsychWard.Fat32
