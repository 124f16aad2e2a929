import PsychWard.Fat32.SlotSpec
import PsychWard.Fat32.DataSpec
import PsychWard.Fat32.EntrySpec

/-!
# Storing files

What the operations that store an entry do to the directory tree: `touch` stores an entry without
clusters, `mkdir` allocates a directory and names it, a write frees the chain the entry had, allocates
another one and stores the entry over the old one.

Between the writes the tree is not consistent. The proofs go through a volume that differs from the
disk in the entry's slot only, in which the entry already stands for nothing.
-/

namespace PsychWard.Fat32

namespace Volume

variable {v v' w : Volume} {X X' : ℕ → Bool → Prop} {o : Owner ℕ DirCursor} {D c n : ℕ} {b : Bool}
  {l m : List ℕ} {A B R : List DirCursor} {q : DirCursor}

/-- The slots `R` of the directory `l` may be stored over: those before them are in use, and if the
end mark is among them the slot behind them is one too. -/
structure Place (v : Volume) (l : List ℕ) (A R B : List DirCursor) : Prop where
  slots_eq : v.slots l = A ++ (R ++ B)
  before : ∀ p ∈ A, v.entry p 0 ≠ 0
  tail : (∀ p ∈ R, v.entry p 0 ≠ 0) ∨ ∀ p, B.head? = some p → v.entry p 0 = 0

theorem FreeRun.place (h : FreeRun v l A R B) : Place v l A R B :=
  ⟨h.slots_eq, h.before, by
    by_cases h0 : ∃ e ∈ R, v.entry e 0 = 0
    · exact .inr (h.tail h0)
    · exact .inl fun p hp hp0 => h0 ⟨p, hp, hp0⟩⟩

namespace Place

theorem stored (h : Place v l A R B) (he : Edit v v' R) (hne : ∀ p ∈ R, v'.entry p 0 ≠ 0) :
    Stored v v' l A R B := ⟨he, h.slots_eq, h.before, hne, h.tail⟩

theorem mem_slots (h : Place v l A [q] B) : q ∈ v.slots l := by
  rw [h.slots_eq]
  simp

theorem congr (h : Place v l A R B) (hspc : v'.sectorsPerCluster = v.sectorsPerCluster)
    (heq : ∀ p ∈ v.slots l, v'.entry p = v.entry p) : Place v' l A R B := by
  rw [h.slots_eq] at heq
  refine ⟨(slots_congr hspc l).trans h.slots_eq, fun p hp => ?_, ?_⟩
  · rw [heq p (by simp [hp])]
    exact h.before p hp
  · refine h.tail.imp (fun ht p hp => ?_) fun ht p hp => ?_
    · rw [heq p (by simp [hp])]
      exact ht p hp
    · rw [heq p (by simp [List.mem_of_mem_head? hp])]
      exact ht p hp

/-- Storing an entry over the only slot of the place. -/
theorem setEntry (h : Place v l A [q] B) {e : Entry} (he : e 0 ≠ 0) :
    Stored v (v.setEntry q e) l A [q] B := by
  obtain ⟨h1, h2⟩ := setEntry_edit (aligned_of_slots h.mem_slots) e
  refine h.stored h1 fun p hp => ?_
  rw [List.mem_singleton.mp hp, h2]
  exact he

/-- The place after its slot was stored over. -/
theorem after (h : Place v l A [q] B) (hl : l.Nodup) (hE : Edit v w [q]) (h0 : w.entry q 0 ≠ 0) :
    Place w l A [q] B := by
  have hal : ∀ p ∈ v.slots l, p ≠ q → w.entry p = v.entry p := fun p hp hne =>
    hE.entry_eq p (aligned_of_slots hp) (by simpa using hne)
  have hq : q ∉ A := by
    have hnd := v.nodup_slots hl
    rw [h.slots_eq] at hnd
    exact fun hA => (List.nodup_append.mp hnd).2.2 q hA q (by simp) rfl
  refine ⟨(slots_congr hE.sectorsPerCluster l).trans h.slots_eq, fun p hp => ?_, ?_⟩
  · rw [hal p (by rw [h.slots_eq]; simp [hp]) fun heq => hq (heq ▸ hp)]
    exact h.before p hp
  · exact .inl fun p hp => by rwa [List.mem_singleton.mp hp]

end Place

theorem Edit.symm (h : Edit v v' R) : Edit v' v R where
  clusters := h.clusters.symm
  sectorsPerCluster := h.sectorsPerCluster.symm
  fat := h.fat.symm
  entry_eq p hp hR := (h.entry_eq p hp hR).symm
  data_eq c hc := (h.data_eq c hc).symm

theorem Edit.freeClusters (h : Edit v v' R) : v'.freeClusters = v.freeClusters := by
  rw [Volume.freeClusters, Volume.freeClusters, h.clusters, h.fat]

/-- Replace the contents of a cluster. -/
def setCluster (v : Volume) (c : ℕ) (x : ℕ → Block) : Volume :=
  { v with data := Function.update v.data c x }

theorem setCluster_data_self (c : ℕ) (x : ℕ → Block) : (v.setCluster c x).data c = x :=
  Function.update_self _ _ _

theorem setCluster_data_of_ne {c d : ℕ} (x : ℕ → Block) (h : d ≠ c) :
    (v.setCluster c x).data d = v.data d :=
  Function.update_of_ne h _ _

/-- An allocation carries over to a volume that differs in slots of a cluster it does not take. -/
theorem Allocated.of_edit (h : Allocated v v' m) (hE : Edit w v [q]) (hq : q.cluster ∉ m) :
    ∃ w', Allocated w w' m ∧ Edit w' v' [q] ∧ w'.data q.cluster = w.data q.cluster := by
  have hne : ∀ c, c ≠ q.cluster → v.data c = w.data c := fun c hc =>
    hE.data_eq c (by simpa using Ne.symm hc)
  refine ⟨v'.setCluster q.cluster (w.data q.cluster),
    ⟨h.clusters.trans hE.clusters, h.sectorsPerCluster.trans hE.sectorsPerCluster, fun c hc => ?_,
      h.fat_ne_zero, h.walk, fun c hc => ?_, fun c hc k hk => ?_⟩,
    ⟨rfl, rfl, rfl, fun p hp hpq => ?_, fun c hc => ?_⟩, setCluster_data_self _ _⟩
  · rw [← hE.fat]
    exact h.fat_eq c hc
  · by_cases hcq : c = q.cluster
    · subst hcq
      exact setCluster_data_self _ _
    · rw [setCluster_data_of_ne _ hcq, h.data_eq c hc, hne c hcq]
  · have hcq : c ≠ q.cluster := fun heq => hq (heq ▸ hc)
    rw [setCluster_data_of_ne _ hcq]
    exact h.data_zero c hc k (hE.sectorsPerCluster ▸ hk)
  · by_cases hcq : p.cluster = q.cluster
    · have h1 : v'.entry p = v.entry p := by rw [entry, entry, h.data_eq _ (hcq ▸ hq)]
      rw [h1, hE.entry_eq p hp hpq, entry, entry, hcq, setCluster_data_self]
    · rw [entry, entry, setCluster_data_of_ne _ hcq]
  · have hcq : c ≠ q.cluster := by simpa using fun heq => hc q (by simp) (Eq.symm heq)
    exact (setCluster_data_of_ne _ hcq).symm

/-- The roots `X` and the chain from `n`. -/
def withRoot (X : ℕ → Bool → Prop) (n : ℕ) (b : Bool) (c : ℕ) (b' : Bool) : Prop :=
  X c b' ∨ c = n ∧ b' = b

/-- Without the added root the roots are the old ones. -/
theorem withRoot_iff (h : ¬ X n b) (c : ℕ) (b' : Bool) :
    X c b' ↔ withRoot X n b c b' ∧ ¬ (c = n ∧ b' = b) := by
  constructor
  · exact fun hX => ⟨.inl hX, fun heq => h (by rwa [heq.1, heq.2] at hX)⟩
  · rintro ⟨hX | hX, hne⟩
    · exact hX
    · exact absurd hX hne

/-- What an entry stands for is no root. -/
theorem not_root_of_ref (hc : v.forest.Consistent X) (ho : v.forest.Owns X (.ref q) n b) :
    ¬ X n b := fun hX => nomatch hc.owner_unique ho (.root hX)

/-- `v'` differs from `v` in the data of the clusters `l` only. -/
structure DataOnly (v v' : Volume) (l : List ℕ) : Prop where
  clusters : v'.clusters = v.clusters
  sectorsPerCluster : v'.sectorsPerCluster = v.sectorsPerCluster
  fat : v'.fat = v.fat
  data_eq : ∀ c ∉ l, v'.data c = v.data c

theorem DataOnly.refl (v : Volume) (l : List ℕ) : DataOnly v v l := ⟨rfl, rfl, rfl, fun _ _ => rfl⟩

theorem DataOnly.trans {v'' : Volume} (h : DataOnly v v' l) (h' : DataOnly v' v'' l) :
    DataOnly v v'' l :=
  ⟨h'.clusters.trans h.clusters, h'.sectorsPerCluster.trans h.sectorsPerCluster,
    h'.fat.trans h.fat, fun c hc => (h'.data_eq c hc).trans (h.data_eq c hc)⟩

theorem DataOnly.eq_of_nil (h : DataOnly v v' []) : v' = v := by
  obtain ⟨h1, h2, h3, h4⟩ := h
  have hd : v'.data = v.data := funext fun c => h4 c (by simp)
  cases v
  cases v'
  simp_all

theorem Allocated.eq_of_nil (h : Allocated v v' []) : v' = v :=
  DataOnly.eq_of_nil ⟨h.clusters, h.sectorsPerCluster, funext fun c => h.fat_eq c (by simp),
    h.data_eq⟩

/-- The contents of a file are no part of the tree. -/
theorem DataOnly.consistent (h : DataOnly v v' m) (hc : v.forest.Consistent X)
    (ho : v.forest.Owns X o c false) (hm : v.forest.Chain c m) : v'.forest.Consistent X := by
  refine frame_data hc h.clusters h.sectorsPerCluster h.fat fun {o' d' k} ho' hk x hx => ?_
  refine h.data_eq x fun hxm => ?_
  obtain rfl := hc.disjoint ho' ho hk hm hx hxm
  exact absurd (hc.owns_fun ho' ho).2 (by simp)

section Entry

variable (hc : v.forest.Consistent X) (ho : v.forest.Owns X o D true) (hl : v.forest.Chain D l)
  (hp : Place v l A [q] B)

include hc ho hl hp

/-- The entry in the slot becomes one that stands for nothing, and its chain a root. -/
theorem Place.detach {e : Entry} (hq : v.forest.refs l q c b) (he : e 0 ≠ 0)
    (hnew : ∀ c b, ¬ e.Refers c b) :
    (v.setEntry q e).forest.Consistent (withRoot X c b) ∧
      (v.setEntry q e).forest.Owns X o D true := by
  have hst := hp.setEntry he
  refine hst.detach hc ho hl (q := q) (fun _ _ => Iff.rfl) (by simp) hq (fun p hp' hne => ?_)
    fun p hp' => ?_
  · exact absurd (List.mem_singleton.mp hp') hne
  · rw [List.mem_singleton.mp hp', (setEntry_edit (aligned_of_slots hp.mem_slots) e).2]
    exact hnew

/-- A free chain is allocated and the entry in the slot names it. `u` is the volume with another
entry in the slot. -/
theorem Place.attach {u u' : Volume} {e : Entry} (hE : Edit v u [q]) (hq : ∀ c b, ¬ v.forest.refs l q c b)
    (hal : Allocated u u' m) (hm : m ⊆ u.freeClusters) (hn : m.head? = some n)
    (hspc : 0 < v.sectorsPerCluster) (he : e.Refers n b) :
    u'.block q = u.block q ∧ (u'.setEntry q e).forest.Consistent X ∧
      (u'.setEntry q e).forest.Owns X (.ref q) n b ∧ (u'.setEntry q e).forest.Chain n m := by
  have hmw : m ⊆ v.freeClusters := hE.freeClusters ▸ hm
  have hout : ∀ x, v.Used x → x ∉ m := fun x hx hxm => not_used_of_free (hmw hxm) hx
  have hql : q.cluster ∈ l := (Volume.mem_slots.mp hp.mem_slots).1
  have hqm : q.cluster ∉ m := hout _ (hl.2 _ hql)
  obtain ⟨w', hal', hE', -⟩ := hal.of_edit hE hqm
  have hdata : ∀ x ∈ l, w'.data x = v.data x := fun x hx => hal'.data_eq x (hout x (hl.2 x hx))
  have hc' : w'.forest.Consistent (withRoot X n b) :=
    hal'.consistent hc hmw hn hspc fun _ _ => Iff.rfl
  have ho' : w'.forest.Owns X o D true := hal'.owns hc hmw ho
  have hoX : w'.forest.Owns (withRoot X n b) o D true := ho'.mono fun _ _ => .inl
  have hl' : w'.forest.Chain D l := hal'.chain hmw hl
  have hp' : Place w' l A [q] B := hp.congr hal'.sectorsPerCluster fun p hp => by
    rw [entry, entry, hdata _ (Volume.mem_slots.mp hp).1]
  have hold : ∀ p ∈ [q], ∀ c b, ¬ w'.forest.refs l p c b := fun p hp c b hr => by
    rw [List.mem_singleton.mp hp] at hr
    exact hq c b ((refs_congr_data hal'.sectorsPerCluster hdata).mp hr)
  obtain ⟨hE₁, hent⟩ := setEntry_edit (v := u') (aligned_of_slots hp.mem_slots) e
  have href : ((u'.setEntry q e).entry q).Refers n b := by rwa [hent]
  have hE₂ : Edit w' (u'.setEntry q e) [q] := (hE'.trans hE₁).mono (by simp)
  have hst : Stored w' (u'.setEntry q e) l A [q] B := hp'.stored hE₂ fun p hp => by
    rw [List.mem_singleton.mp hp, hent]
    exact fun h0 => he.1.1 (.inl h0)
  have hX : ¬ X n b := fun hX =>
    hout n (hc.used_of_owns (.root hX)) (List.mem_of_mem_head? hn)
  refine ⟨by rw [block, block, hal.data_eq _ hqm], ?_, ?_, ?_⟩
  · exact hst.attach hc' hoX hl' (.inr ⟨rfl, rfl⟩) (withRoot_iff hX) ho' hold (q := q)
      (List.mem_singleton_self q) href fun p hp hne => absurd (List.mem_singleton.mp hp) hne
  · refine .ref (hst.owns hc' hoX hl' hold (fun _ _ => .inl) ho') (hE₂.chain hl').1 ?_
    exact (hst.refs hl'.1.nodup).mpr (.inr ⟨List.mem_singleton_self q, href⟩)
  · exact hE₂.chain (Geometry.allocated_chain hal' (fun x hx => (mem_freeClusters.mp (hmw hx)).1) hn)

end Entry

end Volume

/-- The sectors of a chain. -/
def ChainArea (fs : Fat32Instance) (l : List ℕ) (s : ℕ) : Prop :=
  ∃ a ∈ l, ∃ k < fs.sectorsPerCluster, s = dataSector fs a k

/-- The steps of a write that stores `text` and the entry `e` in the slot `q`: the clusters `m` are
allocated, `n` is the first of them, then the entry and then the contents are stored. -/
structure WriteSteps (fs : Fat32Instance) (d : Disk) (q : DirCursor) (e : Entry) (text : List UInt8)
    (m : List ℕ) (n : ℕ) (d₁ d₂ : Disk) (r : Bool) (d' : Disk) : Prop where
  alloc : Writes (Geometry.AllocArea fs (volume fs d)) d d₁
  allocated : Volume.Allocated (volume fs d) (volume fs d₁) m
  sub : m ⊆ (volume fs d).freeClusters
  empty : text = [] → m = [] ∧ n = 0
  head : text ≠ [] → m = (volume fs d).freeClusters.take (needClusters fs text.length) ∧
    m.length = needClusters fs text.length ∧ m.head? = some n
  entry : d₂ = d₁.write (dirCursorSector fs q) (((volume fs d).block q).setEntry q.offsetInSector
    ((e.setClus n).setSize text.length))
  volume_entry : volume fs d₂ =
    (volume fs d₁).setEntry q ((e.setClus n).setSize text.length)
  dataOnly : Volume.DataOnly (volume fs d₂) (volume fs d') m
  data : Writes (ChainArea fs m) d₂ d'
  result : text.length ≤ 512 * (m.length * fs.sectorsPerCluster) → r = true ∧
    volume fs d' = (volume fs d₂).storeSectors (sectorsFrom fs.sectorsPerCluster m 0) text

theorem WriteSteps.writes {fs : Fat32Instance} {d d₁ d₂ d' : Disk} {q : DirCursor} {e : Entry}
    {text : List UInt8} {m : List ℕ} {n : ℕ} {r : Bool}
    (h : WriteSteps fs d q e text m n d₁ d₂ r d') : Writes (fun _ => True) d d' := by
  refine (h.alloc.mono fun _ _ => trivial).trans (.trans ?_ (h.data.mono fun _ _ => trivial))
  rw [h.entry]
  exact .single trivial _

namespace Geometry

variable {fs : Fat32Instance} (g : Geometry fs) {c : ℕ} {d : Disk} {l : List ℕ}

include g

/-- The writing loop stores in the clusters of the chain only, also when the chain is too short. -/
theorem writeChainLoop_dataOnly (fuel : ℕ) (data : List UInt8) (s : ℕ) (d : Disk)
    (h : (volume fs d).forest.Chain c l) (hs : s < fs.sectorsPerCluster) :
    ∃ r d', writeChainLoop fs fuel data c s d = (r, d') ∧
      Volume.DataOnly (volume fs d) (volume fs d') l ∧ Writes (ChainArea fs l) d d' := by
  induction fuel generalizing c l data s d with
  | zero => exact ⟨_, d, rfl, .refl _ _, .refl _ _⟩
  | succ fuel ih =>
    obtain ⟨t, rfl⟩ := h.1.eq_cons
    have hu : (volume fs d).Used c := h.2 c (by simp)
    have hc : 2 ≤ c ∧ c < fs.clusters := hu.1
    rw [writeChainLoop]
    by_cases hnil : data = []
    · exact ⟨_, d, if_pos hnil, .refl _ _, .refl _ _⟩
    · rw [if_neg hnil, if_neg (show ¬ c < 2 by omega), g.sector_eq hc hs, g.write]
      simp only
      set d₁ := d.write (dataSector fs c s) (Block.ofList (data.take fs.bytesPerSector))
      have hv : volume fs d₁ =
          (volume fs d).setData c s (Block.ofList (data.take fs.bytesPerSector)) :=
        g.volume_write_data hc hs _
      have h₁ : (volume fs d₁).forest.Chain c (c :: t) := by
        rw [hv]
        exact Volume.chain_congr h rfl fun _ _ => rfl
      have hone : Volume.DataOnly (volume fs d) (volume fs d₁) (c :: t) := by
        rw [hv]
        refine ⟨rfl, rfl, rfl, fun x hx => ?_⟩
        exact Function.update_of_ne (fun heq => hx (by simp [heq])) _ _
      have hw₁ : Writes (ChainArea fs (c :: t)) d d₁ := .single ⟨c, by simp, s, hs, rfl⟩ _
      by_cases hs' : fs.sectorsPerCluster ≤ s + 1
      · rw [if_pos hs', g.fatGetEntry_eq hc.2]
        by_cases hr : data.drop fs.bytesPerSector = []
        · rw [if_pos hr]
          exact ⟨_, d₁, rfl, hone, hw₁⟩
        · rw [if_neg hr]
          rcases clusterHasNext_chain h₁ with ⟨rfl, hno⟩ | ⟨b, u, rfl, hhas, hb, ht⟩
          · rw [hno, if_neg (by simp)]
            exact ⟨_, d₁, rfl, hone, hw₁⟩
          · rw [hhas, if_pos rfl, hb]
            obtain ⟨r, d', e1, e2, e3⟩ := ih (data.drop fs.bytesPerSector) 0 d₁ ht g.sectors_pos
            refine ⟨r, d', e1, hone.trans ⟨e2.clusters, e2.sectorsPerCluster, e2.fat, ?_⟩,
              hw₁.trans (e3.mono ?_)⟩
            · exact fun x hx => e2.data_eq x fun hxt => hx (List.mem_cons_of_mem _ hxt)
            · rintro x ⟨a, ha, hx⟩
              exact ⟨a, List.mem_cons_of_mem _ ha, hx⟩
      · rw [if_neg hs']
        obtain ⟨r, d', e1, e2, e3⟩ := ih (data.drop fs.bytesPerSector) (s + 1) d₁ h₁ (by omega)
        exact ⟨r, d', e1, hone.trans e2, hw₁.trans e3⟩

/-- What the part of a write behind the choice of the slot does when there is nothing to free: it runs
through, or it finds too few clusters and stores nothing. -/
theorem writeEntryAndData_spec (hl : ∀ x ∈ l, (volume fs d).Used x) {q : DirCursor}
    (hq : q ∈ (volume fs d).slots l) (e : Entry) (text : List UInt8) :
    ∃ r d', writeEntryAndData fs d (dirCursorSector fs q) q.offsetInSector 0
        ((volume fs d).block q) e text = (r, d') ∧
      ((∃ m n d₁ d₂, WriteSteps fs d q e text m n d₁ d₂ r d') ∨
        r = false ∧ text ≠ [] ∧ Writes (AllocArea fs (volume fs d)) d d' ∧
          ¬ (0 < needClusters fs text.length ∧
            needClusters fs text.length ≤ (volume fs d).freeClusters.length) ∧
          GivenBack (volume fs d) (volume fs d') ∧
          (needClusters fs text.length ≤ (volume fs d).freeClusters.length →
            volume fs d' = volume fs d)) := by
  rw [writeEntryAndData, if_neg (show ¬ 2 ≤ 0 by omega)]
  by_cases ht : text = []
  · subst ht
    rw [if_pos rfl]
    simp only [ne_eq, not_true_eq_false, false_and, if_false, g.write, if_true]
    refine ⟨_, _, rfl, .inl ⟨[], 0, d, _, .refl _ _, allocated_nil _, by simp, fun _ => ⟨rfl, rfl⟩,
      fun h => absurd rfl h, rfl, ?_, .refl _ _, .refl _ _, fun _ => ⟨rfl, ?_⟩⟩⟩
    · exact g.volume_write_slot hl hq _
    · exact (Volume.storeSectors_nil _).symm
  · rw [if_neg ht]
    obtain ⟨n, d₁, hn, hw, hsome, hnone⟩ := g.fatAllocChain_spec (needClusters fs text.length) d
    rw [hn]
    simp only
    by_cases hroom : 0 < needClusters fs text.length ∧
        needClusters fs text.length ≤ (volume fs d).freeClusters.length
    · obtain ⟨hr, hal⟩ := hsome hroom.2
      set m := (volume fs d).freeClusters.take (needClusters fs text.length) with hm
      have hlen : m.length = needClusters fs text.length := by
        rw [hm, List.length_take]
        omega
      have hsub : m ⊆ (volume fs d).freeClusters := List.take_subset _ _
      obtain ⟨n', hhead⟩ : ∃ n', m.head? = some n' := by
        cases hmc : m with
        | nil => rw [hmc, List.length_nil] at hlen; omega
        | cons n' t => exact ⟨n', rfl⟩
      obtain rfl : n = n' := by rw [hr, List.headD_eq_head?_getD, hhead]; rfl
      have hin := (Volume.mem_freeClusters.mp (hsub (List.mem_of_mem_head? hhead))).1
      rw [if_neg (show ¬ (text ≠ [] ∧ n = 0) by have := hin.1; omega), g.write]
      simp only
      rw [if_neg ht]
      have hqm : q.cluster ∉ m := fun hqm =>
        Volume.not_used_of_free (hsub hqm) (hl _ (Volume.mem_slots.mp hq).1)
      have hblock : (volume fs d).block q = (volume fs d₁).block q := by
        rw [Volume.block, Volume.block, hal.data_eq _ hqm]
      have hv := g.volume_write_slot (d := d₁) (l := l) (p := q) (fun x hx => ?_)
        (by rwa [Volume.slots_congr hal.sectorsPerCluster]) (((volume fs d).block q).setEntry
          q.offsetInSector ((e.setClus n).setSize text.length))
      · rw [hblock] at hv
        have hchain : (volume fs (d₁.write (dirCursorSector fs q) (((volume fs d).block q).setEntry
            q.offsetInSector ((e.setClus n).setSize text.length)))).forest.Chain n m := by
          rw [hblock, hv]
          exact Volume.chain_congr (allocated_chain hal
            (fun x hx => (Volume.mem_freeClusters.mp (hsub hx)).1) hhead) rfl fun _ _ => rfl
        obtain ⟨r, d', hwr, hdata, harea⟩ :=
          g.writeChainLoop_dataOnly text.length text 0 _ hchain g.sectors_pos
        rw [writeChainData, hwr]
        refine ⟨r, d', rfl, .inl ⟨m, n, d₁, _, hw, hal, hsub, fun h => absurd h ht,
          fun _ => ⟨hm, hlen, hhead⟩, rfl, ?_, hdata, harea, fun hcap => ?_⟩⟩
        · rw [hblock]
          exact hv
        · obtain ⟨d'', hok, hstore, -⟩ := g.writeChainData_spec hchain text hcap
          obtain ⟨rfl, rfl⟩ := Prod.mk.inj (hwr.symm.trans hok)
          exact ⟨rfl, hstore⟩
      · have hu := hl x hx
        refine ⟨⟨hu.1.1, hal.clusters ▸ hu.1.2⟩, ?_⟩
        rw [hal.fat_eq x fun hxm => Volume.not_used_of_free (hsub hxm) hu]
        exact hu.2
    · -- too few clusters: the volume is the one before
      have hn0 : n = 0 := by
        by_cases hlt : (volume fs d).freeClusters.length < needClusters fs text.length
        · exact (hnone hlt).1
        · have hz : needClusters fs text.length = 0 := by omega
          rw [(hsome (by omega)).1, hz, List.take_zero]
          rfl
      rw [if_pos ⟨ht, hn0⟩]
      refine ⟨_, _, rfl, .inr ⟨rfl, ht, hw, hroom, ?_⟩⟩
      by_cases hlt : (volume fs d).freeClusters.length < needClusters fs text.length
      · exact ⟨(hnone hlt).2, fun h => by omega⟩
      · have hz : needClusters fs text.length = 0 := by omega
        obtain ⟨-, hal⟩ := hsome (by omega)
        rw [hz, List.take_zero] at hal
        rw [hal.eq_of_nil]
        exact ⟨⟨fun _ _ => rfl, fun _ _ => rfl, fun _ => rfl⟩, fun _ => rfl⟩

/-- The part of a write that allocates the new chain and stores entry and contents, for an entry in
the slot `q` whose old chain is gone: `w` is the volume with the slot standing for nothing. -/
theorem writeEntryAndData_consistent {X : ℕ → Bool → Prop} {o : Owner ℕ DirCursor} {w : Volume}
    {A B : List DirCursor} {q : DirCursor} {e : Entry} {text : List UInt8}
    (hE : Volume.Edit w (volume fs d) [q]) (hc : w.forest.Consistent X)
    (ho : w.forest.Owns X o c true) (hl : w.forest.Chain c l) (hp : Volume.Place w l A [q] B)
    (hq : ∀ c b, ¬ w.forest.refs l q c b) (h0 : e 0 ≠ 0)
    (hname : text ≠ [] → e.IsNamed ∧ ¬ e.IsDot ∧ e.isDir = false)
    (hroom : text ≠ [] → 0 < needClusters fs text.length ∧
        needClusters fs text.length ≤ (volume fs d).freeClusters.length ∨
      (volume fs d).forest.Consistent X ∧
        ((volume fs d).freeClusters.length < needClusters fs text.length →
          (volume fs d).freeClusters.length ≤ 65536)) :
    (volume fs (writeEntryAndData fs d (dirCursorSector fs q) q.offsetInSector 0
      ((volume fs d).block q) e text).2).forest.Consistent X := by
  have hspc : 0 < w.sectorsPerCluster := by
    rw [← hE.sectorsPerCluster]
    exact g.sectors_pos
  have hsame : ∀ (n len : ℕ), ((e.setClus n).setSize len) 0 = e 0 := fun n len =>
    e.setClus_setSize_of_lt n len (by decide)
  have hqs : q ∈ (volume fs d).slots l := by
    rw [Volume.slots_congr hE.sectorsPerCluster]
    exact hp.mem_slots
  obtain ⟨r, d', hres, ⟨m, n, d₁, d₂, hst⟩ | ⟨-, ht, -, hno, hback, hsame'⟩⟩ :=
    g.writeEntryAndData_spec (hE.chain hl).2 hqs e text
  · rw [hres]
    by_cases ht : text = []
    · -- no clusters: the entry stays one that stands for nothing
      obtain ⟨rfl, rfl⟩ := hst.empty ht
      have hv₁ : volume fs d₁ = volume fs d := hst.allocated.eq_of_nil
      have hv : volume fs d' = (volume fs d).setEntry q ((e.setClus 0).setSize text.length) := by
        rw [hst.dataOnly.eq_of_nil, hst.volume_entry, hv₁]
      simp only [hv]
      obtain ⟨hE₁, hent⟩ := Volume.setEntry_edit (v := volume fs d)
        (Volume.aligned_of_slots hp.mem_slots) ((e.setClus 0).setSize text.length)
      have hstored := hp.stored ((hE.trans hE₁).mono (by simp)) fun p hp => by
        rw [List.mem_singleton.mp hp, hent, hsame]
        exact h0
      refine hstored.keep hc ho hl fun p hp c b => ?_
      rw [List.mem_singleton.mp hp, hent]
      refine iff_of_false (hq c b) (Entry.not_refers_of_clus ?_ c b)
      rw [Entry.clus_setSize, Entry.clus_setClus _ (by omega)]
      omega
    · obtain ⟨-, -, hhead⟩ := hst.head ht
      have hin := (Volume.mem_freeClusters.mp (hst.sub (List.mem_of_mem_head? hhead))).1
      have hn32 : n < 2 ^ 32 := by
        have h1 : n < fs.clusters := hin.2
        have h2 := g.clusters_le
        rw [fat32Eoc] at h2
        omega
      obtain ⟨hnm, hdot, hdir⟩ := hname ht
      have href : ((e.setClus n).setSize text.length).Refers n false := by
        refine ⟨(Entry.isNamed_congr (hsame n _) (e.attr_setClus_setSize n _)).mpr hnm, ?_, ?_,
          hin.1, ?_⟩
        · rwa [Entry.isDot_congr (e.name_setClus_setSize n _)]
        · rw [Entry.clus_setSize, Entry.clus_setClus _ hn32]
        · rw [Entry.isDir_congr (e.attr_setClus_setSize n _), hdir]
      obtain ⟨-, hcons, hown, hchain⟩ :=
        hp.attach hc ho hl hE hq hst.allocated hst.sub hhead hspc href
      rw [← hst.volume_entry] at hcons hown hchain
      exact hst.dataOnly.consistent hcons hown hchain
  · obtain ⟨hcons, hle⟩ := (hroom ht).resolve_left hno
    rw [hres]
    by_cases hlt : (volume fs d).freeClusters.length < needClusters fs text.length
    · refine Volume.frame_data hcons rfl rfl (hback.fat_free (hle hlt)) fun ho hm x hx =>
        hback.data_eq x fun hxf => ?_
      exact Volume.not_used_of_free hxf (hm.2 x hx)
    · rw [hsame' (by omega)]
      exact hcons

end Geometry

end PsychWard.Fat32
