import PsychWard.Fat32.StoreSpec

/-!
# Operations on the directory tree

Each operation that stores an entry keeps the tree consistent on the calls of its `…Safe` predicate.
The predicates speak of the disk before the call: which directory the path leads to, what it holds
under the name, and how much room is left.
-/

namespace PsychWard.Fat32

/-- The first cluster of the directory an operation edits, from the parent cluster of its path. -/
def dirHead (fs : Fat32Instance) (p : ℕ) : ℕ :=
  if orRoot fs p < 2 then fs.rootCluster else orRoot fs p

theorem dirHead_of_two_le {fs : Fat32Instance} {p : ℕ} (h : 2 ≤ p) : dirHead fs p = p := by
  rw [dirHead, orRoot, if_neg (show ¬ p = 0 by omega), if_neg (show ¬ p < 2 by omega)]

/-- The parent cluster `p` is a directory of the tree, with the chain `l`. -/
structure DirAt (fs : Fat32Instance) (d : Disk) (p : ℕ) (l : List ℕ) : Prop where
  owner : ∃ o, (volume fs d).forest.Owns (Volume.rootOnly fs.rootCluster) o (dirHead fs p) true
  chain : (volume fs d).forest.Chain (dirHead fs p) l

/-- The entry a directory has under a name. -/
def lookup (fs : Fat32Instance) (d : Disk) (p : ℕ) (name : CString) : Option FoundEntry :=
  (dirScan fs d (orRoot fs p) name).bind DirSlot.found

/-- The entry on the disk. -/
def FoundEntry.entry (f : FoundEntry) (d : Disk) : Entry := (d.sectors f.sector).entry f.offset

namespace Volume

variable {v v' : Volume} {l : List ℕ} {A B : List DirCursor} {q : DirCursor} {n D : ℕ}

/-- The slot in which a search found a name. -/
theorem place_of_found {target : CString} (hw : v.walked l = A ++ q :: B) (hA : v.Passed target A)
    (hm : v.Matches target A q) : Place v l A [q] (B ++ v.slots (l.drop walkLimit)) ∧
      ∀ c b, v.forest.refs l q c b ↔ (v.entry q).Refers c b := by
  have hs : v.slots l = A ++ ([q] ++ (B ++ v.slots (l.drop walkLimit))) := by
    rw [slots_eq_walked_append, hw]
    simp
  have hA0 : ∀ p ∈ A, v.entry p 0 ≠ 0 := fun p hp => by
    obtain ⟨A₁, A₂, rfl⟩ := List.append_of_mem hp
    exact (hA A₁ p A₂ rfl).1
  have hq0 : v.entry q 0 ≠ 0 := fun h => hm.1.1 (.inl h)
  refine ⟨⟨hs, hA0, .inl fun p hp => by rwa [List.mem_singleton.mp hp]⟩, fun c b => ?_⟩
  rw [refs_iff, and_iff_right (mem_beforeEnd_of_used hs hA0 hq0)]

theorem ScanResult.of_found {fs : Fat32Instance} {target : CString} {slot : DirSlot}
    {f : FoundEntry} (h : ScanResult fs v target l slot) (hf : slot.found = some f) :
    ∃ A B q, v.walked l = A ++ q :: B ∧ v.Passed target A ∧ v.Matches target A q ∧
      f = ⟨dirCursorSector fs q, q.offsetInSector, (v.entry q).clus, (v.entry q).size⟩ := by
  cases h with
  | found hw hA hm hf' => exact ⟨_, _, _, hw, hA, hm, Option.some.inj (hf.symm.trans hf')⟩
  | endMark _ _ _ hf' _ => exact nomatch hf.symm.trans hf'
  | full _ hf' _ _ => exact nomatch hf.symm.trans hf'

/-- The clusters that are left when the directory has taken the slot for a new entry. -/
def spare (v : Volume) (l : List ℕ) : ℕ :=
  v.freeClusters.length - if ∃ p ∈ v.walked l, (v.entry p).IsFree then 0 else 1

theorem Grown.length_freeClusters (h : Grown v v' l n) (hl : v.forest.Chain D l) :
    v'.freeClusters.length = v.freeClusters.length - 1 := by
  have heq : v'.freeClusters = v.freeClusters.erase n := by
    rw [v.nodup_freeClusters.erase_eq_filter, freeClusters, freeClusters, h.clusters,
      List.filter_filter]
    refine List.filter_congr fun x hx => ?_
    have hzero : v'.fat x = 0 ↔ x ≠ n ∧ v.fat x = 0 := by
      by_cases hxn : x = n
      · subst hxn
        simp [h.fat_new]
      · by_cases hxl : l.getLast? = some x
        · have hu : v.Used x := hl.2 x (List.mem_of_getLast? hxl)
          have h2 := h.two_le
          simp only [h.fat_last x hxl, hu.2, and_false, iff_false]
          omega
        · simp [hxn, h.fat_eq x hxn hxl]
    by_cases h1 : v'.fat x = 0
    · have := hzero.mp h1
      simp [h1, this.1, this.2]
    · have := mt hzero.mpr h1
      by_cases hxn : x = n
      · subst hxn
        simp [h1]
      · have hx0 : v.fat x ≠ 0 := fun h0 => this ⟨hxn, h0⟩
        simp [h1, hx0]
  rw [heq, List.length_erase_of_mem h.free]

theorem Edit.clear {R : List DirCursor} (h : Edit v v' R) (m : List ℕ) :
    Edit (v.clear m) (v'.clear m) R := by
  refine ⟨h.clusters, h.sectorsPerCluster, ?_, h.entry_eq, h.data_eq⟩
  rw [Volume.clear, Volume.clear, h.fat]

theorem length_freeClusters_clear {m : List ℕ} (hu : ∀ x ∈ m, v.Used x) (hm : m.Nodup) :
    (v.clear m).freeClusters.length = v.freeClusters.length + m.length := by
  have hnd : (v.freeClusters ++ m).Nodup :=
    v.nodup_freeClusters.append hm fun x hx hxm => not_used_of_free hx (hu x hxm)
  rw [← List.length_append]
  refine (List.perm_of_nodup_nodup_toFinset_eq (nodup_freeClusters) hnd ?_).length_eq
  ext x
  simp only [List.mem_toFinset, List.mem_append, mem_freeClusters]
  by_cases hx : x ∈ m
  · simp only [hx, or_true, iff_true]
    exact ⟨(hu x hx).1, if_pos hx⟩
  · simp [hx, Volume.clear, InRange]

/-- An entry without clusters stored in a free slot. -/
theorem FreeRun.keep {X : ℕ → Bool → Prop} {o : Owner ℕ DirCursor} {e : Entry}
    (h : FreeRun v l A [q] B) (hc : v.forest.Consistent X) (ho : v.forest.Owns X o D true)
    (hl : v.forest.Chain D l) (h0 : e 0 ≠ 0) (he : e.clus < 2) :
    (v.setEntry q e).forest.Consistent X := by
  refine (h.place.setEntry h0).keep hc ho hl fun p hp c b => ?_
  refine iff_of_false (h.not_refs hl.1.nodup hp c b) ?_
  rw [List.mem_singleton.mp hp, (setEntry_edit (aligned_of_slots h.place.mem_slots) e).2]
  exact Entry.not_refers_of_clus he c b

end Volume

open Volume

/-! ## Names on the path -/

section Path

variable {fs : Fat32Instance} {d : Disk}

theorem nextToken_subset (p : CString) : (nextToken p).1 ⊆ p ∧ (nextToken p).2 ⊆ p :=
  ⟨fun _ h => (List.takeWhile_sublist _).subset (List.mem_of_mem_take h),
    fun _ h => List.mem_of_mem_drop ((List.dropWhile_sublist _).subset h)⟩

theorem length_nextToken (p : CString) : (nextToken p).1.length ≤ 63 :=
  List.length_take_le _ _

theorem resolveFrom_snd (fs : Fat32Instance) (d : Disk) (fuel : ℕ) (p : CString) (clus : ℕ) :
    (resolveFrom fs d fuel p clus).2 ⊆ p ∧ (resolveFrom fs d fuel p clus).2.length ≤ 63 := by
  induction fuel generalizing p clus with
  | zero => exact ⟨List.nil_subset _, by simp [resolveFrom]⟩
  | succ fuel ih =>
    rw [resolveFrom]
    simp only
    split
    · exact ⟨List.nil_subset _, by simp⟩
    · split
      · exact ⟨(nextToken_subset p).1, length_nextToken p⟩
      · split
        · exact ⟨List.nil_subset _, by simp⟩
        · obtain ⟨h1, h2⟩ := ih (nextToken p).2 _
          exact ⟨List.Subset.trans h1 (nextToken_subset p).2, h2⟩

/-- The name an operation works with consists of bytes of its path. -/
theorem name_subset {path name : CString} {p : ℕ} (h : resolveTarget fs d path = some (p, name)) :
    name ⊆ path ∧ name.length ≤ 63 := by
  rw [resolveTarget] at h
  split at h
  · cases h
  · have heq : name = (fat32ResolveParent fs d path).2 := by
      rw [Option.some.inj h]
    rw [heq, fat32ResolveParent]
    split
    · obtain ⟨h1, h2⟩ := resolveFrom_snd fs d path.length
        (path.dropWhile (· = slash)) fs.rootCluster
      exact ⟨List.Subset.trans h1 (List.dropWhile_sublist _).subset, h2⟩
    · exact resolveFrom_snd _ _ _ _ _

end Path

/-! ## The calls -/

section Safe

variable (fs : Fat32Instance) (d : Disk)

/-- The call resolves to a name in a directory of the tree with the chain `l`, for which `P` holds. -/
def OnDir (path : CString) (P : ℕ → CString → List ℕ → Prop) : Prop :=
  ∀ p name, resolveTarget fs d path = some (p, name) → ∃ l, DirAt fs d p l ∧ P p name l

/-- `touch`: a new entry needs a slot. -/
def CreateSafe (path : CString) : Prop :=
  OnDir fs d path fun p name l => lookup fs d p name = none → (volume fs d).SlotSafe l

/-- `mkdir`: a new directory also needs a name that its entry can carry. -/
def MkdirSafe (path : CString) : Prop :=
  OnDir fs d path fun p name l => lookup fs d p name = none →
    (volume fs d).SlotSafe l ∧ NameOk name

/-- Overwriting the entry `e` with `text`: it is a file, its chain is freed as a whole, and the new
chain finds room. -/
structure OverwriteSafe (e : Entry) (text : List UInt8) : Prop where
  notDot : ¬ e.IsDot
  file : e.isDir = false
  room : e.clus < 2 → text ≠ [] →
    (volume fs d).freeClusters.length < needClusters fs text.length →
      (volume fs d).freeClusters.length ≤ 65536
  freed : 2 ≤ e.clus → ∀ m, (volume fs d).forest.Chain e.clus m → m.length ≤ 65536 ∧
    (text ≠ [] → 0 < needClusters fs text.length ∧
      needClusters fs text.length ≤ (volume fs d).freeClusters.length + m.length)

/-- `echo > file` -/
def WriteSafe (path : CString) (text : List UInt8) : Prop :=
  OnDir fs d path fun p name l =>
    (∀ f, lookup fs d p name = some f → OverwriteSafe fs d (f.entry d) text) ∧
      (lookup fs d p name = none → (volume fs d).SlotSafe l ∧ (text ≠ [] → NameOk name ∧
        ((volume fs d).spare l < needClusters fs text.length → (volume fs d).spare l ≤ 65536)))

end Safe

namespace Geometry

variable {fs : Fat32Instance} (g : Geometry fs) {d : Disk} {c : ℕ} {l : List ℕ}

include g

/-- The slot for a new entry. The directory may have grown to provide it. -/
theorem takeSlot_consistent {X : ℕ → Bool → Prop} {o : Owner ℕ DirCursor} {target : CString}
    {slot : DirSlot} (hc : (volume fs d).forest.Consistent X)
    (ho : (volume fs d).forest.Owns X o c true) (h : (volume fs d).forest.Chain c l)
    (hr : ScanResult fs (volume fs d) target l slot) (hnone : slot.found = none)
    (hsafe : (volume fs d).SlotSafe l) :
    ∃ r d', takeSlot fs d slot = (r, d') ∧ (volume fs d').forest.Consistent X ∧
      (r = none ∨ ∃ A q B l', r = some (dirCursorSector fs q, q.offsetInSector) ∧
        (volume fs d').forest.Owns X o c true ∧ (volume fs d').forest.Chain c l' ∧
        FreeRun (volume fs d') l' A [q] B ∧
        (volume fs d').freeClusters.length = (volume fs d).spare l) := by
  obtain ⟨r, d', htake, -, ⟨rfl, hv, -⟩ | ⟨A, q, B, l', rfl, hrun, -, hcase⟩⟩ :=
    g.takeSlot_spec h hr hnone hsafe
  · exact ⟨none, d', htake, by rwa [hv], .inl rfl⟩
  · refine ⟨_, d', htake, ?_⟩
    rcases hcase with ⟨rfl, rfl, hq⟩ | ⟨n, hgr, rfl, -, -, hfull⟩
    · refine ⟨hc, .inr ⟨A, q, B, _, rfl, ho, h, hrun, ?_⟩⟩
      have hfree : ∃ p ∈ (volume fs d').walked l', ((volume fs d').entry p).IsFree := by
        refine ⟨q, hq, ?_⟩
        rcases hrun.free [] q [] rfl with hdel | ⟨e, he, h0⟩
        · exact .inr hdel
        · rw [List.mem_singleton.mp he] at h0
          exact .inl h0
      rw [spare, if_pos hfree, Nat.sub_zero]
    · refine ⟨hgr.consistent hc ho h,
        .inr ⟨A, q, B, _, rfl, hgr.owns hc h ho (fun _ _ => id) ho, hgr.chain h,
        hrun, ?_⟩⟩
      rw [spare, if_neg, hgr.length_freeClusters h]
      rintro ⟨p, hp, hf⟩
      exact firstFree_eq_none.mp hfull p hp hf

/-- A search in a directory of the tree. -/
theorem dirScan_at {p : ℕ} (h : DirAt fs d p l) (name : CString) :
    ∃ slot, dirScan fs d (orRoot fs p) name = some slot ∧
      lookup fs d p name = slot.found ∧ ScanResult fs (volume fs d) name l slot := by
  obtain ⟨slot, hs, hr⟩ := g.dirScan_spec rfl h.chain name
  exact ⟨slot, hs, by rw [lookup, hs]; rfl, hr⟩

theorem fat32CreateFile_consistent {path : CString} (h0 : 0 ∉ path)
    (hc : (volume fs d).Consistent fs.rootCluster) (hsafe : CreateSafe fs d path) :
    (volume fs (fat32CreateFile fs d path).2).Consistent fs.rootCluster := by
  rw [fat32CreateFile]
  rcases hres : resolveTarget fs d path with _ | ⟨p, name⟩
  · exact hc
  · obtain ⟨l, hdir, hslot⟩ := hsafe p name hres
    obtain ⟨slot, hscan, hlook, hr⟩ := g.dirScan_at hdir name
    rw [hlook] at hslot
    simp only [hscan]
    rcases hf : slot.found with _ | found
    · obtain ⟨o, ho⟩ := hdir.owner
      obtain ⟨r, d', htake, hc', rfl | ⟨A, q, B, l', rfl, ho', hl', hrun, -⟩⟩ :=
        g.takeSlot_consistent hc ho hdir.chain hr hf (hslot hf)
      · simp only [htake]
        exact hc'
      · simp only [htake, Option.isSome_none, Bool.false_eq_true, if_false, g.read, g.write]
        rw [g.block_eq hl'.2 hrun.place.mem_slots,
          g.volume_write_slot hl'.2 hrun.place.mem_slots]
        have he : (shortEntry (formatFat32Name name) 0x20 0 0).clus < 2 := by
          rw [shortEntry_clus _ _ _ _ (by omega)]
          omega
        exact hrun.keep hc' ho' hl' (formatFat32Name_ne_zero fun h => h0 ((name_subset hres).1 h)) he
    · exact hc

omit g in
/-- The entries `.` and `..` of a new directory. -/
theorem newDirSector_entry (n parent : ℕ) : (newDirSector n parent).entry (32 * 0) =
      shortEntry (padBlank 11 [dot]) 0x10 n 0 ∧
    (newDirSector n parent).entry (32 * 1) = shortEntry (padBlank 11 [dot, dot]) 0x10 parent 0 ∧
    ∀ k, 1 < k → (newDirSector n parent).entry (32 * k) = Entry.zero := by
  have hdef : newDirSector n parent =
      (Block.zero.setEntry (32 * 0) (shortEntry (padBlank 11 [dot]) 0x10 n 0)).setEntry (32 * 1)
        (shortEntry (padBlank 11 [dot, dot]) 0x10 parent 0) := rfl
  rw [hdef]
  refine ⟨?_, Block.entry_setEntry_self _ _ (by omega), fun k hk => ?_⟩
  · rw [Block.entry_setEntry_of_ne _ _ (by omega), Block.entry_setEntry_self _ _ (by omega)]
  · rw [Block.entry_setEntry_of_ne _ _ (by omega), Block.entry_setEntry_of_ne _ _ (by omega),
      Block.entry_zero]

/-- The first sector of a new directory holds no entry of a chain. -/
theorem newDir_consistent {X : ℕ → Bool → Prop} {q : DirCursor} {n parent : ℕ}
    (hc : (volume fs d).forest.Consistent X) (ho : (volume fs d).forest.Owns X (.ref q) n true)
    (hn : (volume fs d).forest.Chain n [n])
    (hz : ∀ k < fs.sectorsPerCluster, (volume fs d).data n k = Block.zero) :
    ((volume fs d).setData n 0 (newDirSector n parent)).forest.Consistent X := by
  obtain ⟨e₀, e₁, e₂⟩ := newDirSector_entry n parent
  obtain ⟨T, hT⟩ : ∃ T, (volume fs d).slots [n] = [] ++ ([⟨n, 0, 32 * 0⟩, ⟨n, 0, 32 * 1⟩] ++ T) := by
    obtain ⟨j, hj⟩ : ∃ j, (volume fs d).sectorsPerCluster = j + 1 :=
      ⟨fs.sectorsPerCluster - 1, (Nat.sub_add_cancel g.sectors_pos).symm⟩
    rw [slots, List.flatMap_singleton, hj, clusterSlots, List.range_succ_eq_map (n := j),
      List.flatMap_cons, List.range_succ_eq_map (n := 15), List.range_succ_eq_map (n := 14)]
    exact ⟨_, rfl⟩
  have hzero : ∀ p ∈ (volume fs d).slots [n], (volume fs d).entry p = Entry.zero := fun p hp => by
    obtain ⟨hpn, hps, k, hk, hpo⟩ := mem_slots.mp hp
    rw [entry, List.mem_singleton.mp hpn, hz _ hps, Block.entry_zero]
  have hE : Edit (volume fs d) ((volume fs d).setData n 0 (newDirSector n parent))
      [⟨n, 0, 32 * 0⟩, ⟨n, 0, 32 * 1⟩] := by
    refine edit_setData (by simp) (by simp) fun k hk hkR => ?_
    have hk2 : 1 < k := by
      by_contra hle
      obtain rfl | rfl : k = 0 ∨ k = 1 := by omega
      · simp at hkR
      · simp at hkR
    rw [e₂ k hk2, hzero]
    exact mem_slots.mpr ⟨by simp, g.sectors_pos, k, hk, rfl⟩
  have hnew : ∀ p ∈ [(⟨n, 0, 32 * 0⟩ : DirCursor), ⟨n, 0, 32 * 1⟩],
      (((volume fs d).setData n 0 (newDirSector n parent)).entry p).IsDot ∧
        ((volume fs d).setData n 0 (newDirSector n parent)).entry p 0 ≠ 0 := by
    intro p hp
    rw [setData_entry]
    rcases List.mem_pair.mp hp with rfl | rfl
    · rw [if_pos ⟨rfl, rfl⟩, e₀]
      exact ⟨.inl (shortEntry_name _ _ _ _ rfl), by rw [shortEntry_zero]; decide⟩
    · rw [if_pos ⟨rfl, rfl⟩, e₁]
      exact ⟨.inr (shortEntry_name _ _ _ _ rfl), by rw [shortEntry_zero]; decide⟩
  have hst : Stored (volume fs d) ((volume fs d).setData n 0 (newDirSector n parent)) [n] []
      [⟨n, 0, 32 * 0⟩, ⟨n, 0, 32 * 1⟩] T := by
    refine ⟨hE, hT, by simp, fun p hp => (hnew p hp).2, .inr fun p hp => ?_⟩
    rw [hzero p (by rw [hT]; simp [List.mem_of_mem_head? hp])]
    rfl
  refine hst.keep hc ho hn fun p hp c b => iff_of_false ?_ fun hr => hr.2.1 (hnew p hp).1
  exact not_refs_of_zero g.sectors_pos rfl (hz 0 g.sectors_pos)

theorem fat32Mkdir_consistent {path : CString} (h0 : 0 ∉ path)
    (hc : (volume fs d).Consistent fs.rootCluster) (hsafe : MkdirSafe fs d path) :
    (volume fs (fat32Mkdir fs d path).2).Consistent fs.rootCluster := by
  rw [fat32Mkdir]
  rcases hres : resolveTarget fs d path with _ | ⟨p, name⟩
  · exact hc
  · obtain ⟨l, hdir, hslot⟩ := hsafe p name hres
    obtain ⟨slot, hscan, hlook, hr⟩ := g.dirScan_at hdir name
    rw [hlook] at hslot
    simp only [hscan]
    rcases hf : slot.found with _ | found
    · obtain ⟨o, ho⟩ := hdir.owner
      obtain ⟨hss, hname⟩ := hslot hf
      obtain ⟨r, d', htake, hc', rfl | ⟨A, q, B, l', rfl, ho', hl', hrun, -⟩⟩ :=
        g.takeSlot_consistent hc ho hdir.chain hr hf hss
      · simp only [htake]
        exact hc'
      · obtain ⟨n, d₂, halloc, -, hsome, hnone⟩ := g.fatAllocChain_spec 1 d'
        simp only [htake, Option.isSome_none, Bool.false_eq_true, if_false, halloc]
        rcases hfree : (volume fs d').freeClusters with _ | ⟨n', rest⟩
        · -- no cluster is left
          rw [hfree] at hnone
          obtain ⟨rfl, hback⟩ := hnone (by simp)
          rw [if_pos rfl]
          exact frame_data hc' rfl rfl (hback.fat_free (by simp [hfree])) fun _ _ x _ =>
            hback.data_eq x (by simp [hfree])
        · rw [hfree] at hsome
          obtain ⟨rfl, hal⟩ := hsome (by simp)
          simp only [List.take_succ_cons, List.take_zero] at hal ⊢
          have hsub : [n] ⊆ (volume fs d').freeClusters := by
            rw [hfree]
            simp
          have hin := (Volume.mem_freeClusters.mp (hsub (List.mem_singleton_self n))).1
          have hn32 : n < 2 ^ 32 := by
            have h1 : n < fs.clusters := hin.2
            have h2 := g.clusters_le
            rw [fat32Eoc] at h2
            omega
          rw [if_neg (show n ≠ 0 by have := hin.1; omega), g.read]
          simp only [g.write]
          set e := shortEntry (formatFat32Name name) 0x10 n 0 with he
          have href : e.Refers n true := by
            obtain ⟨h1, h2⟩ := shortEntry_isNamed 0x10
              (fun h => h0 ((name_subset hres).1 h)) hname (by decide) (by decide) n 0
            refine ⟨h1, h2, shortEntry_clus _ _ _ _ hn32, hin.1, ?_⟩
            rw [Entry.isDir, shortEntry_attr]
            decide
          obtain ⟨-, hcons, hown, hchain⟩ := hrun.place.attach hc' ho' hl' (.refl _ _)
            (hrun.not_refs hl'.1.nodup (List.mem_singleton_self q)) hal hsub rfl
            g.sectors_pos href
          have hl₂ := hal.chain hsub hl'
          have hq₂ : q ∈ (volume fs d₂).slots l' := by
            rw [slots_congr hal.sectorsPerCluster]
            exact hrun.place.mem_slots
          have hv : volume fs (d₂.write (dirCursorSector fs q)
              ((d₂.sectors (dirCursorSector fs q)).setEntry q.offsetInSector e)) =
              (volume fs d₂).setEntry q e := by
            rw [g.volume_write_slot hl₂.2 hq₂, g.block_eq hl₂.2 hq₂, setEntry]
          have hqn : q.cluster ≠ n := fun heq => by
            have hu : (volume fs d').Used q.cluster :=
              hl'.2 _ (mem_slots.mp hrun.place.mem_slots).1
            exact not_used_of_free (hsub (List.mem_singleton_self n)) (heq ▸ hu)
          rw [g.clusterToSector_eq hin, g.volume_write_data hin g.sectors_pos]
          refine g.newDir_consistent (q := q) ?_ ?_ ?_ fun k hk => ?_
          · rw [hv]
            exact hcons
          · rw [hv]
            exact hown
          · rw [hv]
            exact hchain
          · rw [hv, setEntry, setData_data, if_neg (fun h => hqn h.1.symm)]
            exact hal.data_zero n (List.mem_singleton_self n) k hk
    · exact hc

omit g in
/-- A write to an entry without clusters frees nothing. -/
theorem writeEntryAndData_of_lt {sector offset clus : ℕ} {buf : Block} {e : Entry}
    {text : List UInt8} (h : clus < 2) : writeEntryAndData fs d sector offset clus buf e text =
      writeEntryAndData fs d sector offset 0 buf e text := by
  rw [writeEntryAndData, writeEntryAndData, if_neg (show ¬ 2 ≤ clus by omega),
    if_neg (show ¬ 2 ≤ 0 by omega)]

omit g in
/-- A write to an entry with clusters frees them first. -/
theorem writeEntryAndData_of_le {sector offset clus : ℕ} {buf : Block} {e : Entry}
    {text : List UInt8} (h : 2 ≤ clus) : writeEntryAndData fs d sector offset clus buf e text =
      writeEntryAndData fs (fatFreeChain fs d clus).2 sector offset 0 buf e text := by
  rw [writeEntryAndData, writeEntryAndData, if_pos h, if_neg (show ¬ 2 ≤ 0 by omega)]

/-- Overwriting the file whose entry is in the slot `q`. -/
theorem overwrite_consistent {o : Owner ℕ DirCursor} {A B : List DirCursor} {q : DirCursor}
    {text : List UInt8} (hc : (volume fs d).Consistent fs.rootCluster)
    (ho : (volume fs d).forest.Owns (rootOnly fs.rootCluster) o c true)
    (hl : (volume fs d).forest.Chain c l) (hp : Place (volume fs d) l A [q] B)
    (hrefs : ∀ c b, (volume fs d).forest.refs l q c b ↔ ((volume fs d).entry q).Refers c b)
    (hn : ((volume fs d).entry q).IsNamed) (hsafe : OverwriteSafe fs d ((volume fs d).entry q) text) :
    (volume fs (writeEntryAndData fs d (dirCursorSector fs q) q.offsetInSector
      ((volume fs d).entry q).clus ((volume fs d).block q) ((volume fs d).entry q) text).2).Consistent
        fs.rootCluster := by
  set v := volume fs d with hv
  have h0 : v.entry q 0 ≠ 0 := fun h => hn.1 (.inl h)
  by_cases hclus : (v.entry q).clus < 2
  · rw [writeEntryAndData_of_lt hclus]
    refine g.writeEntryAndData_consistent (.refl _ _) hc ho hl hp (fun c b hr => ?_) h0
      (fun _ => ⟨hn, hsafe.notDot, hsafe.file⟩) fun ht => .inr ⟨hc, hsafe.room hclus ht⟩
    exact Entry.not_refers_of_clus hclus c b ((hrefs c b).mp hr)
  · have h2 : 2 ≤ (v.entry q).clus := by omega
    have href : v.forest.refs l q (v.entry q).clus false :=
      (hrefs _ _).mpr ⟨hn, hsafe.notDot, rfl, h2, hsafe.file⟩
    obtain ⟨m, hm⟩ := hc.chain (.ref ho hl.1 href)
    obtain ⟨hlen, hroom⟩ := hsafe.freed h2 m hm
    obtain ⟨d₁, hfree, hv₁, -⟩ := g.fatFreeChain_spec hm
    rw [List.take_of_length_le hlen] at hv₁
    rw [writeEntryAndData_of_le h2, hfree]
    -- the volume in which the entry stood for nothing before its chain was freed
    set e₀ := (v.entry q).setClus 0
    have he₀ : ∀ c b, ¬ e₀.Refers c b := Entry.not_refers_of_clus (by
      rw [Entry.clus_setClus _ (by omega)]
      omega)
    have h0' : e₀ 0 ≠ 0 := fun h =>
      h0 (((v.entry q).setClus_of_lt 0 (i := 0) (by decide)).symm.trans h)
    obtain ⟨hE, hent⟩ := setEntry_edit (v := v) (aligned_of_slots hp.mem_slots) e₀
    obtain ⟨hc₀, ho₀⟩ := hp.detach hc ho hl href h0' he₀
    have hl₀ := hE.chain hl
    have hm₀ := hE.chain hm
    have hX := withRoot_iff (not_root_of_ref hc (.ref ho hl.1 href))
    have hroot : withRoot (rootOnly fs.rootCluster) (v.entry q).clus false (v.entry q).clus false :=
      .inr ⟨rfl, rfl⟩
    have hdis : ∀ x ∈ l, x ∉ m := fun x hx hxm => by
      obtain rfl := hc.disjoint ho (.ref ho hl.1 href) hl hm hx hxm
      exact absurd (hc.owns_fun ho (.ref ho hl.1 href)).2 (by simp)
    have hp₀ : Place ((v.setEntry q e₀).clear m) l A [q] B :=
      (hp.after hl.1.nodup hE (by rwa [hent])).congr rfl fun _ _ => rfl
    have hblock : v.block q = (volume fs d₁).block q := by rw [hv₁]; rfl
    rw [hblock]
    refine g.writeEntryAndData_consistent (w := (v.setEntry q e₀).clear m) (hv₁ ▸ hE.symm.clear m)
      (clear_consistent hc₀ hroot hm₀ hX (by simp)) (clear_owns hc₀ hroot hm₀ hX ho₀)
      (clear_chain hl₀ hdis) hp₀ (fun c b hr => ?_) h0 (fun _ => ⟨hn, hsafe.notDot, hsafe.file⟩)
      fun ht => .inl ⟨(hroom ht).1, ?_⟩
    · have hr' : e₀.Refers c b := hent ▸ hr.2
      exact he₀ c b hr'
    · rw [hv₁, length_freeClusters_clear hm.2 hm.1.nodup]
      exact (hroom ht).2

theorem fat32WriteFile_consistent {path : CString} {text : List UInt8} (h0 : 0 ∉ path)
    (hc : (volume fs d).Consistent fs.rootCluster) (hsafe : WriteSafe fs d path text) :
    (volume fs (fat32WriteFile fs d path text).2).Consistent fs.rootCluster := by
  rw [fat32WriteFile]
  rcases hres : resolveTarget fs d path with _ | ⟨p, name⟩
  · exact hc
  · obtain ⟨l, hdir, hover, hslot⟩ := hsafe p name hres
    obtain ⟨slot, hscan, hlook, hr⟩ := g.dirScan_at hdir name
    obtain ⟨o, ho⟩ := hdir.owner
    rw [hlook] at hover hslot
    simp only [hscan]
    rcases hf : slot.found with _ | f
    · obtain ⟨hss, hname⟩ := hslot hf
      have hz : 0 ∉ name := fun h => h0 ((name_subset hres).1 h)
      -- a new file: its slot is empty, so its old entry refers to nothing
      obtain ⟨r, d', htake, hc', rfl | ⟨A, q, B, l', rfl, ho', hl', hrun, hspare⟩⟩ :=
        g.takeSlot_consistent hc ho hdir.chain hr hf hss
      · simp only [writeSlot, hf, htake]
        exact hc'
      · simp only [writeSlot, hf, htake, g.read, g.block_eq hl'.2 hrun.place.mem_slots]
        refine g.writeEntryAndData_consistent (.refl _ _) hc' ho' hl' hrun.place
          (hrun.not_refs hl'.1.nodup (List.mem_singleton_self q)) (formatFat32Name_ne_zero hz)
          (fun ht => ?_) fun ht => .inr ⟨hc', ?_⟩
        · obtain ⟨h1, h2⟩ := shortEntry_isNamed 0x20 hz (hname ht).1 (by decide)
            (by decide) 0 0
          refine ⟨h1, h2, ?_⟩
          rw [Entry.isDir, shortEntry_attr]
          decide
        · rw [hspare]
          exact (hname ht).2
    · obtain ⟨A, B, q, hw, hA, hm, rfl⟩ := hr.of_found hf
      obtain ⟨hp, hrefs⟩ := place_of_found hw hA hm
      have hblock := g.block_eq hdir.chain.2 hp.mem_slots
      have hsafe' := hover _ hf
      rw [FoundEntry.entry, hblock] at hsafe'
      simp only [writeSlot, hf, g.read, hblock]
      exact g.overwrite_consistent hc ho hdir.chain hp hrefs hm.1 hsafe'

end Geometry

end PsychWard.Fat32
