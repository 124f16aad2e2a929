import PsychWard.Fat32.OpSpec

/-!
# Paths on a changed disk

A search finds the same entry on another disk as long as the slots before it keep what the search
looks at (`Steady`), and a path leads to the same directory as long as its lookups have the same
results. `DirPath` is what it means for a path to go through directories.
-/

namespace PsychWard.Fat32

namespace Volume

variable {v v' : Volume} {l l' : List ℕ} {A B : List DirCursor} {p : DirCursor} {target : CString}

/-- On `v'` a search for `target` passes the slots `A` as a search on `v` does. -/
def Steady (v v' : Volume) (target : CString) (A : List DirCursor) : Prop :=
  ∀ A₁ a A₂, A = A₁ ++ a :: A₂ →
    lfnStep (v.lfnAfter A₁) (v'.entry a) = lfnStep (v.lfnAfter A₁) (v.entry a) ∧
      v'.entry a 0 ≠ 0 ∧
      ¬ ((v'.entry a).IsNamed ∧ entryMatches (v.lfnAfter A₁) (v'.entry a) target = true)

theorem Steady.of_append {A' : List DirCursor} (h : Steady v v' target (A ++ A')) :
    Steady v v' target A := fun A₁ a A₂ hA => h A₁ a (A₂ ++ A') (by rw [hA]; simp)

theorem Steady.lfnAfter_eq (h : Steady v v' target A) : v'.lfnAfter A = v.lfnAfter A := by
  induction A using List.reverseRecOn with
  | nil => rfl
  | append_singleton A a ih =>
    rw [lfnAfter_snoc, lfnAfter_snoc, ih h.of_append]
    exact (h A a [] rfl).1

theorem Steady.passed (h : Steady v v' target A) : v'.Passed target A := by
  intro A₁ a A₂ hA
  obtain ⟨-, h0, hm⟩ := h A₁ a A₂ hA
  refine ⟨h0, ?_⟩
  rw [Matches, (show Steady v v' target A₁ from of_append (hA ▸ h)).lfnAfter_eq]
  exact hm

/-- Slots that keep their entries. -/
theorem steady_of_eq (hA : v.Passed target A) (h : ∀ a ∈ A, v'.entry a = v.entry a) :
    Steady v v' target A := fun A₁ a A₂ heq => by
  rw [h a (by rw [heq]; simp)]
  exact ⟨rfl, hA A₁ a A₂ heq⟩

/-- One slot of the passed ones holds another entry. -/
theorem steady_of_edit (hA : v.Passed target A) (h : ∀ a ∈ A, a ≠ p → v'.entry a = v.entry a)
    (hp : ∀ A₁ A₂, A = A₁ ++ p :: A₂ →
      lfnStep (v.lfnAfter A₁) (v'.entry p) = lfnStep (v.lfnAfter A₁) (v.entry p) ∧
        v'.entry p 0 ≠ 0 ∧
        ¬ ((v'.entry p).IsNamed ∧ entryMatches (v.lfnAfter A₁) (v'.entry p) target = true)) :
    Steady v v' target A := by
  intro A₁ a A₂ heq
  by_cases hap : a = p
  · subst hap
    exact hp A₁ A₂ heq
  · rw [h a (by rw [heq]; simp) hap]
    exact ⟨rfl, hA A₁ a A₂ heq⟩

/-- The search ends at the first slot that carries the name. -/
theorem ScanResult.found_eq {fs : Fat32Instance} {slot : DirSlot} (h : ScanResult fs v target l slot)
    (hw : v.walked l = A ++ p :: B) (hA : v.Passed target A) (hm : v.Matches target A p) :
    slot.found = some ⟨dirCursorSector fs p, p.offsetInSector, (v.entry p).clus,
      (v.entry p).size⟩ := by
  have hp0 : v.entry p 0 ≠ 0 := fun h0 => hm.1.1 (.inl h0)
  -- a second place where the search ends is the same one
  have huniq : ∀ {A' B' : List DirCursor} {p' : DirCursor}, v.walked l = A' ++ p' :: B' →
      v.Passed target A' → (v.entry p' 0 = 0 ∨ v.Matches target A' p') → A' = A ∧ p' = p := by
    intro A' B' p' hw' hA' hend
    rw [hw] at hw'
    rcases List.append_eq_append_iff.mp hw' with ⟨T, rfl, hT⟩ | ⟨T, rfl, hT⟩
    · cases T with
      | nil => exact ⟨(List.append_nil A), (List.cons.inj hT).1.symm⟩
      | cons x T =>
        obtain ⟨rfl, -⟩ := List.cons.inj hT
        exact absurd hm (hA' A p T rfl).2
    · cases T with
      | nil => exact ⟨(List.append_nil A').symm, (List.cons.inj hT).1⟩
      | cons x T =>
        obtain ⟨rfl, -⟩ := List.cons.inj hT
        obtain ⟨h0, hnm⟩ := hA A' p' T rfl
        exact absurd hend fun hh => hh.elim h0 hnm
  cases h with
  | @found A' B' p' hw' hA' hm' hf =>
    obtain ⟨rfl, rfl⟩ := huniq hw' hA' (.inr hm')
    exact hf
  | @endMark A' B' p' hw' hA' h0 _ _ =>
    obtain ⟨rfl, rfl⟩ := huniq hw' hA' (.inl h0)
    exact absurd h0 hp0
  | full hA' _ _ _ =>
    rw [hw] at hA'
    exact absurd hm (hA' A p B rfl).2

end Volume

open Volume

/-! ## Lookups of a path -/

section Lookups

variable (fs : Fat32Instance) (d : Disk)

/-- The lookups `resolveFrom` makes: directory and name. -/
def lookupsFrom : ℕ → CString → ℕ → List (ℕ × CString)
  | 0, _, _ => []
  | fuel + 1, p, clus =>
    if p = [] then []
    else if (nextToken p).2 = [] then []
    else
      let next := fat32FindInDir fs d clus (nextToken p).1
      (clus, (nextToken p).1) ::
        if next = notFound then []
        else lookupsFrom fuel (nextToken p).2 (if next = 0 then fs.rootCluster else next)

/-- The lookups a path needs to reach the directory of its last component. -/
def lookups (path : CString) : List (ℕ × CString) :=
  if path.head? = some slash then
    lookupsFrom fs d path.length (path.dropWhile (· = slash)) fs.rootCluster
  else
    lookupsFrom fs d path.length path
      (if fs.currentDirCluster = 0 then fs.rootCluster else fs.currentDirCluster)

/-- `..` in the root directory, which has no such entry. -/
def RootDots (h : ℕ) (name : CString) : Prop :=
  myStrcmp name [dot, dot] = 0 ∧ (h = fs.rootCluster ∨ h = 0)

/-- The name leads from a directory of the tree to a directory. -/
def DirStep (h : ℕ) (name : CString) : Prop :=
  (∃ l, DirAt fs d h l) ∧
    (RootDots fs h name ∨ ∃ f, lookup fs d h name = some f ∧ (f.entry d).isDir = true)

/-- Every component of the path but the last is a directory. -/
def DirPath (path : CString) : Prop := ∀ x ∈ lookups fs d path, DirStep fs d x.1 x.2

variable {fs d} {d' : Disk}

theorem resolveFrom_congr {fuel : ℕ} {p : CString} {clus : ℕ}
    (h : ∀ x ∈ lookupsFrom fs d fuel p clus,
      fat32FindInDir fs d' x.1 x.2 = fat32FindInDir fs d x.1 x.2) :
    resolveFrom fs d' fuel p clus = resolveFrom fs d fuel p clus := by
  induction fuel generalizing p clus with
  | zero => rfl
  | succ fuel ih =>
    rw [resolveFrom, resolveFrom]
    rw [lookupsFrom] at h
    by_cases hp : p = []
    · rw [if_pos hp, if_pos hp]
    · rw [if_neg hp] at h ⊢
      rw [if_neg hp]
      by_cases hr : (nextToken p).2 = []
      · simp only [hr, if_true]
      · simp only [hr, if_false] at h ⊢
        have hfirst := h (clus, (nextToken p).1) List.mem_cons_self
        simp only at hfirst
        rw [hfirst]
        by_cases hn : fat32FindInDir fs d clus (nextToken p).1 = notFound
        · rw [if_pos hn, if_pos hn]
        · rw [if_neg hn, if_neg hn]
          refine ih fun x hx => h x (List.mem_cons_of_mem _ ?_)
          rwa [if_neg hn]

/-- A path leads to the same place as long as its lookups have the same results. -/
theorem resolveTarget_congr {path : CString} (h : ∀ x ∈ lookups fs d path,
    fat32FindInDir fs d' x.1 x.2 = fat32FindInDir fs d x.1 x.2) :
    resolveTarget fs d' path = resolveTarget fs d path := by
  have hres : fat32ResolveParent fs d' path = fat32ResolveParent fs d path := by
    rw [fat32ResolveParent, fat32ResolveParent]
    rw [lookups] at h
    by_cases hs : path.head? = some slash
    · rw [if_pos hs] at h ⊢
      rw [if_pos hs]
      exact resolveFrom_congr h
    · rw [if_neg hs] at h ⊢
      rw [if_neg hs]
      exact resolveFrom_congr h
  rw [resolveTarget, resolveTarget, hres]

end Lookups

namespace Geometry

variable {fs : Fat32Instance} (g : Geometry fs) {d : Disk} {h : ℕ} {l : List ℕ}
  {A B : List DirCursor} {p : DirCursor} {name : CString}

/-- A directory given as 0 is the root directory. -/
theorem fat32FindInDir_eq (hroot : 2 ≤ fs.rootCluster) (hdots : ¬ RootDots fs h name) :
    fat32FindInDir fs d h name = ((lookup fs d h name).map FoundEntry.clus).getD notFound := by
  have hstart : dirStart fs d h = dirStart fs d (orRoot fs h) := by
    rw [dirStart, dirStart, orRoot]
    by_cases h0 : h = 0
    · subst h0
      have h2 : ¬ fs.rootCluster < 2 := by omega
      simp only [Nat.ofNat_pos, if_true, h2, if_false]
    · rw [if_neg h0]
  have hscan : dirScan fs d h name = dirScan fs d (orRoot fs h) name := by
    rw [dirScan, dirScan, hstart]
  have hdots' : ¬ (myStrcmp name [dot, dot] = 0 ∧ (h = fs.rootCluster ∨ h = 0)) := hdots
  rw [fat32FindInDir, if_neg hdots', lookup, hscan]
  rcases dirScan fs d (orRoot fs h) name with _ | slot
  · rfl
  · rcases hf : slot.found with _ | f
    · simp only [hf, Option.bind_some, Option.map_none, Option.getD_none]
    · simp only [hf, Option.bind_some, Option.map_some, Option.getD_some]

theorem fat32FindInDir_dots (hdots : RootDots fs h name) :
    fat32FindInDir fs d h name = fs.rootCluster := if_pos hdots

include g

/-- What a lookup finds. -/
theorem lookup_eq (hl : (volume fs d).forest.Chain (dirHead fs h) l)
    (hw : (volume fs d).walked l = A ++ p :: B) (hA : (volume fs d).Passed name A)
    (hm : (volume fs d).Matches name A p) :
    lookup fs d h name = some ⟨dirCursorSector fs p, p.offsetInSector, ((volume fs d).entry p).clus,
      ((volume fs d).entry p).size⟩ := by
  obtain ⟨slot, hs, hr⟩ := g.dirScan_spec rfl hl name
  have hs' : dirScan fs d (orRoot fs h) name = some slot := hs
  rw [lookup, hs']
  exact hr.found_eq hw hA hm

/-- Where a lookup found its entry. -/
theorem lookup_some {f : FoundEntry} (hl : (volume fs d).forest.Chain (dirHead fs h) l)
    (hf : lookup fs d h name = some f) : ∃ A B p, (volume fs d).walked l = A ++ p :: B ∧
      (volume fs d).Passed name A ∧ (volume fs d).Matches name A p ∧
      f = ⟨dirCursorSector fs p, p.offsetInSector, ((volume fs d).entry p).clus,
        ((volume fs d).entry p).size⟩ := by
  obtain ⟨slot, hs, hr⟩ := g.dirScan_spec rfl hl name
  have hs' : dirScan fs d (orRoot fs h) name = some slot := hs
  rw [lookup, hs'] at hf
  exact hr.of_found hf

/-- A lookup as a loop over the slots of the directory. -/
theorem lookup_eq_scan (hl : (volume fs d).forest.Chain (dirHead fs h) l) (name : CString) :
    lookup fs d h name = (scan (fun st p => dirScanBody fs name st p ((volume fs d).block p))
      ((volume fs d).walked l) ⟨.clear, none, none⟩).1.found := by
  obtain ⟨last, h1, -⟩ := g.scanChain_eq (dirScanBody fs name) hl 4096 (dirHead fs h)
    ⟨.clear, none, none⟩
  have hstart : dirStart fs d (orRoot fs h) = some (dirHead fs h) := g.dirStart_eq rfl hl
  rw [lookup, dirScan, hstart, Volume.walked, walkLimit]
  simp only [h1, Option.bind_some]

end Geometry

/-! ## Disks that agree on the used clusters -/

/-- The used clusters of `v` have the same table entries and contents in `v'`. -/
structure Agree (v v' : Volume) : Prop where
  fat_eq : ∀ c, v.Used c → v'.fat c = v.fat c
  data_eq : ∀ c, v.Used c → v'.data c = v.data c

namespace Geometry

variable {fs : Fat32Instance} (g : Geometry fs) {d d' : Disk} {h : ℕ} {l : List ℕ}
  (ha : Agree (volume fs d) (volume fs d'))

include g ha

omit g in
theorem chain_agree {c : ℕ} (hl : (volume fs d).forest.Chain c l) :
    (volume fs d').forest.Chain c l :=
  Volume.chain_congr hl rfl fun x hx => ha.fat_eq x (hl.2 x hx)

theorem lookup_agree (hl : (volume fs d).forest.Chain (dirHead fs h) l) (name : CString) :
    lookup fs d' h name = lookup fs d h name := by
  rw [g.lookup_eq_scan hl, g.lookup_eq_scan (chain_agree ha hl)]
  have hspc : (volume fs d').sectorsPerCluster = (volume fs d).sectorsPerCluster := rfl
  have hscan : scan (fun st p => dirScanBody fs name st p ((volume fs d').block p))
      ((volume fs d).walked l) ⟨.clear, none, none⟩ =
        scan (fun st p => dirScanBody fs name st p ((volume fs d).block p))
          ((volume fs d).walked l) ⟨.clear, none, none⟩ := by
    refine scan_congr (fun p hp st => ?_) _
    have hpl : p.cluster ∈ l := (Volume.mem_slots.mp (Volume.mem_slots_of_walked hp)).1
    rw [Volume.block, Volume.block, ha.data_eq _ (hl.2 _ hpl)]
  rw [Volume.walked, Volume.slots_congr hspc, ← Volume.walked, hscan]

theorem resolveTarget_agree (hroot : 2 ≤ fs.rootCluster) {path : CString}
    (hpath : DirPath fs d path) : resolveTarget fs d' path = resolveTarget fs d path := by
  refine resolveTarget_congr fun x hx => ?_
  obtain ⟨⟨l, hdir⟩, -⟩ := hpath x hx
  by_cases hdots : RootDots fs x.1 x.2
  · rw [fat32FindInDir_dots hdots, fat32FindInDir_dots hdots]
  · rw [fat32FindInDir_eq hroot hdots, fat32FindInDir_eq hroot hdots,
      g.lookup_agree ha hdir.chain]

end Geometry

end PsychWard.Fat32
