import PsychWard.Fat32.TableSpec
import PsychWard.Common.Scan

/-!
# Directory walks on a volume

`scanChain` on a chain is a loop over the list of the directory's slots, as far as the 4096 clusters
of its `guard` reach (`scanChain_eq`). With the loop rule this says where a search ends and which free
slot it found.
-/

namespace PsychWard.Fat32

/-- The longest part of a directory's chain that a walk covers. -/
def walkLimit : ℕ := 4096

namespace Volume

variable (v : Volume)

/-- The sector a slot lies in. -/
def block (p : DirCursor) : Block := v.data p.cluster p.sectorInCluster

/-- The slots of a directory that a walk covers. -/
def walked (l : List ℕ) : List DirCursor := v.slots (l.take walkLimit)

variable {v}

theorem entry_eq (p : DirCursor) : v.entry p = (v.block p).entry p.offsetInSector := rfl

/-- The slots a walk covers are a prefix of the directory. -/
theorem slots_eq_walked_append (l : List ℕ) :
    v.slots l = v.walked l ++ v.slots (l.drop walkLimit) := by
  rw [walked, ← slots_append, List.take_append_drop]

theorem nodup_walked {l : List ℕ} (h : l.Nodup) : (v.walked l).Nodup :=
  v.nodup_slots (h.sublist (List.take_sublist _ _))

theorem mem_slots_of_walked {l : List ℕ} {p : DirCursor} (h : p ∈ v.walked l) : p ∈ v.slots l := by
  rw [slots_eq_walked_append]
  exact List.mem_append_left _ h

end Volume

/-! ## Walks along a chain of the disk -/

section
variable {fs : Fat32Instance} {d : Disk} {σ : Type*} {c : ℕ}

theorem scanSector_eq (f : σ → DirCursor → Block → σ × Bool) (buf : Block) (clus s n k : ℕ) (st : σ) :
    scanSector f buf clus s n (32 * k) st =
      scan (fun st p => f st p buf) ((List.range' k n).map fun k => ⟨clus, s, 32 * k⟩) st := by
  induction n generalizing k st with
  | zero => rfl
  | succ n ih =>
    rw [List.range'_succ, List.map_cons, scanSector]
    rcases hf : f st ⟨clus, s, 32 * k⟩ buf with ⟨st', b⟩
    cases b with
    | true => rw [scan_cons_stop hf]
    | false => rw [scan_cons_go hf]; exact ih (k + 1) st'

theorem scanCluster_eq (hread : ∀ s, fs.readBlocks d s = some (d.sectors s))
    (f : σ → DirCursor → Block → σ × Bool) (c n s : ℕ) (st : σ) :
    scanCluster fs d f c n s st =
      some (scan (fun st p => f st p ((diskVolume fs d).block p))
        ((List.range' s n).flatMap fun s => (List.range 16).map fun k => ⟨c, s, 32 * k⟩) st) := by
  induction n generalizing s st with
  | zero => rfl
  | succ n ih =>
    rw [scanCluster, hread]
    have hsec : scanSector f (d.sectors ((clusterToSector fs c + s) % 2 ^ 32)) c s 16 0 st =
        scan (fun st p => f st p ((diskVolume fs d).block p))
          ((List.range 16).map fun k => ⟨c, s, 32 * k⟩) st := by
      rw [← Nat.mul_zero 32, scanSector_eq, List.range_eq_range']
      refine (scan_congr (fun p hp st => ?_) st).symm
      obtain ⟨k, -, rfl⟩ := List.mem_map.mp hp
      rfl
    rw [List.range'_succ, List.flatMap_cons]
    simp only [hsec]
    rcases hr : scan (fun st p => f st p ((diskVolume fs d).block p))
      ((List.range 16).map fun k => ⟨c, s, 32 * k⟩) st with ⟨st', b⟩
    cases b with
    | true => rw [scan_append_stop hr]
    | false => rw [scan_append_go hr]; exact ih (s + 1) st'

/-- A walk along a chain that ends is a loop over its slots, and a walk that does not stop ends at
the last cluster it covers. -/
theorem scanChain_of_walk (hread : ∀ s, fs.readBlocks d s = some (d.sectors s))
    (f : σ → DirCursor → Block → σ × Bool) {l : List ℕ} (h2 : 2 ≤ c)
    (h : Walk (fatNext fs d) c l) (guard last : ℕ) (st : σ) :
    ∃ last', scanChain fs d f guard c last st =
        some ((scan (fun st p => f st p ((diskVolume fs d).block p))
            ((diskVolume fs d).slots (l.take guard)) st).1, last',
          (scan (fun st p => f st p ((diskVolume fs d).block p))
            ((diskVolume fs d).slots (l.take guard)) st).2) ∧
      ((scan (fun st p => f st p ((diskVolume fs d).block p))
          ((diskVolume fs d).slots (l.take guard)) st).2 = false →
        last' = (l.take guard).getLastD last) := by
  -- on the clusters that the guard still allows
  induction guard generalizing c last l st with
  | zero => exact ⟨last, rfl, fun _ => rfl⟩
  | succ guard ih =>
    obtain ⟨t, rfl⟩ := h.eq_cons
    have hslots : (diskVolume fs d).slots ((c :: t).take (guard + 1)) =
        clusterSlots fs.sectorsPerCluster c ++ (diskVolume fs d).slots (t.take guard) := by
      rw [List.take_succ_cons]
      rfl
    have hclus : scanCluster fs d f c fs.sectorsPerCluster 0 st =
        some (scan (fun st p => f st p ((diskVolume fs d).block p))
          (clusterSlots fs.sectorsPerCluster c) st) := by
      rw [scanCluster_eq hread f c _ 0 st, clusterSlots,
        List.range_eq_range' (n := fs.sectorsPerCluster)]
    rw [scanChain, if_neg (show ¬ c < 2 by omega), hclus, hslots]
    rcases hr : scan (fun st p => f st p ((diskVolume fs d).block p))
      (clusterSlots fs.sectorsPerCluster c) st with ⟨st', b⟩
    cases b with
    | true =>
      rw [scan_append_stop hr]
      exact ⟨c, rfl, fun h => by cases h⟩
    | false =>
      rw [scan_append_go hr]
      simp only
      rcases clusterHasNext_walk h with ⟨rfl, hno⟩ | ⟨hhas, ht, hb⟩
      · rw [hno, List.take_nil]
        exact ⟨c, rfl, fun _ => by simp⟩
      · rw [hhas, if_pos rfl]
        obtain ⟨last', h1, h2⟩ := ih hb ht c st'
        refine ⟨last', h1, fun hstop => ?_⟩
        rw [h2 hstop, List.take_succ_cons]
        simp [List.getLastD_eq_getLast?, List.getLast?_cons]

/-- A walk over a directory starts at its first cluster. -/
theorem dirStart_of_walk {p : ℕ} {l : List ℕ} (hp : (if p < 2 then fs.rootCluster else p) = c)
    (h2 : 2 ≤ c) (h : Walk (fatNext fs d) c l) : dirStart fs d p = some c := by
  rw [dirStart, hp]
  simp only [fatChainHasCycle_of_walk h]
  rw [if_neg (show ¬ c < 2 by omega)]
  rfl

end

namespace Geometry

variable {fs : Fat32Instance} (g : Geometry fs) {σ : Type*} {c : ℕ} {d : Disk}

include g

/-- A walk along a chain is a loop over its slots, and a walk that does not stop ends at the last
cluster it covers. -/
theorem scanChain_eq (f : σ → DirCursor → Block → σ × Bool) {l : List ℕ}
    (h : (volume fs d).forest.Chain c l) (guard last : ℕ) (st : σ) :
    ∃ last', scanChain fs d f guard c last st =
        some ((scan (fun st p => f st p ((volume fs d).block p))
            ((volume fs d).slots (l.take guard)) st).1, last',
          (scan (fun st p => f st p ((volume fs d).block p))
            ((volume fs d).slots (l.take guard)) st).2) ∧
      ((scan (fun st p => f st p ((volume fs d).block p))
          ((volume fs d).slots (l.take guard)) st).2 = false →
        last' = (l.take guard).getLastD last) := by
  have h2 : 2 ≤ c := (h.2 c h.1.mem_head).1.1
  -- the slots of the chain lie where the volume has them
  have hblock : ∀ p ∈ (volume fs d).slots (l.take guard), ∀ st,
      f st p ((volume fs d).block p) = f st p ((diskVolume fs d).block p) := by
    intro p hp st
    obtain ⟨hpl, hps, -⟩ := Volume.mem_slots.mp hp
    have hpc : 2 ≤ p.cluster ∧ p.cluster < fs.clusters := (h.2 _ (List.mem_of_mem_take hpl)).1
    rw [Volume.block, Volume.block, g.diskVolume_data hpc hps]
  rw [scan_congr hblock st]
  exact scanChain_of_walk (g.noFault.read d) f h2 (g.walk_fatNext h) guard last st

/-- A walk over a directory starts at its first cluster. -/
theorem dirStart_eq {p : ℕ} {l : List ℕ} (hp : (if p < 2 then fs.rootCluster else p) = c)
    (h : (volume fs d).forest.Chain c l) : dirStart fs d p = some c :=
  dirStart_of_walk hp (h.2 c h.1.mem_head).1.1 (g.walk_fatNext h)

end Geometry

/-! ## The search for a name -/

/-- What an entry that the search passes leaves in the long-name buffer. -/
def lfnStep (buf : LfnBuf) (e : Entry) : LfnBuf :=
  if e.IsFree then .clear
  else if e.attr = 0x0F then buf.store e
  else if e.attr &&& 0x08 ≠ 0 then .clear
  else if buf 0 ≠ 0 then .clear else buf

/-- A file's entry ends the collected long name. -/
theorem lfnStep_of_named {e : Entry} (buf : LfnBuf) (h : e.IsNamed) :
    lfnStep buf e = if buf 0 ≠ 0 then .clear else buf := by
  rw [lfnStep, if_neg h.1, if_neg h.2.1, if_neg (not_not.mpr h.2.2)]

theorem lfnStep_of_free {e : Entry} (buf : LfnBuf) (h : e.IsFree) : lfnStep buf e = .clear :=
  if_pos h

namespace Volume

variable (v : Volume)

/-- The long-name buffer behind the slots `A`. -/
def lfnAfter (A : List DirCursor) : LfnBuf := A.foldl (fun buf p => lfnStep buf (v.entry p)) .clear

/-- The entry in slot `p` carries the name `target` when the slots `A` come before it. -/
def Matches (target : CString) (A : List DirCursor) (p : DirCursor) : Prop :=
  (v.entry p).IsNamed ∧ entryMatches (v.lfnAfter A) (v.entry p) target = true

/-- No slot of `A` is the end mark or carries the name. -/
def Passed (target : CString) (A : List DirCursor) : Prop :=
  ∀ A' p A'', A = A' ++ p :: A'' → v.entry p 0 ≠ 0 ∧ ¬ v.Matches target A' p

/-- Sector and offset of the first free slot. -/
def firstFree (fs : Fat32Instance) (A : List DirCursor) : Option (ℕ × ℕ) :=
  (A.find? fun p => decide (v.entry p).IsFree).map fun p => (dirCursorSector fs p, p.offsetInSector)

variable {v}

theorem passed_nil (target : CString) : v.Passed target [] := fun A' _ _ h => by
  cases A' <;> cases h

theorem passed_snoc {target : CString} {A : List DirCursor} {p : DirCursor} (h : v.Passed target A)
    (h0 : v.entry p 0 ≠ 0) (hm : ¬ v.Matches target A p) : v.Passed target (A ++ [p]) :=
  fun _ _ _ heq => forall_split_snoc h ⟨h0, hm⟩ heq

theorem lfnAfter_snoc (A : List DirCursor) (p : DirCursor) :
    v.lfnAfter (A ++ [p]) = lfnStep (v.lfnAfter A) (v.entry p) := by
  rw [lfnAfter, List.foldl_append]
  rfl

theorem firstFree_snoc (fs : Fat32Instance) (A : List DirCursor) (p : DirCursor) :
    v.firstFree fs (A ++ [p]) = (v.firstFree fs A <|>
      if (v.entry p).IsFree then some (dirCursorSector fs p, p.offsetInSector) else none) := by
  rw [firstFree, firstFree, List.find?_append]
  cases h : A.find? fun p => decide (v.entry p).IsFree with
  | some q => rfl
  | none =>
    by_cases hp : (v.entry p).IsFree <;> simp [hp]

/-- Where a search through a directory ends. -/
inductive ScanResult (fs : Fat32Instance) (v : Volume) (target : CString) (l : List ℕ)
    (slot : DirSlot) : Prop
  | found {A B : List DirCursor} {p : DirCursor} (hw : v.walked l = A ++ p :: B)
      (hA : v.Passed target A) (hm : v.Matches target A p)
      (hf : slot.found = some ⟨dirCursorSector fs p, p.offsetInSector, (v.entry p).clus,
        (v.entry p).size⟩)
  | endMark {A B : List DirCursor} {p : DirCursor} (hw : v.walked l = A ++ p :: B)
      (hA : v.Passed target A) (h0 : v.entry p 0 = 0) (hf : slot.found = none)
      (hfree : slot.free = v.firstFree fs (A ++ [p]))
  | full (hA : v.Passed target (v.walked l)) (hf : slot.found = none)
      (hfree : slot.free = v.firstFree fs (v.walked l))
      (hlast : slot.lastClus = (l.take walkLimit).getLastD 0)

end Volume

namespace Geometry

variable {fs : Fat32Instance} (g : Geometry fs) {c : ℕ} {d : Disk}

/-- The invariant of the search: what its locals hold behind the slots `A`. -/
private def ScanInv (fs : Fat32Instance) (v : Volume) (target : CString) (A : List DirCursor)
    (st : ScanState) : Prop :=
  v.Passed target A ∧ st.lfnBuf = v.lfnAfter A ∧ st.found = none ∧ st.free = v.firstFree fs A

private theorem scanInv_step {v : Volume} {target : CString} {A : List DirCursor} {st st' : ScanState}
    {p : DirCursor} (h : ScanInv fs v target A st)
    (hf : dirScanBody fs target st p (v.block p) = (st', false)) :
    ScanInv fs v target (A ++ [p]) st' := by
  obtain ⟨hA, hbuf, hnone, hfree⟩ := h
  rw [dirScanBody, ← Volume.entry_eq] at hf
  simp only at hf
  -- the branches of the body in its order: free, long name, volume label, the name
  by_cases hF : (v.entry p).IsFree
  · have hF' : v.entry p 0 = 0 ∨ v.entry p 0 = deleted := hF
    rw [if_pos hF'] at hf
    by_cases h0 : v.entry p 0 = 0
    · rw [if_pos h0] at hf
      cases hf
    · rw [if_neg h0] at hf
      cases hf
      refine ⟨Volume.passed_snoc hA h0 fun hm => hm.1.1 hF, ?_, hnone, ?_⟩
      · rw [Volume.lfnAfter_snoc, lfnStep, if_pos hF]
      · rw [Volume.firstFree_snoc, if_pos hF, hfree]
  · have h0 : v.entry p 0 ≠ 0 := fun h => hF (.inl h)
    have hF' : ¬ (v.entry p 0 = 0 ∨ v.entry p 0 = deleted) := hF
    have hfree' : v.firstFree fs (A ++ [p]) = v.firstFree fs A := by
      rw [Volume.firstFree_snoc, if_neg hF]
      cases v.firstFree fs A <;> rfl
    rw [if_neg hF'] at hf
    by_cases hL : (v.entry p).attr = 0x0F
    · rw [if_pos hL] at hf
      cases hf
      refine ⟨Volume.passed_snoc hA h0 fun hm => hm.1.2.1 hL, ?_, hnone, hfree'.symm ▸ hfree⟩
      rw [Volume.lfnAfter_snoc, lfnStep, if_neg hF, if_pos hL, hbuf]
    · rw [if_neg hL] at hf
      by_cases hV : (v.entry p).attr &&& 0x08 = 0
      · rw [if_neg (not_not.mpr hV)] at hf
        by_cases hM : entryMatches st.lfnBuf (v.entry p) target = true
        · rw [if_pos hM] at hf
          cases hf
        · rw [if_neg hM] at hf
          cases hf
          refine ⟨Volume.passed_snoc hA h0 fun hm => hM (hbuf ▸ hm.2), ?_, hnone, hfree'.symm ▸ hfree⟩
          rw [Volume.lfnAfter_snoc, lfnStep, if_neg hF, if_neg hL, if_neg (not_not.mpr hV), hbuf]
      · rw [if_pos hV] at hf
        cases hf
        refine ⟨Volume.passed_snoc hA h0 fun hm => hV hm.1.2.2, ?_, hnone, hfree'.symm ▸ hfree⟩
        rw [Volume.lfnAfter_snoc, lfnStep, if_neg hF, if_neg hL, if_pos hV]

/-- The search stops at the end mark or at an entry with the name. -/
private theorem scanInv_stop {v : Volume} {target : CString} {A : List DirCursor} {st st' : ScanState}
    {p : DirCursor} (h : ScanInv fs v target A st)
    (hf : dirScanBody fs target st p (v.block p) = (st', true)) :
    (v.entry p 0 = 0 ∧ st'.found = none ∧ st'.free = v.firstFree fs (A ++ [p])) ∨
      (v.Matches target A p ∧ st'.found = some ⟨dirCursorSector fs p, p.offsetInSector,
        (v.entry p).clus, (v.entry p).size⟩) := by
  obtain ⟨hA, hbuf, hnone, hfree⟩ := h
  rw [dirScanBody, ← Volume.entry_eq] at hf
  simp only at hf
  by_cases hF : (v.entry p).IsFree
  · have hF' : v.entry p 0 = 0 ∨ v.entry p 0 = deleted := hF
    rw [if_pos hF'] at hf
    by_cases h0 : v.entry p 0 = 0
    · rw [if_pos h0] at hf
      cases hf
      exact .inl ⟨h0, hnone, by rw [Volume.firstFree_snoc, if_pos hF, hfree]⟩
    · rw [if_neg h0] at hf
      cases hf
  · have hF' : ¬ (v.entry p 0 = 0 ∨ v.entry p 0 = deleted) := hF
    rw [if_neg hF'] at hf
    by_cases hL : (v.entry p).attr = 0x0F
    · rw [if_pos hL] at hf
      cases hf
    · rw [if_neg hL] at hf
      by_cases hV : (v.entry p).attr &&& 0x08 = 0
      · rw [if_neg (not_not.mpr hV)] at hf
        by_cases hM : entryMatches st.lfnBuf (v.entry p) target = true
        · rw [if_pos hM] at hf
          cases hf
          exact .inr ⟨⟨⟨hF, hL, hV⟩, hbuf ▸ hM⟩, rfl⟩
        · rw [if_neg hM] at hf
          cases hf
      · rw [if_pos hV] at hf
        cases hf

include g

/-- What `dir_scan` returns on a directory. -/
theorem dirScan_spec {p : ℕ} {l : List ℕ} (hp : (if p < 2 then fs.rootCluster else p) = c)
    (h : (volume fs d).forest.Chain c l) (target : CString) :
    ∃ slot, dirScan fs d p target = some slot ∧
      Volume.ScanResult fs (volume fs d) target l slot := by
  obtain ⟨last, h1, h2⟩ := g.scanChain_eq (dirScanBody fs target) h 4096 c ⟨.clear, none, none⟩
  rw [dirScan, g.dirStart_eq hp h]
  simp only [h1]
  refine ⟨_, rfl, ?_⟩
  rcases scan_rule (f := fun st p => dirScanBody fs target st p ((volume fs d).block p))
    ((volume fs d).walked l) ⟨.clear, none, none⟩ (ScanInv fs (volume fs d) target)
    ⟨Volume.passed_nil _, rfl, rfl, rfl⟩ fun _ hI hf => scanInv_step hI hf with
    ⟨A, q, B, st, st', hw, hI, hf, hr⟩ | ⟨st', hI, hr⟩
  · have hr' : scan (fun st p => dirScanBody fs target st p ((volume fs d).block p))
      ((volume fs d).slots (l.take 4096)) ⟨.clear, none, none⟩ = (st', true) := hr
    rw [hr']
    rcases scanInv_stop hI hf with ⟨h0, hn, hfr⟩ | ⟨hm, hfd⟩
    · exact .endMark hw hI.1 h0 hn hfr
    · exact .found hw hI.1 hm hfd
  · have hr' : scan (fun st p => dirScanBody fs target st p ((volume fs d).block p))
      ((volume fs d).slots (l.take 4096)) ⟨.clear, none, none⟩ = (st', false) := hr
    rw [hr'] at h2 ⊢
    refine .full hI.1 hI.2.2.1 hI.2.2.2 ?_
    simp only [h2]
    obtain ⟨t, rfl⟩ := h.1.eq_cons
    simp [walkLimit, List.getLastD_eq_getLast?, List.take_succ_cons, List.getLast?_cons]

end Geometry

end PsychWard.Fat32
