import PsychWard.Fat32.Overwrite

/-!
# The two scanners of a directory

`fat32_delete_file` has a copy of the loop of `dir_scan`. The two treat the long-name buffer
differently at an entry that does not carry the name: the deletion clears it, the search only if it
begins with a character. Fragments of a long name whose first piece is missing thus stay in the
search's buffer and become the end of the next long name.

`firstCarrier` is a scanner with its rule for the buffer as a parameter; both loops are instances of
it, and they find the same entry unless one behind such left-over fragments carries the name in one
of the two readings only.
-/

namespace PsychWard.Fat32

/-- What an entry that the deletion passes leaves in its long-name buffer. -/
def deleteLfnStep (buf : LfnBuf) (e : Entry) : LfnBuf :=
  if e.IsFree then .clear
  else if e.attr = 0x0F then buf.store e
  else .clear

namespace Volume

variable (v : Volume) (step : LfnBuf → Entry → LfnBuf)

/-- The buffer of a scanner behind the slots `A`. -/
def bufferAfter (A : List DirCursor) : LfnBuf := A.foldl (fun buf p => step buf (v.entry p)) .clear

/-- For the scanner, the entry in slot `p` behind the slots `A` carries the name. -/
def Carries (target : CString) (A : List DirCursor) (p : DirCursor) : Prop :=
  (v.entry p).IsNamed ∧ entryMatches (v.bufferAfter step A) (v.entry p) target = true

instance (target : CString) (A : List DirCursor) (p : DirCursor) :
    Decidable (v.Carries step target A p) := inferInstanceAs (Decidable (_ ∧ _))

/-- The scanner goes past the slots `A`. -/
def Passes (target : CString) (A : List DirCursor) : Prop :=
  ∀ A' p A'', A = A' ++ p :: A'' → v.entry p 0 ≠ 0 ∧ ¬ v.Carries step target A' p

/-- The slot at which a scanner finds the name. -/
def firstCarrier (target : CString) : LfnBuf → List DirCursor → Option DirCursor
  | _, [] => none
  | buf, p :: ps =>
    if v.entry p 0 = 0 then none
    else if (v.entry p).IsNamed ∧ entryMatches buf (v.entry p) target = true then some p
    else firstCarrier target (step buf (v.entry p)) ps

variable {v step} {target : CString} {A B : List DirCursor} {p : DirCursor}

theorem bufferAfter_snoc (A : List DirCursor) (p : DirCursor) :
    v.bufferAfter step (A ++ [p]) = step (v.bufferAfter step A) (v.entry p) := by
  rw [bufferAfter, List.foldl_append]
  rfl

theorem passes_snoc (h : v.Passes step target A) (h0 : v.entry p 0 ≠ 0)
    (hp : ¬ v.Carries step target A p) : v.Passes step target (A ++ [p]) :=
  fun _ _ _ heq => forall_split_snoc h ⟨h0, hp⟩ heq

theorem passes_nil : v.Passes step target [] := by
  intro A' p A'' h
  cases A' <;> cases h

theorem firstCarrier_cons (A : List DirCursor) (p : DirCursor) (B : List DirCursor) :
    v.firstCarrier step target (v.bufferAfter step A) (p :: B) =
      if v.entry p 0 = 0 then none
      else if v.Carries step target A p then some p
      else v.firstCarrier step target (v.bufferAfter step (A ++ [p])) B := by
  rw [bufferAfter_snoc]
  rfl

/-- Behind slots that it passes, a scanner goes on with the buffer they leave. -/
theorem firstCarrier_append (h : v.Passes step target A) :
    v.firstCarrier step target .clear (A ++ B) =
      v.firstCarrier step target (v.bufferAfter step A) B := by
  suffices hgen : ∀ (P R : List DirCursor), A = P ++ R →
      v.firstCarrier step target (v.bufferAfter step P) (R ++ B) =
        v.firstCarrier step target (v.bufferAfter step A) B from hgen [] A rfl
  intro P R hPR
  induction R generalizing P with
  | nil =>
    rw [List.append_nil] at hPR
    rw [hPR, List.nil_append]
  | cons p R ih =>
    obtain ⟨h0, hno⟩ := h P p R hPR
    rw [List.cons_append, firstCarrier_cons, if_neg h0, if_neg hno]
    exact ih (P ++ [p]) (by rw [hPR, List.append_assoc]; rfl)

/-- A scanner stops at the first slot that carries the name. -/
theorem firstCarrier_carries (h : v.Passes step target A) (hp : v.Carries step target A p) :
    v.firstCarrier step target .clear (A ++ p :: B) = some p := by
  have h0 : v.entry p 0 ≠ 0 := fun h0 => hp.1.1 (.inl h0)
  rw [firstCarrier_append h, firstCarrier_cons, if_neg h0, if_pos hp]

theorem mem_of_firstCarrier {buf : LfnBuf} {q : DirCursor} {S : List DirCursor}
    (h : v.firstCarrier step target buf S = some q) : q ∈ S := by
  induction S generalizing buf with
  | nil => cases h
  | cons p S ih =>
    rw [firstCarrier] at h
    split at h
    · cases h
    · split at h
      · obtain rfl := Option.some.inj h
        exact List.mem_cons_self
      · exact List.mem_cons_of_mem _ (ih h)

/-- Past an entry without the name, a scanner finds the name further on or not at all. -/
theorem firstCarrier_ne (h : v.Passes step target A) (hp : ¬ v.Carries step target A p)
    (hnd : (A ++ p :: B).Nodup) : v.firstCarrier step target .clear (A ++ p :: B) ≠ some p := by
  rw [firstCarrier_append h, firstCarrier_cons]
  have hpB : p ∉ B := (List.nodup_cons.mp (List.nodup_append.mp hnd).2.1).1
  split
  · exact (Option.some_ne_none p).symm
  · intro hfound
    exact hpB (mem_of_firstCarrier hfound)

/-- As far as both scanners go: behind fragments that the search keeps and the deletion has
dropped, an entry carries the name for both or for neither. -/
def ReadAlike (v : Volume) (target : CString) (l : List ℕ) : Prop :=
  ∀ A p B, v.walked l = A ++ p :: B → v.Passes lfnStep target A → v.Passes deleteLfnStep target A →
    v.bufferAfter lfnStep A ≠ v.bufferAfter deleteLfnStep A →
      (v.Carries lfnStep target A p ↔ v.Carries deleteLfnStep target A p)

/-- The two scanners find the same slot exactly if they read alike. -/
theorem firstCarrier_eq_iff {l : List ℕ} (hnd : (v.walked l).Nodup) :
    v.firstCarrier lfnStep target .clear (v.walked l) =
        v.firstCarrier deleteLfnStep target .clear (v.walked l) ↔ v.ReadAlike target l := by
  constructor
  · intro heq A p B hw hscan hdelete _
    rw [hw] at heq hnd
    by_cases hs : v.Carries lfnStep target A p
    · by_cases hd : v.Carries deleteLfnStep target A p
      · exact iff_of_true hs hd
      · rw [firstCarrier_carries hscan hs] at heq
        exact absurd heq.symm (firstCarrier_ne hdelete hd hnd)
    · by_cases hd : v.Carries deleteLfnStep target A p
      · rw [firstCarrier_carries hdelete hd] at heq
        exact absurd heq (firstCarrier_ne hscan hs hnd)
      · exact iff_of_false hs hd
  · intro halike
    -- both go on as long as neither finds the name
    suffices hgen : ∀ (A B : List DirCursor), v.walked l = A ++ B → v.Passes lfnStep target A →
        v.Passes deleteLfnStep target A →
        v.firstCarrier lfnStep target (v.bufferAfter lfnStep A) B =
          v.firstCarrier deleteLfnStep target (v.bufferAfter deleteLfnStep A) B from
      hgen [] (v.walked l) rfl passes_nil passes_nil
    intro A B hw hscan hdelete
    induction B generalizing A with
    | nil => rfl
    | cons p B ih =>
      have hboth : v.Carries lfnStep target A p ↔ v.Carries deleteLfnStep target A p := by
        by_cases hbuf : v.bufferAfter lfnStep A = v.bufferAfter deleteLfnStep A
        · rw [Carries, Carries, hbuf]
        · exact halike A p B hw hscan hdelete hbuf
      rw [firstCarrier_cons, firstCarrier_cons]
      by_cases h0 : v.entry p 0 = 0
      · rw [if_pos h0, if_pos h0]
      · rw [if_neg h0, if_neg h0]
        by_cases hs : v.Carries lfnStep target A p
        · rw [if_pos hs, if_pos (hboth.mp hs)]
        · have hd : ¬ v.Carries deleteLfnStep target A p := fun hd => hs (hboth.mpr hd)
          rw [if_neg hs, if_neg hd]
          exact ih (A ++ [p]) (by rw [hw, List.append_assoc]; rfl) (passes_snoc hscan h0 hs)
            (passes_snoc hdelete h0 hd)

end Volume

/-! ## The loops are scanners -/

section
variable {fs : Fat32Instance} {v : Volume} {target : CString}

theorem dirScanBody_eq (st : ScanState) (hnone : st.found = none) (S : List DirCursor) :
    (scan (fun st p => dirScanBody fs target st p (v.block p)) S st).1.found =
      (v.firstCarrier lfnStep target st.lfnBuf S).map fun p =>
        ⟨dirCursorSector fs p, p.offsetInSector, (v.entry p).clus, (v.entry p).size⟩ := by
  -- on the slots; both sides take the same branch at each of them
  induction S generalizing st with
  | nil => exact hnone
  | cons p S ih =>
    rw [scan, Volume.firstCarrier, dirScanBody, ← Volume.entry_eq]
    simp only
    by_cases h0 : v.entry p 0 = 0
    · rw [if_pos (.inl h0), if_pos h0, if_pos h0]
      exact hnone
    · rw [if_neg h0, if_neg h0, lfnStep]
      by_cases hfree : (v.entry p).IsFree
      · have hfree' : v.entry p 0 = 0 ∨ v.entry p 0 = deleted := hfree
        rw [if_pos hfree', if_neg (fun h => h.1.1 hfree), if_pos hfree]
        exact ih _ hnone
      · have hfree' : ¬ (v.entry p 0 = 0 ∨ v.entry p 0 = deleted) := hfree
        rw [if_neg hfree', if_neg hfree]
        by_cases hl : (v.entry p).attr = 0x0F
        · rw [if_pos hl, if_neg (fun h => h.1.2.1 hl), if_pos hl]
          exact ih _ hnone
        · rw [if_neg hl, if_neg hl]
          by_cases hv : (v.entry p).attr &&& 0x08 = 0
          · rw [if_neg (not_not.mpr hv), if_neg (not_not.mpr hv)]
            have hnamed : (v.entry p).IsNamed := ⟨hfree, hl, hv⟩
            by_cases hm : entryMatches st.lfnBuf (v.entry p) target = true
            · rw [if_pos hm, if_pos ⟨hnamed, hm⟩]
              rfl
            · have hno : ¬ ((v.entry p).IsNamed ∧ entryMatches st.lfnBuf (v.entry p) target = true) :=
                fun h => hm h.2
              rw [if_neg hm, if_neg hno]
              exact ih _ hnone
          · rw [if_pos hv, if_neg (fun h => hv h.1.2.2), if_pos hv]
            exact ih _ hnone

theorem deleteBody_eq (st : DeleteState) (hnone : st.found = none) (S : List DirCursor) :
    (scan (fun st p => deleteBody target st p (v.block p)) S st).1.found.map Prod.fst =
      v.firstCarrier deleteLfnStep target st.lfnBuf S := by
  induction S generalizing st with
  | nil =>
    rw [scan, hnone]
    rfl
  | cons p S ih =>
    rw [scan, Volume.firstCarrier, deleteBody, ← Volume.entry_eq]
    generalize (if p.offsetInSector = 0 then none else st.lfnStartIdx) = idx
    by_cases h0 : v.entry p 0 = 0
    · rw [if_pos h0, if_pos h0, hnone]
      rfl
    · rw [if_neg h0, if_neg h0, deleteLfnStep]
      -- this loop tells the end mark and a deleted entry apart, where the search calls both free
      by_cases hdel : v.entry p 0 = deleted
      · have hfree : (v.entry p).IsFree := .inr hdel
        rw [if_pos hdel, if_neg (fun h => h.1.1 hfree), if_pos hfree]
        exact ih _ hnone
      · have hfree : ¬ (v.entry p).IsFree := fun h => h.elim h0 hdel
        rw [if_neg hdel, if_neg hfree]
        by_cases hl : (v.entry p).attr = 0x0F
        · rw [if_pos hl, if_neg (fun h => h.1.2.1 hl), if_pos hl]
          exact ih _ hnone
        · rw [if_neg hl, if_neg hl]
          by_cases hv : (v.entry p).attr &&& 0x08 = 0
          · rw [if_neg (not_not.mpr hv)]
            have hnamed : (v.entry p).IsNamed := ⟨hfree, hl, hv⟩
            by_cases hm : entryMatches st.lfnBuf (v.entry p) target = true
            · rw [if_pos hm, if_pos ⟨hnamed, hm⟩]
              rfl
            · rw [if_neg hm, if_neg (fun h => hm h.2)]
              exact ih _ hnone
          · rw [if_pos hv, if_neg (fun h => hv h.1.2.2)]
            exact ih _ hnone

end

/-! ## The search and the deletion -/

/-- Sector and offset of the 8.3 entry that a search for the name finds. -/
def scanTarget (fs : Fat32Instance) (d : Disk) (p : ℕ) (name : CString) : Option (ℕ × ℕ) :=
  (lookup fs d p name).map fun f => (f.sector, f.offset)

/-- Sector and offset of the 8.3 entry that a deletion of the name marks. -/
def deleteTarget (fs : Fat32Instance) (d : Disk) (p : ℕ) (name : CString) : Option (ℕ × ℕ) :=
  (deleteSearch fs d (orRoot fs p) name).map fun r => (dirCursorSector fs r.1, r.1.offsetInSector)

/-- `rm` of a path marks the entry that a search for it finds, and succeeds exactly if there is
one. -/
structure ScannersAgree (fs : Fat32Instance) (d : Disk) (path : CString) (p : ℕ) (name : CString) :
    Prop where
  entry : deleteTarget fs d p name = scanTarget fs d p name
  result : (fat32DeleteFile fs d path).1 = (scanTarget fs d p name).isSome

open Volume

namespace Geometry

variable {fs : Fat32Instance} (g : Geometry fs) {d : Disk} {l : List ℕ} {p : ℕ} {name : CString}

include g

theorem scanTarget_eq (h : (volume fs d).forest.Chain (dirHead fs p) l) :
    scanTarget fs d p name =
      ((volume fs d).firstCarrier lfnStep name .clear ((volume fs d).walked l)).map fun q =>
        (dirCursorSector fs q, q.offsetInSector) := by
  obtain ⟨last, hscan, -⟩ := g.scanChain_eq (dirScanBody fs name) h 4096 (dirHead fs p)
    ⟨.clear, none, none⟩
  rw [scanTarget, lookup, dirScan, g.dirStart_eq (c := dirHead fs p) rfl h]
  simp only [hscan, Option.bind_some]
  rw [dirScanBody_eq _ rfl, Option.map_map]
  rfl

/-- The slot that a deletion finds. -/
theorem deleteSearch_fst (h : (volume fs d).forest.Chain (dirHead fs p) l) :
    (deleteSearch fs d (orRoot fs p) name).map Prod.fst =
      (volume fs d).firstCarrier deleteLfnStep name .clear ((volume fs d).walked l) := by
  obtain ⟨last, hscan, -⟩ := g.scanChain_eq (deleteBody name) h 4096 (dirHead fs p)
    ⟨.clear, none, none⟩
  rw [deleteSearch, g.dirStart_eq (c := dirHead fs p) rfl h]
  simp only [hscan, Option.map_map]
  exact deleteBody_eq ⟨.clear, none, none⟩ rfl ((volume fs d).walked l)

theorem deleteTarget_eq (h : (volume fs d).forest.Chain (dirHead fs p) l) :
    deleteTarget fs d p name =
      ((volume fs d).firstCarrier deleteLfnStep name .clear ((volume fs d).walked l)).map fun q =>
        (dirCursorSector fs q, q.offsetInSector) := by
  rw [← g.deleteSearch_fst h, deleteTarget, Option.map_map]
  rfl

/-- A deletion succeeds exactly if it finds an entry to mark. -/
theorem fat32DeleteFile_fst {path : CString} (hres : resolveTarget fs d path = some (p, name)) :
    (fat32DeleteFile fs d path).1 = (deleteTarget fs d p name).isSome := by
  rw [fat32DeleteFile, hres, deleteTarget]
  simp only [Option.isSome_map]
  cases deleteSearch fs d (orRoot fs p) name with
  | none => rfl
  | some r =>
    simp only [g.write]
    rfl

/-- Different slots of a directory lie at different places of the disk. -/
theorem slot_inj (h : (volume fs d).forest.Chain (dirHead fs p) l) {a b : DirCursor}
    (ha : a ∈ (volume fs d).walked l) (hb : b ∈ (volume fs d).walked l)
    (heq : (dirCursorSector fs a, a.offsetInSector) = (dirCursorSector fs b, b.offsetInSector)) :
    a = b := by
  obtain ⟨hsa, hca, hka⟩ := g.dirCursorSector_eq h.2 (mem_slots_of_walked ha)
  obtain ⟨hsb, hcb, hkb⟩ := g.dirCursorSector_eq h.2 (mem_slots_of_walked hb)
  obtain ⟨hsector, hoffset⟩ := Prod.mk.inj heq
  rw [hsa, hsb] at hsector
  obtain ⟨hcluster, hk⟩ := dataSector_inj hca.1 hcb.1 hka hkb hsector
  cases a
  cases b
  simp only at hcluster hk hoffset
  rw [hcluster, hk, hoffset]

/-- Whatever the sectors of a directory hold, the search and the deletion agree on a name exactly if
they read the directory alike. -/
theorem scannersAgree_iff (h : (volume fs d).forest.Chain (dirHead fs p) l) {path : CString}
    (hres : resolveTarget fs d path = some (p, name)) :
    ScannersAgree fs d path p name ↔ (volume fs d).ReadAlike name l := by
  rw [← firstCarrier_eq_iff (nodup_walked h.1.nodup)]
  constructor
  · intro hagree
    have hentry := hagree.entry
    rw [g.scanTarget_eq h, g.deleteTarget_eq h] at hentry
    cases hs : (volume fs d).firstCarrier lfnStep name .clear ((volume fs d).walked l) with
    | none =>
      rw [hs] at hentry
      exact (Option.map_eq_none_iff.mp hentry).symm
    | some a =>
      rw [hs] at hentry
      obtain ⟨b, hb, hab⟩ := Option.map_eq_some_iff.mp hentry
      rw [hb, g.slot_inj h (mem_of_firstCarrier hs) (mem_of_firstCarrier hb) hab.symm]
  · intro heq
    have hentry : deleteTarget fs d p name = scanTarget fs d p name := by
      rw [g.scanTarget_eq h, g.deleteTarget_eq h, heq]
    refine ⟨hentry, ?_⟩
    rw [g.fat32DeleteFile_fst hres, hentry]

end Geometry

/-! ## A left-over fragment -/

/-- A long name of 13 letters, and one that goes on. -/
def shortLong : CString := List.replicate 13 98

def longLong : CString := shortLong ++ [120, 120]

/-- The second piece of a long name without the first, the file `A`, and a file with a long name of
13 letters. -/
def fragmentDisk : Disk where
  sectors s :=
    if s = 1 then tableOf [2]
    else if s = 2 then
      (((Block.zero.setEntry 0 (lfnEntry longLong 0 2 2)).setEntry 32
        (shortEntry (formatFat32Name [65]) 0x20 0 0)).setEntry 64
          (lfnEntry shortLong 0 1 1)).setEntry 96 (shortEntry (formatFat32Name [66]) 0x20 0 0)
    else Block.zero
  log := []

/-- On a directory with one file the two scanners agree on its name. -/
theorem scannersAgree_byteFile :
    ScannersAgree tinyFs (fileDisk byteEntry [2, 3]) [70] 2 [70] := by
  have hchain : (volume tinyFs (fileDisk byteEntry [2, 3])).forest.Chain (dirHead tinyFs 2) [2] :=
    Volume.chain_of_chainOk (show (volume tinyFs (fileDisk byteEntry [2, 3])).ChainOk [2] by
      decide +kernel)
  apply (tinyFs_geometry.scannersAgree_iff hchain (by decide +kernel)).mpr
  intro A p B hw hscan _ hbuf
  cases A with
  | nil => exact absurd rfl hbuf
  | cons a A =>
    -- the first slot holds the file
    have ha : a = ⟨2, 0, 0⟩ := (List.cons.inj hw).1.symm
    refine absurd ?_ (hscan [] a A rfl).2
    rw [ha]
    decide +kernel

/-- The deletion finds a file that the search does not find. -/
theorem not_scannersAgree_shortLong :
    resolveTarget tinyFs fragmentDisk shortLong = some (2, shortLong) ∧
    scanTarget tinyFs fragmentDisk 2 shortLong = none ∧
    deleteTarget tinyFs fragmentDisk 2 shortLong = some (2, 96) ∧
    (fat32DeleteFile tinyFs fragmentDisk shortLong).1 = true ∧
    ¬ ScannersAgree tinyFs fragmentDisk shortLong 2 shortLong := by
  have hscan : scanTarget tinyFs fragmentDisk 2 shortLong = none := by decide +kernel
  have hdelete : deleteTarget tinyFs fragmentDisk 2 shortLong = some (2, 96) := by decide +kernel
  refine ⟨by decide +kernel, hscan, hdelete, by decide +kernel, fun h => ?_⟩
  have hentry := h.entry
  rw [hscan, hdelete] at hentry
  cases hentry

end PsychWard.Fat32
