import PsychWard.Fat32.PathSpec
import PsychWard.Fat32.Consistency

/-!
# Stopping an overwrite

`fat32_write_file` on an existing file frees the old chain, allocates the new one and stores the entry
last. Wherever it stops, the entry must not refer to free clusters, and a call that fails for lack of
room must leave the file readable. Both hold if and only if there was no old chain to free
(`overwrite_keeps_iff`).
-/

namespace PsychWard.Fat32

open Volume

/-- The path names the regular file with the entry `f`. -/
structure RegularFile (fs : Fat32Instance) (d : Disk) (path : CString) (f : FoundEntry) : Prop where
  dirs : DirPath fs d path
  found : ∃ p name l, resolveTarget fs d path = some (p, name) ∧ DirAt fs d p l ∧
    lookup fs d p name = some f
  file : (f.entry d).isDir = false
  notDot : ¬ (f.entry d).IsDot

/-- On the disk `x` the entry refers to no chain with a cluster that the table marks as free. -/
def NotDangling (fs : Fat32Instance) (x : Disk) (f : FoundEntry) : Prop :=
  2 ≤ (f.entry x).clus → ∀ c,
    Relation.ReflTransGen (fun a b => (volume fs x).next a = some b) (f.entry x).clus c →
      (volume fs x).fat c ≠ 0

/-- There is no room for the text once the old chain is freed. -/
def DiskFull (fs : Fat32Instance) (d : Disk) (f : FoundEntry) (text : List UInt8) : Prop :=
  text ≠ [] ∧ (volume fs (if 2 ≤ f.clus then (fatFreeChain fs d f.clus).2 else d)).freeClusters.length <
    needClusters fs text.length

/-- Wherever the write stops the entry does not dangle, and on a full disk the file keeps its old
contents. -/
def OverwriteKeeps (fs : Fat32Instance) (d : Disk) (path : CString) (f : FoundEntry)
    (text : List UInt8) : Prop :=
  (∀ x, Crash d (fat32WriteFile fs d path text).2 x → NotDangling fs x f) ∧
    ((fat32WriteFile fs d path text).1 = false → DiskFull fs d f text → ∀ offset,
      fat32ReadFile fs (fat32WriteFile fs d path text).2 path offset =
        fat32ReadFile fs d path offset)

/-- What the links of a chain lead to is in the chain. -/
theorem Volume.mem_of_reach {v : Volume} {c x : ℕ} {m : List ℕ} (h : v.forest.Chain c m)
    (hx : Relation.ReflTransGen (fun a b => v.next a = some b) c x) : x ∈ m := by
  induction hx with
  | refl => exact h.1.mem_head
  | tail _ hn ih => exact h.1.next_mem ih hn

namespace Geometry

variable {fs : Fat32Instance} (g : Geometry fs) {d d' x : Disk} {c : ℕ} {l m : List ℕ}
  {q : DirCursor}

include g

/-- The first thing `fat_free_chain` does is to mark the first cluster as free. -/
theorem fatFreeChain_first (h : (volume fs d).forest.Chain c l) :
    ∃ d₁, Writes (FatArea fs) d d₁ ∧ volume fs d₁ = (volume fs d).setFat c 0 ∧
      Writes (FatArea fs) d₁ (fatFreeChain fs d c).2 := by
  have hu : (volume fs d).Used c := h.2 c h.1.mem_head
  obtain ⟨d₁, h1, h2, h3⟩ := g.fatSetEntry_spec hu.1.2 0 d
  refine ⟨d₁, h3, h2, ?_⟩
  have hnd := h.1.nodup
  obtain ⟨t, rfl⟩ := h.1.eq_cons
  rw [fatFreeChain, g.fatChainHasCycle_eq_false h]
  simp only [Bool.false_eq_true, if_false]
  rw [fatFreeChainLoop, if_neg (show ¬ c < 2 by have := hu.1.1; omega), g.fatGetEntry_eq hu.1.2, h1]
  rcases clusterHasNext_chain h with ⟨rfl, hno⟩ | ⟨b, u, rfl, hhas, hb, ht⟩
  · rw [if_neg (by simp [hno])]
    exact .refl _ _
  · rw [if_pos hhas, hb]
    refine (g.fatFreeChainLoop_spec (l := b :: u) ?_ _).2
    rw [h2]
    refine Volume.chain_congr ht rfl fun y hy => ?_
    exact Function.update_of_ne (by rintro rfl; exact (List.nodup_cons.mp hnd).1 hy) _ _

/-- The sector of a slot is neither in the table nor in the clusters of another chain. -/
theorem slot_notMem (hl : ∀ x ∈ l, (volume fs d).Used x) (hq : q ∈ (volume fs d).slots l) :
    ¬ FatArea fs (dirCursorSector fs q) ∧
      ∀ m : List ℕ, (∀ x ∈ m, 2 ≤ x) → q.cluster ∉ m → ¬ ChainArea fs m (dirCursorSector fs q) := by
  obtain ⟨hsec, hcl, hs⟩ := g.dirCursorSector_eq hl hq
  rw [hsec]
  refine ⟨not_fatArea_dataSector, ?_⟩
  rintro m hm hqm ⟨a, ha, k, hk, heq⟩
  obtain ⟨rfl, -⟩ := dataSector_inj hcl.1 (hm a ha) hs hk heq
  exact hqm ha

theorem slot_notMem_alloc (hl : ∀ x ∈ l, (volume fs d).Used x) (hq : q ∈ (volume fs d).slots l) :
    ¬ AllocArea fs (volume fs d) (dirCursorSector fs q) := by
  obtain ⟨h1, h2⟩ := g.slot_notMem hl hq
  rintro (h | ⟨c, hc, k, hk, heq⟩)
  · exact h1 h
  · refine h2 [c] (fun x hx => ?_) (fun hqc => ?_) ⟨c, by simp, k, hk, heq⟩
    · rw [List.mem_singleton.mp hx]
      exact (mem_freeClusters.mp hc).1.1
    · rw [← List.mem_singleton.mp hqc] at hc
      exact not_used_of_free hc (hl _ (mem_slots.mp hq).1)

/-- Writing to clusters leaves the table alone. -/
theorem fat_of_chainArea (hw : ∀ s, ¬ ChainArea fs m s → x.sectors s = d.sectors s) :
    (volume fs x).fat = (volume fs d).fat := by
  funext c
  by_cases hc : c < fs.clusters
  · rw [volume_fat hc, volume_fat hc, hw]
    rintro ⟨a, ha, k, hk, heq⟩
    have hnot : ¬ FatArea fs (dataSector fs a k) := not_fatArea_dataSector
    refine hnot ?_
    rw [← heq]
    exact g.fatSector_lt g.copies_pos hc
  · exact (if_neg hc).trans (if_neg hc).symm

/-- A write to an existing file works on the slot of its entry. -/
theorem fat32WriteFile_found {p : ℕ} {name path : CString} (text : List UInt8)
    (hres : resolveTarget fs d path = some (p, name))
    (hl : (volume fs d).forest.Chain (dirHead fs p) l)
    {A B : List DirCursor} (hw : (volume fs d).walked l = A ++ q :: B)
    (hA : (volume fs d).Passed name A) (hm : (volume fs d).Matches name A q) :
    fat32WriteFile fs d path text = writeEntryAndData fs d (dirCursorSector fs q) q.offsetInSector
      ((volume fs d).entry q).clus ((volume fs d).block q) ((volume fs d).entry q) text := by
  obtain ⟨slot, hscan, -⟩ := g.dirScan_spec rfl hl name
  have hf := g.lookup_eq hl hw hA hm
  rw [lookup, hscan, Option.bind_some] at hf
  obtain ⟨hp, -⟩ := place_of_found hw hA hm
  rw [fat32WriteFile, hres]
  simp only [hscan, writeSlot, hf, g.read, g.block_eq hl.2 hp.mem_slots]
  rfl

/-- Freeing the old chain first leaves a point where the entry dangles. -/
theorem dangling_of_le {p : ℕ} {name path : CString} (text : List UInt8)
    (hc : (volume fs d).Consistent fs.rootCluster)
    (hres : resolveTarget fs d path = some (p, name)) (hdir : DirAt fs d p l)
    {A B : List DirCursor} (hw : (volume fs d).walked l = A ++ q :: B)
    (hA : (volume fs d).Passed name A) (hm : (volume fs d).Matches name A q)
    (hdot : ¬ ((volume fs d).entry q).IsDot) (hfile : ((volume fs d).entry q).isDir = false)
    (h2 : 2 ≤ ((volume fs d).entry q).clus) :
    ∃ x, Crash d (fat32WriteFile fs d path text).2 x ∧
      x.sectors (dirCursorSector fs q) = d.sectors (dirCursorSector fs q) ∧
      (volume fs x).fat ((volume fs d).entry q).clus = 0 := by
  obtain ⟨o, ho⟩ := hdir.owner
  obtain ⟨hp, hrefs⟩ := place_of_found hw hA hm
  have href := (hrefs _ _).mpr ⟨hm.1, hdot, rfl, h2, hfile⟩
  obtain ⟨k, hk⟩ := hc.chain (.ref ho hdir.chain.1 href)
  obtain ⟨d₁, h1, hv₁, h3⟩ := g.fatFreeChain_first hk
  obtain ⟨d₂, hfree, hv₂, -⟩ := g.fatFreeChain_spec hk
  rw [hfree] at h3
  have hdis : ∀ y ∈ l, y ∉ k.take 65536 := fun y hy hyk => by
    have heq := hc.disjoint ho (.ref ho hdir.chain.1 href) hdir.chain hk hy
      (List.mem_of_mem_take hyk)
    subst heq
    exact absurd (hc.owns_fun ho (.ref ho hdir.chain.1 href)).2 (by simp)
  have hl₂ : (volume fs d₂).forest.Chain (dirHead fs p) l := by
    rw [hv₂]
    exact clear_chain hdir.chain hdis
  have hq₂ : q ∈ (volume fs d₂).slots l := by
    rw [slots_congr (show (volume fs d₂).sectorsPerCluster = (volume fs d).sectorsPerCluster from rfl)]
    exact hp.mem_slots
  have hblock : (volume fs d).block q = (volume fs d₂).block q := by rw [hv₂]; rfl
  rw [g.fat32WriteFile_found _ hres hdir.chain hw hA hm, writeEntryAndData_of_le h2, hfree, hblock]
  obtain ⟨r, d', hrest, hcase⟩ := g.writeEntryAndData_spec hl₂.2 hq₂ ((volume fs d).entry q) text
  have hwrites : Writes (fun _ => True) d₂ d' := by
    rcases hcase with ⟨m, n, e₁, e₂, hst⟩ | ⟨-, -, hw', -⟩
    · exact hst.writes
    · exact hw'.mono fun _ _ => trivial
  rw [hrest]
  -- the crash behind the first write of the freeing: the entry is as it was, its cluster is free
  refine ⟨d₁, Crash.mid h1 ((h3.mono fun _ _ => trivial).trans hwrites),
    h1.sectors_eq (g.slot_notMem hdir.chain.2 hp.mem_slots).1, ?_⟩
  rw [hv₁]
  exact Function.update_self _ _ _

omit g in
/-- An entry without clusters never dangles. -/
theorem notDangling_of_eq {f : FoundEntry} (hs : x.sectors f.sector = d.sectors f.sector)
    (h : (f.entry d).clus < 2) : NotDangling fs x f := by
  have hent : f.entry x = f.entry d := by rw [FoundEntry.entry, FoundEntry.entry, hs]
  intro h2
  rw [hent] at h2
  omega

/-- Wherever a write that frees nothing stops, the entry does not dangle. -/
theorem notDangling_of_steps {e : Entry} {text : List UInt8} {n : ℕ} {d₁ d₂ : Disk} {r : Bool}
    {f : FoundEntry} (hl : ∀ x ∈ l, (volume fs d).Used x) (hq : q ∈ (volume fs d).slots l)
    (hst : WriteSteps fs d q e text m n d₁ d₂ r d')
    (hf : f.sector = dirCursorSector fs q ∧ f.offset = q.offsetInSector)
    (hclus : (f.entry d).clus < 2) (hx : Crash d d' x) : NotDangling fs x f := by
  obtain ⟨hf1, hf2⟩ := hf
  have hsec₁ : d₁.sectors f.sector = d.sectors f.sector := by
    rw [hf1]
    exact hst.alloc.sectors_eq (g.slot_notMem_alloc hl hq)
  have hm2 : ∀ y ∈ m, 2 ≤ y := fun y hy => (mem_freeClusters.mp (hst.sub hy)).1.1
  have hqm : q.cluster ∉ m := fun hqm =>
    not_used_of_free (hst.sub hqm) (hl _ (mem_slots.mp hq).1)
  -- from the write of the entry on it names the new chain
  have hafter : ∀ y : Disk, y.sectors f.sector = d₂.sectors f.sector →
      (volume fs y).fat = (volume fs d₂).fat → NotDangling fs y f := by
    intro y hsec hfat h2 c hreach
    have hent : f.entry y = (e.setClus n).setSize text.length := by
      obtain ⟨i, hi16, hi⟩ := aligned_of_slots hq
      rw [FoundEntry.entry, hsec, hst.entry, hf1, hf2, hi]
      have hself : (d₁.write (dirCursorSector fs q) (((volume fs d).block q).setEntry (32 * i)
          ((e.setClus n).setSize text.length))).sectors (dirCursorSector fs q) =
            ((volume fs d).block q).setEntry (32 * i) ((e.setClus n).setSize text.length) :=
        Function.update_self _ _ _
      rw [hself, Block.entry_setEntry_self _ _ hi16]
    by_cases ht : text = []
    · obtain ⟨-, rfl⟩ := hst.empty ht
      rw [hent, Entry.clus_setSize, Entry.clus_setClus _ (by omega)] at h2
      omega
    · obtain ⟨-, -, hhead⟩ := hst.head ht
      have hin := (mem_freeClusters.mp (hst.sub (List.mem_of_mem_head? hhead))).1
      have hn32 : n < 2 ^ 32 := by
        have h1 : n < fs.clusters := hin.2
        have h2 := g.clusters_le
        rw [fat32Eoc] at h2
        omega
      rw [hent, Entry.clus_setSize, Entry.clus_setClus _ hn32] at hreach
      have hchain : (volume fs d₂).forest.Chain n m := by
        rw [hst.volume_entry]
        exact Volume.chain_congr (allocated_chain hst.allocated
          (fun x hx => (mem_freeClusters.mp (hst.sub hx)).1) hhead) rfl fun _ _ => rfl
      have hnext : (volume fs y).next = (volume fs d₂).next := by
        funext a
        rw [Volume.next, Volume.next, hfat]
      rw [hnext] at hreach
      rw [hfat]
      exact (hchain.2 c (mem_of_reach hchain hreach) : (volume fs d₂).Used c).2
  have hentry : Writes (fun s => s = dirCursorSector fs q) d₁ d₂ := by
    rw [hst.entry]
    exact Writes.single (S := fun s => s = dirCursorSector fs q) rfl _
  rcases hx.split (hst.alloc.mono fun _ _ => trivial)
    ((hentry.mono fun _ _ => trivial).trans (hst.data.mono fun _ _ => trivial)) with hx | hx
  · refine notDangling_of_eq ?_ hclus
    rw [hf1]
    exact hx.sectors_eq hst.alloc (g.slot_notMem_alloc hl hq)
  · rcases hx.split hentry hst.data with hx | hx
    · rw [hst.entry] at hx
      rcases hx.write with rfl | rfl
      · exact notDangling_of_eq hsec₁ hclus
      · exact hafter _ (by rw [hst.entry]) (by rw [hst.entry])
    · refine hafter x (hx.sectors_eq hst.data ?_) ?_
      · rw [hf1]
        exact (g.slot_notMem hl hq).2 m hm2 hqm
      · exact g.fat_of_chainArea fun s hs => hx.sectors_eq hst.data hs

/-- The slot of a regular file. -/
theorem RegularFile.slot {path : CString} {f : FoundEntry} (hf : RegularFile fs d path f) :
    ∃ p name l A B q, resolveTarget fs d path = some (p, name) ∧ DirAt fs d p l ∧
      lookup fs d p name = some f ∧ (volume fs d).walked l = A ++ q :: B ∧
      (volume fs d).Passed name A ∧ (volume fs d).Matches name A q ∧
      q ∈ (volume fs d).slots l ∧ f.sector = dirCursorSector fs q ∧ f.offset = q.offsetInSector ∧
      f.clus = ((volume fs d).entry q).clus ∧ f.entry d = (volume fs d).entry q := by
  obtain ⟨p, name, l, hres, hdir, hlook⟩ := hf.found
  obtain ⟨A, B, q, hw, hA, hm, rfl⟩ := g.lookup_some hdir.chain hlook
  have hq := (place_of_found hw hA hm).1.mem_slots
  refine ⟨p, name, l, A, B, q, hres, hdir, hlook, hw, hA, hm, hq, rfl, rfl, rfl, ?_⟩
  rw [FoundEntry.entry, g.block_eq hdir.chain.2 hq]
  rfl

/-- A write that keeps the file had nothing to free. -/
theorem clus_lt_of_overwriteKeeps {path : CString} {f : FoundEntry} {text : List UInt8}
    (hc : (volume fs d).Consistent fs.rootCluster) (hf : RegularFile fs d path f)
    (h : OverwriteKeeps fs d path f text) : f.clus < 2 := by
  obtain ⟨p, name, l, A, B, q, hres, hdir, -, hw, hA, hm, -, hsec, -, hclus, hent⟩ :=
    RegularFile.slot g hf
  have hdot := hf.notDot
  have hfile := hf.file
  rw [hent] at hdot hfile
  by_contra h2
  obtain ⟨x, hx, hsame, h0⟩ := g.dangling_of_le text hc hres hdir hw hA hm hdot hfile
    (by omega)
  have hentx : f.entry x = (volume fs d).entry q := by
    rw [← hent, FoundEntry.entry, FoundEntry.entry, hsec, hsame]
  have hnot := h.1 x hx
  rw [NotDangling, hentx] at hnot
  exact hnot (by omega) _ .refl h0

/-- A write that has nothing to free keeps the file. -/
theorem overwriteKeeps_of_clus_lt {path : CString} {f : FoundEntry} (text : List UInt8)
    (hc : (volume fs d).Consistent fs.rootCluster) (hf : RegularFile fs d path f)
    (h2 : f.clus < 2) : OverwriteKeeps fs d path f text := by
  obtain ⟨p, name, l, A, B, q, hres, hdir, hlook, hw, hA, hm, hq, hsec, hoff, hclus, hent⟩ :=
    RegularFile.slot g hf
  have hroot : 2 ≤ fs.rootCluster :=
    (hc.used_of_owns (.root ⟨rfl, rfl⟩) : (volume fs d).Used fs.rootCluster).1.1
  have hlt : (f.entry d).clus < 2 := by rwa [hent, ← hclus]
  have hwrite := g.fat32WriteFile_found text hres hdir.chain hw hA hm
  rw [writeEntryAndData_of_lt (by rwa [← hclus])] at hwrite
  obtain ⟨r, d', hrest, ⟨m, n, d₁, d₂, hst⟩ | ⟨-, -, harea, -, hback, -⟩⟩ :=
    g.writeEntryAndData_spec hdir.chain.2 hq ((volume fs d).entry q) text
  · rw [OverwriteKeeps, hwrite, hrest]
    refine ⟨fun x hx => ?_, fun _ hfull => ?_⟩
    · exact g.notDangling_of_steps hdir.chain.2 hq hst ⟨hsec, hoff⟩ hlt hx
    · -- the allocation succeeded
      obtain ⟨ht, hlen⟩ := hfull
      rw [if_neg (by omega)] at hlen
      obtain ⟨hm', hmlen, -⟩ := hst.head ht
      rw [hm', List.length_take] at hmlen
      omega
  · rw [OverwriteKeeps, hwrite, hrest]
    have hagree : Agree (volume fs d) (volume fs d') :=
      ⟨fun c hu => hback.fat_eq c fun hfree => not_used_of_free hfree hu,
        fun c hu => hback.data_eq c fun hfree => not_used_of_free hfree hu⟩
    refine ⟨fun x hx => ?_, fun _ _ offset => ?_⟩
    · refine notDangling_of_eq ?_ hlt
      rw [hsec]
      exact hx.sectors_eq harea (g.slot_notMem_alloc hdir.chain.2 hq)
    · have hlook' := g.lookup_agree hagree hdir.chain name
      have hread : ∀ y : Disk, readChainData fs y f.clus offset
          (min (f.size - offset) 4096) = [] := fun y => by
        rw [readChainData]
        simp only [h2, or_true, if_true]
      simp only [lookup] at hlook hlook'
      rw [fat32ReadFile, fat32ReadFile, g.resolveTarget_agree hagree hroot hf.dirs, hres]
      simp only [hlook', hlook, hread]

/-- An overwrite keeps the file if and only if the file had no clusters. -/
theorem overwriteKeeps_iff {path : CString} {f : FoundEntry} (text : List UInt8)
    (hc : (volume fs d).Consistent fs.rootCluster) (hf : RegularFile fs d path f) :
    OverwriteKeeps fs d path f text ↔ f.clus < 2 :=
  ⟨g.clus_lt_of_overwriteKeeps hc hf, g.overwriteKeeps_of_clus_lt text hc hf⟩

end Geometry

/-! ## A file that is overwritten -/

/-- A volume whose root directory, in cluster 2, holds the file `F` with the entry `e`; the clusters
`l` are the last ones of their chains. -/
def fileDisk (e : Entry) (l : List ℕ) : Disk where
  sectors s :=
    if s = 1 then tableOf l else if s = 2 then Block.zero.setEntry 0 e else Block.zero
  log := []

/-- The entry of an empty file `F`. -/
def emptyEntry : Entry := shortEntry (formatFat32Name [70]) 0x20 0 0

/-- The entry of a file `F` with one byte in cluster 3. -/
def byteEntry : Entry := shortEntry (formatFat32Name [70]) 0x20 3 1

theorem emptyFile_consistent :
    (volume tinyFs (fileDisk emptyEntry [2])).Consistent tinyFs.rootCluster :=
  Volume.consistent_of_check [2] [] (by decide +kernel)

theorem byteFile_consistent :
    (volume tinyFs (fileDisk byteEntry [2, 3])).Consistent tinyFs.rootCluster :=
  Volume.consistent_of_check [2] [⟨some ⟨2, 0, 0⟩, false, [3]⟩] (by decide +kernel)

theorem emptyFile_regular :
    RegularFile tinyFs (fileDisk emptyEntry [2]) [70] ⟨2, 0, 0, 0⟩ where
  dirs x hx := nomatch (show x ∈ [] from hx)
  found := by
    have hroot : (volume tinyFs (fileDisk emptyEntry [2])).ChainOk [2] := by decide +kernel
    exact ⟨2, [70], [2], by decide +kernel,
      ⟨⟨.root 2 true, .root ⟨rfl, rfl⟩⟩, Volume.chain_of_chainOk hroot⟩, by decide +kernel⟩
  file := by decide +kernel
  notDot := by decide +kernel

theorem byteFile_regular :
    RegularFile tinyFs (fileDisk byteEntry [2, 3]) [70] ⟨2, 0, 3, 1⟩ where
  dirs x hx := nomatch (show x ∈ [] from hx)
  found := by
    have hroot : (volume tinyFs (fileDisk byteEntry [2, 3])).ChainOk [2] := by decide +kernel
    exact ⟨2, [70], [2], by decide +kernel,
      ⟨⟨.root 2 true, .root ⟨rfl, rfl⟩⟩, Volume.chain_of_chainOk hroot⟩, by decide +kernel⟩
  file := by decide +kernel
  notDot := by decide +kernel

theorem overwriteKeeps_iff_emptyFile :
    OverwriteKeeps tinyFs (fileDisk emptyEntry [2]) [70] ⟨2, 0, 0, 0⟩ [120] ↔ 0 < 2 :=
  tinyFs_geometry.overwriteKeeps_iff [120] emptyFile_consistent emptyFile_regular

/-- Overwriting the file with one byte leaves a point where its entry dangles. -/
theorem not_overwriteKeeps_byteFile :
    ¬ ∀ (fs : Fat32Instance) (d : Disk) (path : CString) (f : FoundEntry) (text : List UInt8),
      Geometry fs → (volume fs d).Consistent fs.rootCluster → RegularFile fs d path f →
        OverwriteKeeps fs d path f text := by
  intro h
  have hkeeps := h tinyFs (fileDisk byteEntry [2, 3]) [70] ⟨2, 0, 3, 1⟩ [120] tinyFs_geometry
    byteFile_consistent byteFile_regular
  have hlt := tinyFs_geometry.clus_lt_of_overwriteKeeps byteFile_consistent byteFile_regular hkeeps
  exact absurd hlt (by decide)

end PsychWard.Fat32
