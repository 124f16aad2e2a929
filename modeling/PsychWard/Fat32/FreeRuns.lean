import PsychWard.Fat32.SlotSpec
import PsychWard.Fat32.Allocation

/-!
# Runs of free slots

`dir_find_or_grow_run` counts free slots along the sectors and clusters of a directory, and when the
directory ends before there are enough of them, it appends a cluster in which the run goes on. Later
`dir_cursor_advance` moves through the run from its first slot, along the table. The two agree: the
cursor passes the slots that were counted.

They do not where the link to the new cluster reads as the end of the chain, which is so for a
cluster number from 0x0FFFFFF8 on.
-/

namespace PsychWard.Fat32

/-! ## Moving a cursor -/

section
variable {fs : Fat32Instance} {d : Disk} {q : DirCursor} {R : List DirCursor}

/-- The slots that a cursor passes in `n` steps, the one it starts from included. -/
def dirCursorRun (fs : Fat32Instance) (d : Disk) : ℕ → DirCursor → Option (List DirCursor)
  | 0, c => some [c]
  | n + 1, c =>
    match dirCursorAdvance fs d c with
    | none => none
    | some c' => (dirCursorRun fs d n c').map fun R => c :: R

/-- A cursor passes the slots of a list in which every slot is the next one. -/
theorem dirCursorRun_of_isChain (h : R.IsChain fun p q => dirCursorAdvance fs d p = some q)
    (hq : R.head? = some q) : dirCursorRun fs d (R.length - 1) q = some R := by
  induction R generalizing q with
  | nil => cases hq
  | cons p R ih =>
    obtain rfl : p = q := by simpa using hq
    cases R with
    | nil => rfl
    | cons x R =>
      obtain ⟨hx, hR⟩ := List.isChain_cons_cons.mp h
      have hrest : dirCursorRun fs d R.length x = some (x :: R) := ih hR rfl
      show dirCursorRun fs d (R.length + 1) p = some (p :: x :: R)
      rw [dirCursorRun, hx]
      simp only
      rw [hrest]
      rfl

end

/-! ## Growing a directory -/

/-- The chain of a directory: it ends, and its clusters are taken ones with entries in the table. -/
structure DirChain (fs : Fat32Instance) (d : Disk) (c : ℕ) (l : List ℕ) : Prop where
  two_le : 2 ≤ c
  walk : Walk (fatNext fs d) c l
  taken : ∀ x ∈ l, x < 2 ^ 28 ∧ InTable fs x ∧ ¬ FreeEntry fs d x

namespace VolumeLayout

variable {fs : Fat32Instance} (v : VolumeLayout fs) {d : Disk} {c : ℕ} {l : List ℕ}

include v

/-- `dir_grow` allocates the cluster that is found free and stores it in the entry of `last`. -/
theorem dirGrow_eq {n last : ℕ} (hfind : fatFindFreeCluster fs d = n) (hn : n ≠ 0)
    (hlast : last < 2 ^ 30) (hin : InTable fs last) :
    ∃ d', dirGrow fs d last = (some (clusterToSector fs n, n), d') ∧
      CopiesStored fs (roundDisk fs 0 n d) d' last n := by
  have halloc : fatAllocChain fs d 1 = (n, roundDisk fs 0 n d) :=
    v.fatAllocChainLoop_round (l := []) (by simp) hfind hn 0
  obtain ⟨d', hset, hstored⟩ := v.tableLayout.fatSetEntry_spec hlast hin n (roundDisk fs 0 n d)
  refine ⟨d', ?_, hstored⟩
  rw [dirGrow, halloc]
  simp only
  rw [if_neg hn, hset]

omit v in
/-- A full disk. -/
theorem dirGrow_none (hfind : fatFindFreeCluster fs d = 0) (last : ℕ) :
    dirGrow fs d last = (none, d) := by
  rw [dirGrow, fatAllocChain, fatAllocChainLoop, hfind, if_pos rfl]
  rfl

/-- `dir_grow` appends the first free cluster to the chain and fills it with zeros. -/
theorem dirGrow_walk (h : DirChain fs d c l)
    (hlink : ∀ n, FreeEntry fs d n → (∀ x, FreeEntry fs d x → n ≤ x) → Linkable fs n) :
    (∃ d', dirGrow fs d (l.getLastD c) = (none, d')) ∨
      ∃ n d', dirGrow fs d (l.getLastD c) = (some (clusterToSector fs n, n), d') ∧
        FreeEntry fs d n ∧ n ∉ l ∧ Walk (fatNext fs d') c (l ++ [n]) ∧
        ∀ s < fs.sectorsPerCluster, (diskVolume fs d').data n s = Block.zero := by
  rcases v.fatFindFreeCluster_free (fun n hn hmin => (hlink n hn hmin).1.trans (by decide)) with
    ⟨hnone, -⟩ | ⟨hfree, hmin⟩
  · exact .inl ⟨d, dirGrow_none hnone _⟩
  set n := fatFindFreeCluster fs d with hn
  have hlinkn := hlink n hfree hmin
  have hnl : n ∉ l := fun hmem => (h.taken n hmem).2.2 hfree
  have hn28 : n < 2 ^ 28 := hlinkn.1.trans (by decide)
  -- the cluster that the new one is linked to
  have hlast : l.getLast h.walk.ne_nil = l.getLastD c := by
    rw [List.getLastD_eq_getLast?, List.getLast?_eq_some_getLast h.walk.ne_nil, Option.getD_some]
  have hmem : l.getLastD c ∈ l := hlast ▸ List.getLast_mem h.walk.ne_nil
  obtain ⟨h28, hin, -⟩ := h.taken _ hmem
  have hnlast : n ≠ l.getLastD c := (ne_of_mem_of_not_mem hmem hnl).symm
  -- the table afterwards
  have htaken := v.taken_append VolumeLayout.taken_nil hfree hlinkn
  obtain ⟨d₂, hgrow, hstored⟩ :=
    v.dirGrow_eq hn.symm (Nat.ne_of_gt (Nat.zero_lt_two.trans_le hfree.1)) (h28.trans (by decide))
      hin
  have hget : ∀ x, x < 2 ^ 28 → InTable fs x → fatGetEntry fs d₂ x =
      if x = l.getLastD c then n else fatGetEntry fs (roundDisk fs 0 n d) x := fun x hx hxin => by
    rw [hstored.fatGetEntry v.tableLayout (hx.trans (by decide)) hxin, Nat.mod_eq_of_lt hn28]
  have hkept : ∀ x ∈ l, x ≠ l.getLastD c → fatNext fs d₂ x = fatNext fs d x := by
    intro x hx hne
    obtain ⟨hx28, hxin, -⟩ := h.taken x hx
    have hx30 : x < 2 ^ 30 := hx28.trans (by decide)
    have hxn : x ∉ [] ++ [n] := by
      rw [List.nil_append, List.mem_singleton]
      exact ne_of_mem_of_not_mem hx hnl
    have hcopy : copyEntry fs (roundDisk fs 0 n d) 0 x = copyEntry fs d 0 x :=
      htaken.kept 0 v.copies_pos x hxin hxn
    have hsame : fatGetEntry fs d₂ x = fatGetEntry fs d x := by
      rw [hget x hx28 hxin, if_neg hne, v.tableLayout.fatGetEntry_eq hx30,
        v.tableLayout.fatGetEntry_eq hx30, hcopy]
    rw [fatNext, fatNext, hsame]
  have hend : fatNext fs d₂ n = none := by
    have hval : fatGetEntry fs d₂ n = fat32Eoc := by
      rw [hget n hn28 hfree.2.1, if_neg hnlast]
      exact htaken.ended n (by simp)
    rw [fatNext, hval]
    rfl
  have hnext : fatNext fs d₂ (l.getLastD c) = some n := by
    have hval : fatGetEntry fs d₂ (l.getLastD c) = n := by rw [hget _ h28 hin, if_pos rfl]
    have hhas : clusterHasNext n = true := by
      rw [clusterHasNext, decide_eq_true hfree.1, decide_eq_true hlinkn.1]
      rfl
    rw [fatNext_pos (by rw [hval]; exact hhas), hval]
  refine .inr ⟨n, d₂, hgrow, hfree, hnl, ?_, fun s hs => ?_⟩
  · refine h.walk.append (.last hend) (fun x hx hne => ?_) fun x hx hnone => ?_
    · refine hkept x hx fun heq => hne ?_
      exact (h.walk.next_eq_none_iff hx).mpr (heq.trans hlast.symm)
    · rw [(h.walk.next_eq_none_iff hx).mp hnone, hlast]
      exact hnext
  · show d₂.sectors ((clusterToSector fs n + s) % 2 ^ 32) = Block.zero
    rw [VolumeLayout.sector_of_le hfree.1 hlinkn.2 hs,
      hstored.outside _ v.not_inCopies_dataSector]
    exact htaken.zeroed n (by simp) s hs

end VolumeLayout

/-! ## The run that was found -/

/-- What `dir_find_or_grow_run` found from `q` on, in a directory with the clusters `l`: a cursor
passes the slots `R`, which follow each other in the chain and were free or lie in a new cluster. -/
structure FoundRun (fs : Fat32Instance) (d d' : Disk) (c : ℕ) (l new : List ℕ) (need : ℕ)
    (q : DirCursor) (R : List DirCursor) : Prop where
  passed : dirCursorRun fs d' (need - 1) q = some R
  length_eq : R.length = need
  consecutive : R <:+: (diskVolume fs d').slots (l ++ new)
  free : ∀ p ∈ R, p.cluster ∈ new ∨ (diskVolume fs d).entry p 0 = deleted ∨
    p ∉ (diskVolume fs d).beforeEnd l
  linked : Walk (fatNext fs d') c (l ++ new)
  grown : new = [] ∧ d' = d ∨ ∃ n, new = [n] ∧ FreeEntry fs d n ∧
    ∀ s < fs.sectorsPerCluster, (diskVolume fs d').data n s = Block.zero

section
variable {fs : Fat32Instance} {d : Disk} {c need : ℕ} {q : DirCursor} {R P Q : List DirCursor}

/-- A cursor passes the slots of a chain from any of them on. -/
theorem dirCursorRun_of_walk {l : List ℕ} (h : Walk (fatNext fs d) c l)
    (hs : (diskVolume fs d).slots l = P ++ (R ++ Q)) (hq : R.head? = some q) :
    dirCursorRun fs d (R.length - 1) q = some R := by
  have hchain := dirCursorAdvance_of_walk h
  rw [hs] at hchain
  have hR : R.IsChain fun p q => dirCursorAdvance fs d p = some q :=
    hchain.right_of_append.left_of_append
  exact dirCursorRun_of_isChain hR hq

/-- A run of slots that are deleted or behind an end mark of the run. -/
theorem free_of_run {l : List ℕ} (hl : l.Nodup) (hs : (diskVolume fs d).slots l = P ++ (R ++ Q))
    (hfree : ∀ R₁ p R₂, R = R₁ ++ p :: R₂ → (diskVolume fs d).entry p 0 = deleted ∨
      ∃ e ∈ R₁ ++ [p], (diskVolume fs d).entry e 0 = 0) :
    ∀ p ∈ R, (diskVolume fs d).entry p 0 = deleted ∨ p ∉ (diskVolume fs d).beforeEnd l := by
  intro p hp
  obtain ⟨R₁, R₂, rfl⟩ := List.append_of_mem hp
  refine (hfree R₁ p R₂ rfl).imp_right fun ⟨e, he, h0⟩ => ?_
  refine Volume.notMem_beforeEnd_of_run (P := P) (T := R₂ ++ Q) hl ?_ he h0
  rw [hs, List.append_assoc, List.cons_append]

end

/-- A run of slots that `dir_find_or_grow_run` returned is free, and a cursor passes it along the
chain of the directory, which keeps its clusters. -/
theorem foundRun_dirFindOrGrowRun {fs : Fat32Instance} (v : VolumeLayout fs) {d d' : Disk}
    {p c need : ℕ} {q : DirCursor} {l : List ℕ} (hp : (if p < 2 then fs.rootCluster else p) = c)
    (h : DirChain fs d c l) (hlen : l.length ≤ 4096)
    (hlink : ∀ n, FreeEntry fs d n → (∀ x, FreeEntry fs d x → n ≤ x) → Linkable fs n)
    (hpos : 1 ≤ need) (hneed : need ≤ 16 * fs.sectorsPerCluster)
    (hrun : dirFindOrGrowRun fs d p need = (some q, d')) :
    ∃ new R, FoundRun fs d d' c l new need q R := by
  obtain ⟨last, hscan, hlast⟩ := scanChain_of_walk (v.noFault.read d) (findRunBody need) h.two_le
    h.walk 4096 c ⟨0, ⟨0, 0, 0⟩, false⟩
  have hfind : findRun fs d p need =
      scanChain fs d (findRunBody need) 4096 c c ⟨0, ⟨0, 0, 0⟩, false⟩ := by
    rw [findRun, dirStart_of_walk hp h.two_le h.walk]
  rw [List.take_of_length_le hlen] at hscan hlast
  rw [dirFindOrGrowRun, hfind] at hrun
  rcases Geometry.scan_findRun (diskVolume fs d) hpos ((diskVolume fs d).slots l) with
    ⟨st, A, R, B, hr, hs, hhead, hlenR, -, -, hfree⟩ | ⟨st, A, T, hr, hI⟩
  · -- a run in the directory as it is
    rw [hr] at hscan
    rw [hscan] at hrun
    obtain ⟨hq, rfl⟩ := Prod.mk.inj hrun
    obtain rfl := Option.some.inj hq
    refine ⟨[], R, ?_, hlenR, ?_, fun p hp => .inr (free_of_run h.walk.nodup hs hfree p hp), ?_,
      .inl ⟨rfl, rfl⟩⟩
    · rw [← hlenR]
      exact dirCursorRun_of_walk h.walk hs hhead
    · rw [List.append_nil, hs]
      exact ⟨A, B, List.append_assoc _ _ _⟩
    · rw [List.append_nil]
      exact h.walk
  · -- the run goes on in a new cluster
    rw [hr] at hscan hlast
    rw [hscan, hlast rfl] at hrun
    rcases v.dirGrow_walk h hlink with ⟨d₁, hgrow⟩ | ⟨n, d₁, hgrow, hfreeN, hnl, hwalk, hzero⟩
    · simp only [hgrow] at hrun
      cases hrun
    simp only [hgrow] at hrun
    obtain ⟨hq, rfl⟩ := Prod.mk.inj hrun
    set v₁ := diskVolume fs d₁
    have hspc : 0 < fs.sectorsPerCluster := by omega
    have hnew : (v₁.slots [n]).head? = some ⟨n, 0, 0⟩ := by
      obtain ⟨U, hU⟩ := Volume.clusterSlots_eq_cons hspc n
      rw [Volume.slots, List.flatMap_singleton]
      show (clusterSlots fs.sectorsPerCluster n).head? = _
      rw [hU]
      rfl
    have hlenN : (v₁.slots [n]).length = 16 * fs.sectorsPerCluster := by
      rw [Volume.slots, List.flatMap_singleton]
      exact Volume.length_clusterSlots _ n
    obtain ⟨hhead, hlenR⟩ := hI.append_take hnew (hneed.trans_eq hlenN.symm)
    rw [Option.some.inj hq] at hhead
    set N := (v₁.slots [n]).take (need - T.length)
    set B := (v₁.slots [n]).drop (need - T.length)
    have hs : v₁.slots (l ++ [n]) = A ++ ((T ++ N) ++ B) := by
      have hold : v₁.slots l = A ++ T := hI.eq
      rw [Volume.slots_append, hold, ← List.take_append_drop (need - T.length) (v₁.slots [n])]
      simp only [List.append_assoc]
      rfl
    refine ⟨[n], T ++ N, ?_, hlenR, ⟨A, B, ?_⟩, fun p hp => ?_, hwalk, .inr ⟨n, rfl, hfreeN, hzero⟩⟩
    · rw [← hlenR]
      exact dirCursorRun_of_walk hwalk hs hhead
    · rw [hs, List.append_assoc]
    · rcases List.mem_append.mp hp with hT | hN
      · refine .inr (free_of_run (P := A) (Q := []) h.walk.nodup ?_ hI.free p hT)
        rw [List.append_nil]
        exact hI.eq
      · exact .inl (Volume.mem_slots.mp (List.mem_of_mem_take hN)).1

/-- A directory of one cluster whose last slot is deleted, with cluster 5 free. -/
def tailDisk : Disk := tableDisk (ramFs 512 1 32 1 1 2) fun c =>
  if c = 5 then 0 else if c = 248 then deleted.toNat else fat32Eoc

/-- Three slots: the one at the end of the directory and two of its new cluster. -/
theorem foundRun_tailDisk : ∃ new R, FoundRun (ramFs 512 1 32 1 1 2) tailDisk
    (dirFindOrGrowRun (ramFs 512 1 32 1 1 2) tailDisk 0 3).2 2 [2] new 3 ⟨2, 0, 480⟩ R := by
  have v : VolumeLayout (ramFs 512 1 32 1 1 2) := volumeLayout_ramFs (by decide)
  have hd : DirChain (ramFs 512 1 32 1 1 2) tailDisk 2 [2] := by
    refine ⟨le_rfl, .last (by decide +kernel), fun x hx => ?_⟩
    rw [List.mem_singleton.mp hx]
    decide +kernel
  have hrun : (dirFindOrGrowRun (ramFs 512 1 32 1 1 2) tailDisk 0 3).1 = some ⟨2, 0, 480⟩ := by
    decide +kernel
  refine foundRun_dirFindOrGrowRun v rfl hd (by decide) (fun n hn _ => ?_) (by decide) (by decide)
    (Prod.ext hrun rfl)
  have hlt : n < 128 := (v.inTable_iff).mp hn.2.1
  refine ⟨hlt.trans (by decide), ?_⟩
  show 33 + (n - 2) * 1 + 1 ≤ 2 ^ 32
  omega

/-! ## Full directories -/

/-- A full directory gets its run in a new cluster. -/
theorem dirFindOrGrowRun_full {fs : Fat32Instance} {d : Disk} {p c need : ℕ} {l : List ℕ}
    (hread : ∀ s, fs.readBlocks d s = some (d.sectors s))
    (hp : (if p < 2 then fs.rootCluster else p) = c) (h2 : 2 ≤ c) (hw : Walk (fatNext fs d) c l)
    (hlen : l.length ≤ 4096) (hpos : 1 ≤ need)
    (hused : ∀ s ∈ (diskVolume fs d).slots l, ¬ ((diskVolume fs d).entry s).IsFree) {a n : ℕ}
    {d' : Disk} (hgrow : dirGrow fs d (l.getLastD c) = (some (a, n), d')) :
    dirFindOrGrowRun fs d p need = (some ⟨n, 0, 0⟩, d') := by
  obtain ⟨last, hscan, hlast⟩ :=
    scanChain_of_walk hread (findRunBody need) h2 hw 4096 c ⟨0, ⟨0, 0, 0⟩, false⟩
  rw [List.take_of_length_le hlen] at hscan hlast
  rw [dirFindOrGrowRun, findRun, dirStart_of_walk hp h2 hw]
  simp only
  rw [hscan]
  rcases Geometry.scan_findRun (diskVolume fs d) hpos ((diskVolume fs d).slots l) with
    ⟨-, A, R, B, -, hs, -, hlenR, -, -, hfree⟩ | ⟨st, A, T, hr, hI⟩
  · have hnil := Volume.run_eq_nil (fun s hsR => hused s (by simp [hs, hsR])) hfree
    rw [hnil, List.length_nil] at hlenR
    omega
  · have hold : (diskVolume fs d).slots l = A ++ T := hI.eq
    have hT : T = [] := Volume.run_eq_nil (fun s hsT => hused s (by simp [hold, hsT])) hI.free
    have hrunLen : st.runLen = 0 := by
      rw [← hI.len, hT]
      rfl
    rw [hr] at hlast ⊢
    simp only [hlast rfl, hgrow, hrunLen, if_true]

/-- The first byte of an entry on a disk that holds a table. -/
theorem entry_tableDisk {fs : Fat32Instance} {table : ℕ → ℕ} {p : DirCursor} {k : ℕ} (hk : k < 16)
    (hp : p.offsetInSector = 32 * k) : (diskVolume fs (tableDisk fs table)).entry p 0 = UInt8.ofNat
      (table (128 * ((clusterToSector fs p.cluster + p.sectorInCluster) % 2 ^ 32 -
        fs.reservedSectors) + 8 * k)) := by
  show (tableSector table _).get (p.offsetInSector + 0) = _
  rw [hp, Block.get, dif_pos (by omega), tableSector]
  simp only
  rw [show (32 * k + 0) / 4 = 8 * k by omega, show (32 * k + 0) % 4 = 0 by omega, Nat.mul_zero,
    Nat.pow_zero, Nat.div_one]

section
variable {perCluster reserved perFat n : ℕ} {fs : Fat32Instance}

/-- The root directory of a disk that holds a table is full if only a cluster of that table is
free. -/
theorem not_isFree_ramFs (h : reserved + perFat + perCluster ≤ 2 ^ 32) (hn : n < 128 * perFat)
    (hfs : ramFs 512 perCluster reserved 1 perFat 2 = fs) :
    ∀ s ∈ (diskVolume fs (tableDisk fs (freeTable [n]))).slots [2],
      ¬ ((diskVolume fs (tableDisk fs (freeTable [n]))).entry s).IsFree := by
  subst hfs
  rintro s hs
  obtain ⟨hc, hsec, k, hk, hoff⟩ := Volume.mem_slots.mp hs
  have hsec : s.sectorInCluster < perCluster := hsec
  have hstart : clusterToSector (ramFs 512 perCluster reserved 1 perFat 2) s.cluster =
      reserved + perFat := by
    rw [List.mem_singleton.mp hc, clusterToSector]
    simp only [ramFs, Nat.lt_irrefl, if_false, Nat.sub_self, Nat.zero_mul, Nat.one_mul]
    omega
  have hsector : (clusterToSector (ramFs 512 perCluster reserved 1 perFat 2) s.cluster +
      s.sectorInCluster) % 2 ^ 32 - reserved = perFat + s.sectorInCluster := by
    rw [hstart, Nat.mod_eq_of_lt (by omega)]
    omega
  have hmem : 128 * (perFat + s.sectorInCluster) + 8 * k ∉ [n] := by
    rw [List.mem_singleton]
    omega
  have hbyte : (diskVolume (ramFs 512 perCluster reserved 1 perFat 2)
      (tableDisk (ramFs 512 perCluster reserved 1 perFat 2) (freeTable [n]))).entry s 0 = 0xF8 := by
    rw [entry_tableDisk hk hoff]
    show UInt8.ofNat (freeTable [n] (128 * (_ - reserved) + 8 * k)) = 0xF8
    rw [hsector, freeTable, if_neg hmem]
    rfl
  rw [Entry.IsFree, hbyte]
  decide

/-- Such a directory consists of one cluster. -/
theorem dirChain_ramFs (h : reserved + perFat < 2 ^ 32) (h2 : 2 < n) (hn : n < 128 * perFat)
    (hfs : ramFs 512 perCluster reserved 1 perFat 2 = fs) :
    DirChain fs (tableDisk fs (freeTable [n])) 2 [2] := by
  subst hfs
  have v : VolumeLayout (ramFs 512 perCluster reserved 1 perFat 2) := volumeLayout_ramFs h
  have hin : InTable (ramFs 512 perCluster reserved 1 perFat 2) 2 := v.inTable_iff.mpr (h2.trans hn)
  have hmem : 2 ∉ [n] := by
    rw [List.mem_singleton]
    exact h2.ne
  refine ⟨le_rfl, .last ?_, fun x hx => ?_⟩
  · rw [fatNext, v.tableLayout.fatGetEntry_eq (by decide), copyEntry_tableDisk rfl
      (show reserved + 2 / 128 < 2 ^ 32 by omega), freeTable, if_neg hmem]
    rfl
  · rw [List.mem_singleton.mp hx]
    exact ⟨by decide, hin, fun hfree => hmem ((freeEntry_tableDisk h [n]).mp hfree).2.2⟩

/-- It grows by the free cluster, which is stored in the entry of cluster 2. -/
theorem dirFindOrGrowRun_ramFs (h : reserved + perFat + perCluster ≤ 2 ^ 32) (hc : 0 < perCluster)
    (h2 : 2 < n) (hn : n < 128 * perFat) (hn28 : n < 2 ^ 28)
    (hfs : ramFs 512 perCluster reserved 1 perFat 2 = fs) :
    ∃ d', dirFindOrGrowRun fs (tableDisk fs (freeTable [n])) 0 1 = (some ⟨n, 0, 0⟩, d') ∧
      fatGetEntry fs d' 2 = n := by
  have v : VolumeLayout fs := hfs ▸ volumeLayout_ramFs (by omega)
  have hd := dirChain_ramFs (by omega) h2 hn hfs
  have hused := not_isFree_ramFs h hn hfs
  have hfree : ∀ x, FreeEntry fs (tableDisk fs (freeTable [n])) x ↔ x = n := fun x => by
    rw [← hfs, freeEntry_tableDisk (by omega), List.mem_singleton]
    exact ⟨fun hx => hx.2.2, fun hx => ⟨hx ▸ h2.le, hx ▸ hn, hx⟩⟩
  set d := tableDisk fs (freeTable [n])
  have hfirst : fatFindFreeCluster fs d = n := by
    refine v.fatFindFreeCluster_first ((hfree n).mpr rfl) fun x hx => ?_
    rw [(hfree x).mp hx]
    exact ⟨le_rfl, hn28.trans (by decide)⟩
  have hin : InTable fs 2 := (hd.taken 2 (List.mem_singleton_self 2)).2.1
  obtain ⟨d', hgrow, hstored⟩ := v.dirGrow_eq hfirst (by omega) (by decide) hin
  refine ⟨d', ?_, ?_⟩
  · refine dirFindOrGrowRun_full (v.noFault.read d) ?_ le_rfl hd.walk ?_ le_rfl hused hgrow
    · rw [← hfs]
      rfl
    · exact Nat.one_le_ofNat
  · rw [hstored.fatGetEntry v.tableLayout (by decide) hin, if_pos rfl, Nat.mod_eq_of_lt hn28]

end

/-- The run starts in a cluster of the chain. -/
theorem FoundRun.cluster_mem {fs : Fat32Instance} {d d' : Disk} {c need : ℕ} {l new : List ℕ}
    {q : DirCursor} {R : List DirCursor} (h : FoundRun fs d d' c l new need q R) :
    q.cluster ∈ l ++ new := by
  have hq : ∀ n, dirCursorRun fs d' n q = some R → q ∈ R := by
    intro n hn
    cases n with
    | zero =>
      obtain rfl := Option.some.inj hn
      exact List.mem_singleton_self q
    | succ n =>
      rw [dirCursorRun] at hn
      split at hn
      · cases hn
      · obtain ⟨T, -, rfl⟩ := Option.map_eq_some_iff.mp hn
        exact List.mem_cons_self
  exact (Volume.mem_slots.mp (h.consecutive.subset (hq _ h.passed))).1

/-- Neither kind of first free cluster may be left out: the link to an end mark ends the chain, and
the zeroes for a cluster behind sector `2 ^ 32` land on the table, where the link is stored. -/
theorem not_foundRun_unlinkable :
    (VolumeLayout markFs ∧ DirChain markFs (tableDisk markFs (freeTable [fat32Eoc])) 2 [2] ∧
      ∃ q d', dirFindOrGrowRun markFs (tableDisk markFs (freeTable [fat32Eoc])) 0 1 =
          (some q, d') ∧
        ∀ new R, ¬ FoundRun markFs (tableDisk markFs (freeTable [fat32Eoc])) d' 2 [2] new 1 q R) ∧
    VolumeLayout farFs ∧ DirChain farFs farDisk 2 [2] ∧
      ∃ q d', dirFindOrGrowRun farFs farDisk 0 1 = (some q, d') ∧
        ∀ new R, ¬ FoundRun farFs farDisk d' 2 [2] new 1 q R := by
  have hm : ramFs 512 1 32 1 (2 ^ 21) 2 = markFs := rfl
  have hf : ramFs 512 128 32 1 (2 ^ 18) 2 = farFs := rfl
  have vm : VolumeLayout markFs := volumeLayout_ramFs (by decide)
  have vf : VolumeLayout farFs := volumeLayout_ramFs (by decide)
  refine ⟨⟨vm, dirChain_ramFs (by decide) (by decide) (by decide) hm, ?_⟩,
    vf, dirChain_ramFs (by decide) (by decide) (by decide) hf, ?_⟩
  · obtain ⟨d', hrun, hget⟩ := dirFindOrGrowRun_ramFs (n := fat32Eoc) (by decide) (by decide)
      (by decide) (by decide) (by decide) hm
    refine ⟨_, d', hrun, fun new R h => ?_⟩
    -- the chain still ends at cluster 2
    have hend : fatNext markFs d' 2 = none := by
      rw [fatNext, hget]
      rfl
    have hchain : [2] ++ new = [2] := h.linked.unique (.last hend)
    have hmem := h.cluster_mem
    rw [hchain] at hmem
    exact absurd hmem (by decide)
  · obtain ⟨d', hrun, hget⟩ := dirFindOrGrowRun_ramFs (n := 33552386) (by decide) (by decide)
      (by decide) (by decide) (by decide) hf
    refine ⟨_, d', hrun, fun new R h => ?_⟩
    have hmem := h.cluster_mem
    rcases h.grown with ⟨rfl, -⟩ | ⟨n, rfl, -, hzero⟩
    · exact absurd hmem (by decide)
    · obtain rfl : 33552386 = n := by simpa using hmem
      -- the first sector of the cluster is the one with the entry of cluster 2
      have hsector : d'.sectors (copySector farFs 0 (4 * 2 / farFs.bytesPerSector)) = Block.zero :=
        hzero 0 (by decide)
      rw [vf.tableLayout.fatGetEntry_eq (by decide), copyEntry, hsector] at hget
      exact absurd hget (by decide)

end PsychWard.Fat32
