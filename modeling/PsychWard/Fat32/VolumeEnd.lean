import PsychWard.Fat32.ClusterSectors

/-!
# Clusters behind the end of the volume

The boot sector says in `total_sectors_32` where the volume ends. `fat32_init` does not keep the
number, and `fat_find_free_cluster` searches all entries that the sectors of the table have room for,
of which the last ones belong to no cluster. A chain is handed out with such a cluster exactly when
the table marks one of them as free.
-/

namespace PsychWard.Fat32

open Traced

/-- `total_sectors_32` of the boot sector. -/
def totalSectors32 (d : Disk) : ℕ := (d.sectors 0).u32 32

/-- All sectors of the cluster lie below sector `total`. -/
def InVolume (fs : Fat32Instance) (total c : ℕ) : Prop :=
  ∀ s < fs.sectorsPerCluster, dataSector fs c s < total

/-- The call `fat_alloc_chain(n)` succeeds, and `c` is one of the clusters that it has taken and
filled with zeros. -/
def HandsOut (fs : Fat32Instance) (d : Disk) (n c : ℕ) : Prop :=
  (fatAllocChain fs d n).1 ≠ 0 ∧ ∃ s, .sector c s ∈ (Accesses.fatAllocChain fs d n).log ()

/-- Whatever the device does, no allocation on the disk `d` hands out a cluster with a sector at or
behind `total`. -/
def AllocatesInside (fs : Fat32Instance) (total : ℕ) (d : Disk) : Prop :=
  ∀ readBlocks writeBlocks, Honest { fs with readBlocks, writeBlocks } →
    ∀ n c, HandsOut { fs with readBlocks, writeBlocks } d n c → InVolume fs total c

/-- What an allocation may access when it keeps to the clusters of the volume. -/
def KeepsInVolume (fs : Fat32Instance) (total : ℕ) : Access → Prop
  | .buffer _ _ => True
  | .sector c _ => InVolume fs total c

theorem admitsBuffers_keepsInVolume (fs : Fat32Instance) (total : ℕ) :
    AdmitsBuffers (KeepsInVolume fs total) fs where
  entry := fun _ => trivial
  free := fun _ _ => trivial
  data := fun _ _ _ => trivial

/-- A cluster in front of one of the volume is one of the volume. -/
theorem InVolume.mono {fs : Fat32Instance} {total c c' : ℕ} (h : InVolume fs total c)
    (hle : c' ≤ c) : InVolume fs total c' := by
  intro s hs
  have hlast := h s hs
  have hmul : (c' - 2) * fs.sectorsPerCluster ≤ (c - 2) * fs.sectorsPerCluster :=
    Nat.mul_le_mul_right _ (Nat.sub_le_sub_right hle 2)
  unfold dataSector at hlast ⊢
  omega

namespace VolumeShape

variable {fs : Fat32Instance} (v : VolumeShape fs) (hdev : Honest fs) {d : Disk} {total c : ℕ}

include v

/-- Disks that agree on the table have the same free entries. -/
theorem freeEntry_congr {d' : Disk} (h : ∀ s, InCopies fs s → d'.sectors s = d.sectors s) :
    FreeEntry fs d' c ↔ FreeEntry fs d c := by
  refine and_congr_right fun _ => and_congr_right fun hin => ?_
  rw [copyEntry_congr h v.copies_pos hin]

include hdev

/-- The search leads to a free entry, or its number in 32 bits. -/
theorem exists_free_of_find (hc : fatFindFreeCluster fs d ≠ 0) :
    ∃ i, FreeEntry fs d i ∧ fatFindFreeCluster fs d = i % 2 ^ 32 := by
  have hloop : ∀ n sec, sec + n = fs.sectorsPerFat → fatFindFreeClusterFrom fs d n sec ≠ 0 →
      ∃ i, FreeEntry fs d i ∧ fatFindFreeClusterFrom fs d n sec = i % 2 ^ 32 := by
    intro n
    induction n with
    | zero => exact fun sec _ hne => absurd rfl hne
    | succ n ih =>
      intro sec hsum
      rw [fatFindFreeClusterFrom]
      cases hread : fs.readBlocks d ((fs.reservedSectors + sec) % 2 ^ 32) with
      | none => exact fun hne => absurd rfl hne
      | some buf =>
        obtain rfl := hdev.read _ _ _ hread
        rw [v.bytes]
        simp only
        cases hfind : fatFindFreeInSector (d.sectors ((fs.reservedSectors + sec) % 2 ^ 32)) sec
            128 with
        | none => exact ih (sec + 1) (by omega)
        | some e =>
          intro _
          obtain ⟨htest, he, -⟩ := List.find?_range_eq_some.mp hfind
          have hlt := List.mem_range.mp he
          rw [Bool.and_eq_true, decide_eq_true_eq, decide_eq_true_eq] at htest
          refine ⟨sec * 128 + e, ⟨htest.1.trans (Nat.mod_le _ _), v.inTable_iff.mpr (by omega), ?_⟩,
            rfl⟩
          rw [v.copyEntry_sector hlt]
          exact htest.2
  exact hloop _ _ (Nat.zero_add _) hc

/-- What storing the entry of `c` leaves free was free before, or is the entry it has stored. -/
theorem free_of_stored {d' : Disk} {value x : ℕ} (hin : InTable fs c)
    (hrun : fatSetEntry fs d c value = (true, d')) (hx : FreeEntry fs d' x) :
    FreeEntry fs d x ∨ x = c % 2 ^ 30 ∧ value % 2 ^ 28 = 0 := by
  have hin' : InTable fs (c % 2 ^ 30) := v.inTable_iff.mpr
    ((Nat.mod_le c (2 ^ 30)).trans_lt (v.inTable_iff.mp hin))
  have hstored := v.disjointCopies.copiesStored hdev hin' hrun
  obtain ⟨h2, hxin, hzero⟩ := hx
  by_cases hxc : x = c % 2 ^ 30
  · refine .inr ⟨hxc, ?_⟩
    rw [hxc, hstored.stored 0 v.copies_pos] at hzero
    omega
  · rw [hstored.kept 0 v.copies_pos x hxin hxc] at hzero
    exact .inl ⟨h2, hxin, hzero⟩

/-- While the free entries are those of clusters of the volume, an allocation keeps to them. -/
theorem within_fatAllocChain (htotal : total ≤ 2 ^ 32)
    (h : ∀ c, FreeEntry fs d c → InVolume fs total c) (n : ℕ) :
    Within (KeepsInVolume fs total) (Accesses.fatAllocChain fs d n) := by
  refine Accesses.within_fatAllocChainLoop (admitsBuffers_keepsInVolume fs total)
    (fun d prev => (∀ c, FreeEntry fs d c → InVolume fs total c) ∧
      (prev = 0 ∨ InTable fs prev ∧ InVolume fs total prev))
    (fun d prev c d₁ d₂ hinv hfind hc hset hlink => ?_) n 0 0 d ⟨h, .inl rfl⟩
  obtain ⟨hfree, hprev⟩ := hinv
  obtain ⟨i, hi, heq⟩ := v.exists_free_of_find hdev (hfind ▸ hc)
  rw [hfind] at heq
  have hle : c ≤ i := heq ▸ Nat.mod_le _ _
  have hin : InTable fs c := v.inTable_iff.mpr (hle.trans_lt (v.inTable_iff.mp hi.2.1))
  have hvol : InVolume fs total c := (hfree i hi).mono hle
  have hfree₁ : ∀ x, FreeEntry fs d₁ x → InVolume fs total x := by
    intro x hx
    rcases v.free_of_stored hdev hin hset hx with hx | ⟨-, hmark⟩
    · exact hfree x hx
    · exact absurd hmark (by decide)
  have hfree₂ : ∀ x, FreeEntry fs d₂ x → InVolume fs total x := by
    rcases hprev with rfl | ⟨hpin, hpvol⟩
    · rw [if_pos rfl] at hlink
      obtain rfl := (Prod.mk.inj hlink).2
      exact hfree₁
    · intro x hx
      by_cases hp0 : prev = 0
      · rw [if_pos hp0] at hlink
        obtain rfl := (Prod.mk.inj hlink).2
        exact hfree₁ x hx
      · -- a link to `2 ^ 28` marks the entry before as free, but that one is in the volume
        rw [if_neg hp0] at hlink
        rcases v.free_of_stored hdev hpin hlink hx with hx | ⟨rfl, -⟩
        · exact hfree₁ x hx
        · exact hpvol.mono (Nat.mod_le _ _)
  refine ⟨fun _ _ => hvol, fun x hx => ?_, .inr ⟨hin, hvol⟩⟩
  -- the zeroes land on the sectors of the cluster
  refine hfree₂ x ((v.freeEntry_congr fun s hs => zeroSectors_frame hdev _ _ _ fun j hj hjs => ?_).mp
    hx)
  have h2 : 2 ≤ c := ((fatFindFreeCluster_range fs d).resolve_left (hfind ▸ hc)).1.trans_eq hfind
  rw [clusterToSector_mod h2, Nat.mod_eq_of_lt ((hvol j hj).trans_le htotal)] at hjs
  exact v.not_inCopies_dataSector (hjs ▸ hs)

end VolumeShape

/-! ## Where an allocation leaves the volume -/

/-- The zeroes of a cluster are logged as accesses of its sectors. -/
theorem mem_log_zeroSectors {fs : Fat32Instance} (c n a : ℕ) (d : Disk) {s : ℕ} (ha : a ≤ s)
    (hs : s < a + n) : .sector c s ∈ (Accesses.zeroSectors fs c n a d).log () := by
  induction n generalizing a d with
  | zero => omega
  | succ n ih =>
    rw [Accesses.zeroSectors]
    by_cases heq : s = a
    · subst heq
      exact mem_log_left (List.mem_singleton_self _)
    · apply mem_log_right
      exact ih (a + 1) _ (by omega) (by omega)

namespace VolumeLayout

variable {fs : Fat32Instance} (v : VolumeLayout fs) {d : Disk} {total c : ℕ}

include v

/-- The accesses of a round that finds `c`: the sectors of `c`, and what the rounds behind it do. -/
theorem mem_log_round {l : List ℕ} (hl : ∀ x ∈ l, 2 ≤ x) (hfind : fatFindFreeCluster fs d = c)
    (hc : c ≠ 0) (n : ℕ) {e : Access}
    (he : (∃ s < fs.sectorsPerCluster, e = .sector c s) ∨
      e ∈ (Accesses.fatAllocChainLoop fs n ((l ++ [c]).headD 0) ((l ++ [c]).getLastD 0)
        (roundDisk fs (l.getLastD 0) c d)).log ()) :
    e ∈ (Accesses.fatAllocChainLoop fs (n + 1) (l.headD 0) (l.getLastD 0) d).log () := by
  rw [Accesses.fatAllocChainLoop]
  apply mem_log_right
  rw [Accesses.val_fatFindFreeCluster, hfind, if_neg hc]
  apply mem_log_right
  rw [Accesses.val_fatSetEntry, v.noFault.fatSetEntry_eq]
  apply mem_log_right
  rw [Accesses.val_linkPrev, v.noFault.link_eq]
  rcases he with ⟨s, hs, rfl⟩ | he
  · exact mem_log_left (mem_log_zeroSectors c _ 0 _ (Nat.zero_le s) (by omega))
  · apply mem_log_right
    rw [Accesses.val_zeroSectors, Nat.add_zero, headD_append hl]
    rwa [List.getLastD_concat] at he

/-- A round takes its cluster and leaves the other free entries free, where cluster numbers have 28
bits. -/
theorem freeEntry_roundDisk {l : List ℕ}
    (hl : ∀ x ∈ l, (2 ≤ x ∧ x < 2 ^ 30 ∧ InTable fs x) ∧ ¬ FreeEntry fs d x)
    (hfree : FreeEntry fs d c) (hlt : c < 2 ^ 28)
    (hsec : dataSector fs c fs.sectorsPerCluster ≤ 2 ^ 32) {x : ℕ} :
    FreeEntry fs (roundDisk fs (l.getLastD 0) c d) x ↔ FreeEntry fs d x ∧ x ≠ c := by
  have hcl : c ∉ l := fun hmem => (hl c hmem).2 hfree
  have hentries := (v.round_spec (d := d) (fun x hx => (hl x hx).1) hfree.1 hfree.2.1 hlt hsec hcl).1
  constructor
  · rintro ⟨h2, hin, hzero⟩
    rw [hentries 0 v.copies_pos x hin] at hzero
    by_cases hxc : x = c
    · rw [if_pos hxc, fat32Eoc] at hzero
      omega
    · rw [if_neg hxc] at hzero
      split at hzero
      · have := hfree.1
        omega
      · exact ⟨⟨h2, hin, hzero⟩, hxc⟩
  · rintro ⟨hx, hxc⟩
    have hlast : ¬ l.getLast? = some x := fun h => (hl x (List.mem_of_getLast? h)).2 hx
    refine ⟨hx.1, hx.2.1, ?_⟩
    rw [hentries 0 v.copies_pos x hx.2.1, if_neg hxc, if_neg hlast]
    exact hx.2.2

/-- The rounds from a disk on whose free entries start at `b` and go beyond the volume: after the
clusters of the volume one is taken that does not exist. -/
theorem exists_beyond (hsize : fs.sectorsPerFat ≤ 2 ^ 21) (htotal : total ≤ 2 ^ 32) (k b : ℕ)
    (l : List ℕ) (d : Disk) (hk : 128 * fs.sectorsPerFat ≤ b + k)
    (hb : ∀ x, FreeEntry fs d x → b ≤ x)
    (hl : ∀ x ∈ l, (2 ≤ x ∧ x < 2 ^ 30 ∧ InTable fs x) ∧ ¬ FreeEntry fs d x)
    (hfar : ∃ x, FreeEntry fs d x ∧ ¬ InVolume fs total x) :
    ∃ n, (fatAllocChainLoop fs n (l.headD 0) (l.getLastD 0) d).1 ≠ 0 ∧ ∃ c s,
      .sector c s ∈ (Accesses.fatAllocChainLoop fs n (l.headD 0) (l.getLastD 0) d).log () ∧
        ¬ InVolume fs total c := by
  obtain ⟨far, hfar, hout⟩ := hfar
  have hlt : ∀ x, FreeEntry fs d x → x < 2 ^ 28 := fun x hx => by
    have := v.inTable_iff.mp hx.2.1
    omega
  have hspc : 0 < fs.sectorsPerCluster := by
    by_contra h0
    exact hout fun s hs => absurd hs (by omega)
  -- on the table entries from `b` on: each round takes the smallest free one
  induction k generalizing b l d with
  | zero =>
    have h1 := hb far hfar
    have h2 := v.inTable_iff.mp hfar.2.1
    omega
  | succ k ih =>
    rcases v.fatFindFreeCluster_free fun x hx _ => (hlt x hx).trans (by decide) with
      ⟨-, hnone⟩ | ⟨hfree, hmin⟩
    · exact absurd hfar (hnone far)
    · generalize hfind : fatFindFreeCluster fs d = c at hfree hmin
      have hc0 : c ≠ 0 := by
        have := hfree.1
        omega
      have hl2 : ∀ x ∈ l, 2 ≤ x := fun x hx => (hl x hx).1.1
      -- inside the volume the next round starts behind it; else this round has left the volume
      by_cases hvol : InVolume fs total c
      · have hsec : dataSector fs c fs.sectorsPerCluster ≤ 2 ^ 32 := by
          have hlast := hvol (fs.sectorsPerCluster - 1) (by omega)
          have hmul : (fs.sectorsPerCluster - 1) + 1 = fs.sectorsPerCluster := by omega
          unfold dataSector at hlast ⊢
          omega
        have hfree' : ∀ x, FreeEntry fs (roundDisk fs (l.getLastD 0) c d) x ↔
            FreeEntry fs d x ∧ x ≠ c := fun x =>
          v.freeEntry_roundDisk hl hfree (hlt c hfree) hsec
        have hbc := hb c hfree
        have hne : far ≠ c := fun heq => hout (heq ▸ hvol)
        obtain ⟨n, hres, c', s, hlog, hout'⟩ := ih (c + 1) (l ++ [c]) _ (by omega)
          (fun x hx => by
            obtain ⟨hx, hxc⟩ := (hfree' x).mp hx
            have := hmin x hx
            omega)
          (List.forall_mem_append.mpr ⟨fun x hx => ⟨(hl x hx).1, fun h =>
              (hl x hx).2 ((hfree' x).mp h).1⟩,
            List.forall_mem_singleton.mpr ⟨⟨hfree.1, (hlt c hfree).trans (by decide), hfree.2.1⟩,
              fun h => ((hfree' c).mp h).2 rfl⟩⟩)
          ((hfree' far).mpr ⟨hfar, hne⟩) (fun x hx => hlt x ((hfree' x).mp hx).1)
        refine ⟨n + 1, ?_, c', s, v.mem_log_round hl2 hfind hc0 n (.inr hlog), hout'⟩
        rwa [v.fatAllocChainLoop_round hl2 hfind hc0]
      · refine ⟨1, ?_, c, 0, v.mem_log_round hl2 hfind hc0 0 (.inl ⟨0, hspc, rfl⟩), hvol⟩
        rw [v.fatAllocChainLoop_round hl2 hfind hc0, fatAllocChainLoop, ← headD_append hl2]
        split <;> assumption

/-- An allocation that takes the free entries up to one behind the volume hands that one out. -/
theorem exists_handsOut_beyond (hsize : fs.sectorsPerFat ≤ 2 ^ 21) (htotal : total ≤ 2 ^ 32)
    (hfree : FreeEntry fs d c) (hout : ¬ InVolume fs total c) :
    ∃ n c, HandsOut fs d n c ∧ ¬ InVolume fs total c := by
  obtain ⟨n, hres, c', s, hlog, hout'⟩ := v.exists_beyond hsize htotal (128 * fs.sectorsPerFat) 0 []
    d (by omega) (fun x _ => Nat.zero_le x) (by simp) ⟨c, hfree, hout⟩
  exact ⟨n, c', ⟨hres, s, hlog⟩, hout'⟩

end VolumeLayout

/-- The mounted volume has the shape its boot sector gives it. -/
theorem volumeShape_of_fat32Init {readBlocks : Disk → ℕ → Option Block}
    {writeBlocks : Disk → ℕ → Block → Bool × Disk} {d : Disk} {fs : Fat32Instance}
    (h : fat32Init readBlocks writeBlocks d = some fs) (hbytes : fs.bytesPerSector = 512)
    (hend : fs.reservedSectors + fs.fatCount * fs.sectorsPerFat < 2 ^ 32) : VolumeShape fs := by
  obtain ⟨bpb, -, rfl⟩ := Option.map_eq_some_iff.mp h
  simp only at hbytes hend
  refine ⟨hbytes, ?_, ?_, Nat.mod_lt _ (by decide)⟩
  · simp only
    split <;> omega
  · simp only
    rw [Nat.mod_eq_of_lt (a := _ * _) (by omega), Nat.mod_eq_of_lt hend]

/-- Every cluster that is handed out lies in the volume when every free entry belongs to one that
does; and only then, on a volume whose cluster numbers have the 28 bits of a table entry. -/
theorem allocatesInside_iff {readBlocks : Disk → ℕ → Option Block}
    {writeBlocks : Disk → ℕ → Block → Bool × Disk} {d₀ : Disk} {fs : Fat32Instance}
    (hinit : fat32Init readBlocks writeBlocks d₀ = some fs) (hbytes : fs.bytesPerSector = 512)
    (hend : fs.reservedSectors + fs.fatCount * fs.sectorsPerFat < 2 ^ 32) (d : Disk) :
    ((∀ c, FreeEntry fs d c → InVolume fs (totalSectors32 d₀) c) →
      AllocatesInside fs (totalSectors32 d₀) d) ∧
    (fs.sectorsPerFat ≤ 2 ^ 21 → AllocatesInside fs (totalSectors32 d₀) d →
      ∀ c, FreeEntry fs d c → InVolume fs (totalSectors32 d₀) c) := by
  have v := volumeShape_of_fat32Init hinit hbytes hend
  have htotal : totalSectors32 d₀ ≤ 2 ^ 32 := (Block.u32_lt _ 32).le
  constructor
  · intro h read write hdev n c hc
    have v' : VolumeShape { fs with readBlocks := read, writeBlocks := write } := { v with }
    obtain ⟨s, hs⟩ := hc.2
    exact v'.within_fatAllocChain hdev htotal h n () _ hs
  · intro hsize h c hfree
    by_contra hout
    have hf : NoFault { fs with readBlocks := ramRead, writeBlocks := ramWrite } :=
      ⟨fun _ _ => rfl, fun _ _ _ => rfl⟩
    have v' : VolumeLayout { fs with readBlocks := ramRead, writeBlocks := ramWrite } :=
      { v with noFault := hf }
    obtain ⟨n, c', hc', hout'⟩ := v'.exists_handsOut_beyond hsize htotal hfree hout
    exact hout' (h ramRead ramWrite hf.honest n c' hc')

/-! ## A volume of 40 sectors -/

/-- The boot sector of a volume of 40 sectors: the clusters 2 to 8 of one sector each, behind 32
reserved sectors and a table of one sector. -/
def bootSector : Block :=
  (((((Block.zero.putU32 11 512).put 13 1).put 14 32).put 16 1).putU32 32 40).putU32 36 1

/-- The volume, with the entries in `free` marked as free and all others as taken. -/
def smallDisk (free : List ℕ) : Disk where
  sectors := Function.update (tableDisk (ramFs 512 1 32 1 1 2) (freeTable free)).sectors 0 bootSector
  log := []

theorem fat32Init_smallDisk (free : List ℕ) :
    fat32Init ramRead ramWrite (smallDisk free) = some (ramFs 512 1 32 1 1 2) := by
  have h11 : bootSector.u16 11 = 512 := by decide
  have h13 : bootSector.get 13 = 1 := by decide
  have h14 : bootSector.u16 14 = 32 := by decide
  have h16 : bootSector.get 16 = 1 := by decide
  have h36 : bootSector.u32 36 = 1 := by decide
  have h44 : bootSector.u32 44 = 0 := by decide
  simp only [fat32Init, ramRead, smallDisk, Function.update_self, Option.map_some, h11, h13, h14, h16,
    h36, h44]
  rfl

theorem totalSectors32_smallDisk (free : List ℕ) : totalSectors32 (smallDisk free) = 40 := by
  have h32 : bootSector.u32 32 = 40 := by decide
  rw [← h32, totalSectors32]
  rfl

theorem freeEntry_smallDisk (free : List ℕ) {c : ℕ} :
    FreeEntry (ramFs 512 1 32 1 1 2) (smallDisk free) c ↔ 2 ≤ c ∧ c < 128 ∧ c ∈ free := by
  have v : VolumeLayout (ramFs 512 1 32 1 1 2) := volumeLayout_ramFs (by decide)
  refine (v.freeEntry_congr fun s hs => Function.update_of_ne ?_ ..).trans
    (freeEntry_tableDisk (by decide) free)
  rintro rfl
  obtain ⟨k, hk, j, hj, heq⟩ := hs
  have hle : (ramFs 512 1 32 1 1 2).reservedSectors +
      (ramFs 512 1 32 1 1 2).fatCount * (ramFs 512 1 32 1 1 2).sectorsPerFat ≤ 2 ^ 32 := by decide
  have h := (copySector_eq hle hk hj).1
  rw [← heq] at h
  have h32 : (ramFs 512 1 32 1 1 2).reservedSectors = 32 := rfl
  omega

theorem inVolume_smallDisk {c : ℕ} (h2 : 2 ≤ c) : InVolume (ramFs 512 1 32 1 1 2) 40 c ↔ c ≤ 8 := by
  have hsector : ∀ s, dataSector (ramFs 512 1 32 1 1 2) c s = 33 + (c - 2) * 1 + s := fun s => rfl
  constructor
  · intro h
    have h0 := h 0 Nat.one_pos
    rw [hsector] at h0
    omega
  · intro h s hs
    have hs1 : s < 1 := hs
    rw [hsector]
    omega

/-- While three clusters of the volume are free, an allocation finds no other. -/
theorem allocatesInside_smallDisk :
    AllocatesInside (ramFs 512 1 32 1 1 2) 40 (smallDisk [5, 6, 8]) := by
  have h := allocatesInside_iff (fat32Init_smallDisk [5, 6, 8]) rfl (by decide) (smallDisk [5, 6, 8])
  rw [totalSectors32_smallDisk] at h
  refine h.1 fun c hc => ?_
  obtain ⟨h2, -, hmem⟩ := (freeEntry_smallDisk _).mp hc
  refine (inVolume_smallDisk h2).mpr ?_
  simp only [List.mem_cons, List.not_mem_nil, or_false] at hmem
  omega

/-- When all clusters of the volume are taken, the entry of cluster 9 is found free, and the cluster
that would start at sector 40 is handed out. -/
theorem not_allocatesInside_full :
    fat32Init ramRead ramWrite (smallDisk (List.range' 9 119)) = some (ramFs 512 1 32 1 1 2) ∧
    totalSectors32 (smallDisk (List.range' 9 119)) = 40 ∧
    (fatAllocChain (ramFs 512 1 32 1 1 2) (smallDisk (List.range' 9 119)) 1).1 = 9 ∧
    HandsOut (ramFs 512 1 32 1 1 2) (smallDisk (List.range' 9 119)) 1 9 ∧
    ¬ InVolume (ramFs 512 1 32 1 1 2) 40 9 := by
  have v : VolumeLayout (ramFs 512 1 32 1 1 2) := volumeLayout_ramFs (by decide)
  have hfind : fatFindFreeCluster (ramFs 512 1 32 1 1 2) (smallDisk (List.range' 9 119)) = 9 := by
    refine v.fatFindFreeCluster_first ((freeEntry_smallDisk _).mpr (by decide)) fun x hx => ?_
    obtain ⟨-, hlt, hmem⟩ := (freeEntry_smallDisk _).mp hx
    rw [List.mem_range'_1] at hmem
    omega
  have hrun : (fatAllocChain (ramFs 512 1 32 1 1 2) (smallDisk (List.range' 9 119)) 1).1 = 9 :=
    congrArg Prod.fst (v.fatAllocChainLoop_round (l := []) (by simp) hfind (by decide) 0)
  refine ⟨fat32Init_smallDisk _, totalSectors32_smallDisk _, hrun, ⟨by rw [hrun]; decide, 0, ?_⟩,
    fun h => absurd ((inVolume_smallDisk (by decide)).mp h) (by decide)⟩
  exact v.mem_log_round (l := []) (by simp) hfind (by decide) 0 (.inl ⟨0, Nat.one_pos, rfl⟩)

end PsychWard.Fat32
