import PsychWard.Fat32.TableSpec

/-!
# The copies of the table, entry by entry

`TableSpec` describes the table functions on a volume whose geometry is sound, through the first copy
of the table. Here the entries of every copy are looked at as they lie on the disk, all 32 bits of
them, and the only assumptions are that the copies do not overlap and that no transfer fails
(`TableLayout`). `TableLayout.fatSetEntry_spec` is the effect of storing an entry: the array laws for
every entry of every copy, and the frame.

The byte offset of an entry is computed in 32 bits, so from cluster `2 ^ 30` on the code addresses
the entries from the front again. FAT32 has no such clusters; the results are about those below.
-/

namespace PsychWard.Fat32

/-- The sector of table copy `k` that is its `j`-th. -/
def copySector (fs : Fat32Instance) (k j : ℕ) : ℕ :=
  (fs.reservedSectors + k * fs.sectorsPerFat % 2 ^ 32 + j) % 2 ^ 32

/-- The entry of index `c` in copy `k` of the table, all 32 bits. -/
def copyEntry (fs : Fat32Instance) (d : Disk) (k c : ℕ) : ℕ :=
  (d.sectors (copySector fs k (4 * c / fs.bytesPerSector))).u32 (4 * c % fs.bytesPerSector / 4 * 4)

/-- The entry of index `c` lies in the sectors of the table, and in the buffer of its sector. -/
def InTable (fs : Fat32Instance) (c : ℕ) : Prop :=
  4 * c / fs.bytesPerSector < fs.sectorsPerFat ∧ 4 * c % fs.bytesPerSector / 4 * 4 + 4 ≤ 512

/-- The sectors of the copies of the table. -/
def InCopies (fs : Fat32Instance) (s : ℕ) : Prop :=
  ∃ k < fs.fatCount, ∃ j < fs.sectorsPerFat, s = copySector fs k j

/-- The copies of the table are pairwise disjoint. -/
structure DisjointCopies (fs : Fat32Instance) : Prop where
  bytes_pos : 0 < fs.bytesPerSector
  copies_pos : 0 < fs.fatCount
  size_lt : fs.sectorsPerFat < 2 ^ 32
  disjoint : ∀ k < fs.fatCount, ∀ k' < fs.fatCount, k ≠ k' → ∀ j < fs.sectorsPerFat,
    ∀ j' < fs.sectorsPerFat, copySector fs k j ≠ copySector fs k' j'

/-- Disjoint copies on a device that does not fail. -/
structure TableLayout (fs : Fat32Instance) : Prop extends DisjointCopies fs where
  noFault : NoFault fs

/-- Transfers may fail, but a read that succeeds returns the sector, a write that succeeds stores it,
and one that fails leaves the other sectors alone. -/
structure Honest (fs : Fat32Instance) : Prop where
  read : ∀ d s b, fs.readBlocks d s = some b → b = d.sectors s
  write : ∀ d s b d', fs.writeBlocks d s b = (true, d') →
    d'.sectors = Function.update d.sectors s b
  failed : ∀ d s b d', fs.writeBlocks d s b = (false, d') → ∀ x ≠ s, d'.sectors x = d.sectors x

instance (fs : Fat32Instance) (c : ℕ) : Decidable (InTable fs c) :=
  inferInstanceAs (Decidable (_ ∧ _))

namespace Block

theorem u16_lt (b : Block) (i : ℕ) : b.u16 i < 2 ^ 16 := by
  have h0 := (b.get i).toNat_lt
  have h1 := (b.get (i + 1)).toNat_lt
  unfold u16
  omega

theorem u32_lt (b : Block) (i : ℕ) : b.u32 i < 2 ^ 32 := by
  have h0 := b.u16_lt i
  have h1 := b.u16_lt (i + 2)
  unfold u32
  omega

/-- A table entry keeps its four reserved bits when it is stored. -/
theorem u32_setFat (b : Block) {i : ℕ} (v : ℕ) (h : i + 4 ≤ 512) :
    (b.setFat i v).u32 i = b.u32 i / 2 ^ 28 * 2 ^ 28 + v % 2 ^ 28 := by
  have hlt := b.u32_lt i
  rw [setFat, u32_putU32_self _ _ h]
  omega

end Block

section
variable {fs : Fat32Instance} {d : Disk} {c : ℕ}

/-- The byte offset of an entry has 32 bits, so the code finds the entry of index `c % 2 ^ 30`. -/
theorem fatSector_eq_copySector (k : ℕ) :
    fatSector fs k c = copySector fs k (4 * (c % 2 ^ 30) / fs.bytesPerSector) := by
  rw [fatSector, copySector, show c * 4 % 2 ^ 32 = 4 * (c % 2 ^ 30) by omega]

theorem fatOffset_eq_mod :
    fatOffset fs c = 4 * (c % 2 ^ 30) % fs.bytesPerSector / 4 * 4 := by
  rw [fatOffset, show c * 4 % 2 ^ 32 = 4 * (c % 2 ^ 30) by omega]

theorem copyEntry_mod (k : ℕ) :
    copyEntry fs d k (c % 2 ^ 30) = (d.sectors (fatSector fs k c)).u32 (fatOffset fs c) := by
  rw [copyEntry, fatSector_eq_copySector, fatOffset_eq_mod]

/-- Two entries in one sector do not overlap. -/
theorem offset_disjoint {c' : ℕ} (hne : c' ≠ c)
    (hsec : 4 * c' / fs.bytesPerSector = 4 * c / fs.bytesPerSector) :
    4 * c % fs.bytesPerSector / 4 * 4 + 4 ≤ 4 * c' % fs.bytesPerSector / 4 * 4 ∨
      4 * c' % fs.bytesPerSector / 4 * 4 + 4 ≤ 4 * c % fs.bytesPerSector / 4 * 4 := by
  have h := Nat.div_add_mod (4 * c) fs.bytesPerSector
  have h' := Nat.div_add_mod (4 * c') fs.bytesPerSector
  rw [hsec] at h'
  omega

end

theorem NoFault.honest {fs : Fat32Instance} (hf : NoFault fs) : Honest fs where
  read := fun d s b h => (Option.some.inj ((hf.read d s).symm.trans h)).symm
  write := fun d s b d' h => by
    rw [hf.write] at h
    rw [← (Prod.mk.inj h).2]
    rfl
  failed := fun d s b d' h => by
    rw [hf.write] at h
    cases (Prod.mk.inj h).1

/-- A write changes no other sector, whatever its result. -/
theorem Honest.write_ne {fs : Fat32Instance} (hdev : Honest fs) (d : Disk) (s : ℕ) (b : Block) :
    ∀ x ≠ s, (fs.writeBlocks d s b).2.sectors x = d.sectors x := by
  intro x hx
  cases hres : fs.writeBlocks d s b with
  | mk ok d' =>
    cases ok with
    | false => exact hdev.failed d s b d' hres x hx
    | true =>
      rw [hdev.write d s b d' hres]
      exact Function.update_of_ne hx ..

/-- Without a failing transfer every entry is stored. -/
theorem NoFault.fatSetEntry_fst {fs : Fat32Instance} (hf : NoFault fs) (d : Disk) (c v : ℕ) :
    (fatSetEntry fs d c v).1 = true := by
  have hloop : ∀ n k d, (fatSetEntryFrom fs c v n k d).1 = true := by
    intro n
    induction n with
    | zero => exact fun _ _ => rfl
    | succ n ih =>
      intro k d
      simp only [fatSetEntryFrom, hf.read, hf.write]
      exact ih _ _
  exact hloop _ _ _

theorem NoFault.fatSetEntry_eq {fs : Fat32Instance} (hf : NoFault fs) (d : Disk) (c v : ℕ) :
    fatSetEntry fs d c v = (true, (fatSetEntry fs d c v).2) :=
  Prod.ext (hf.fatSetEntry_fst d c v) rfl

/-! ## Storing an entry -/

/-- What storing `v` as the entry of `c` does to the copies of the table and to the disk. -/
structure CopiesStored (fs : Fat32Instance) (d d' : Disk) (c v : ℕ) : Prop where
  /-- every copy has the low 28 bits of `v`, beside its old reserved bits -/
  stored : ∀ k < fs.fatCount,
    copyEntry fs d' k c = copyEntry fs d k c / 2 ^ 28 * 2 ^ 28 + v % 2 ^ 28
  /-- the other entries of every copy -/
  kept : ∀ k < fs.fatCount, ∀ c', InTable fs c' → c' ≠ c →
    copyEntry fs d' k c' = copyEntry fs d k c'
  /-- the sectors outside the copies -/
  outside : ∀ s, ¬ InCopies fs s → d'.sectors s = d.sectors s

namespace DisjointCopies

variable {fs : Fat32Instance} (t : DisjointCopies fs) {d : Disk} {c : ℕ}

include t

theorem copySector_inj {k k' j j' : ℕ} (hk : k < fs.fatCount) (hk' : k' < fs.fatCount)
    (hj : j < fs.sectorsPerFat) (hj' : j' < fs.sectorsPerFat)
    (h : copySector fs k j = copySector fs k' j') : k = k' ∧ j = j' := by
  by_cases hkk : k = k'
  · subst hkk
    refine ⟨rfl, ?_⟩
    have hlt := t.size_lt
    unfold copySector at h
    omega
  · exact absurd h (t.disjoint k hk k' hk' hkk j hj j' hj')

/-- The loop over the copies, when it gets through: every sector it visits has its entry stored, no
other is written. -/
private theorem fatSetEntryFrom_spec (hdev : Honest fs) (hin : InTable fs (c % 2 ^ 30))
    (v n k : ℕ) (d d' : Disk) (hn : k + n = fs.fatCount)
    (hrun : fatSetEntryFrom fs c v n k d = (true, d')) :
    (∀ i, k ≤ i → i < fs.fatCount → d'.sectors (fatSector fs i c) =
      (d.sectors (fatSector fs i c)).setFat (fatOffset fs c) v) ∧
    ∀ s, (∀ i, k ≤ i → i < fs.fatCount → s ≠ fatSector fs i c) → d'.sectors s = d.sectors s := by
  induction n generalizing k d with
  | zero =>
    obtain rfl : d = d' := (Prod.mk.inj hrun).2
    exact ⟨fun i h1 h2 => absurd h2 (by omega), fun s _ => rfl⟩
  | succ n ih =>
    rw [fatSetEntryFrom] at hrun
    cases hread : fs.readBlocks d (fatSector fs k c) with
    | none =>
      rw [hread] at hrun
      cases (Prod.mk.inj hrun).1
    | some buf =>
      obtain rfl := hdev.read _ _ _ hread
      rw [hread] at hrun
      simp only at hrun
      cases hwrite : fs.writeBlocks d (fatSector fs k c)
          ((d.sectors (fatSector fs k c)).setFat (fatOffset fs c) v) with
      | mk ok d₁ =>
        rw [hwrite] at hrun
        cases ok with
        | false => cases (Prod.mk.inj hrun).1
        | true =>
          have hsec := hdev.write _ _ _ _ hwrite
          obtain ⟨hstored, hframe⟩ := ih (k + 1) d₁ (by omega) hrun
          -- the sectors of two copies differ
          have hne : ∀ i, k < i → i < fs.fatCount → fatSector fs i c ≠ fatSector fs k c := by
            intro i hik hi heq
            rw [fatSector_eq_copySector, fatSector_eq_copySector] at heq
            have := (t.copySector_inj hi (by omega) hin.1 hin.1 heq).1
            omega
          refine ⟨fun i h1 h2 => ?_, fun s hs => ?_⟩
          · rcases Nat.eq_or_lt_of_le h1 with rfl | hlt
            · rw [hframe _ fun i h1 h2 => (hne i h1 h2).symm, hsec, Function.update_self]
            · rw [hstored i hlt h2, hsec, Function.update_of_ne (hne i hlt h2)]
          · rw [hframe s fun i h1 h2 => hs i (by omega) h2, hsec,
              Function.update_of_ne (hs k (by omega) (by omega))]

/-- A call of `fat_set_entry` that succeeds stores the entry it finds in every copy, and changes
nothing else. -/
theorem copiesStored (hdev : Honest fs) (hin : InTable fs (c % 2 ^ 30)) {v : ℕ} {d d' : Disk}
    (hrun : fatSetEntry fs d c v = (true, d')) : CopiesStored fs d d' (c % 2 ^ 30) v := by
  obtain ⟨hstored, hframe⟩ :=
    t.fatSetEntryFrom_spec hdev hin v fs.fatCount 0 d d' (Nat.zero_add _) hrun
  refine ⟨fun k hk => ?_, fun k hk c' hin' hne => ?_, fun s hs => ?_⟩
  · have hoff : fatOffset fs c + 4 ≤ 512 := by
      rw [fatOffset_eq_mod]
      exact hin.2
    rw [copyEntry_mod, copyEntry_mod, hstored k k.zero_le hk, Block.u32_setFat _ _ hoff]
  · rw [copyEntry, copyEntry]
    by_cases hsec : 4 * c' / fs.bytesPerSector = 4 * (c % 2 ^ 30) / fs.bytesPerSector
    · have hs := hstored k k.zero_le hk
      rw [fatSector_eq_copySector, ← hsec] at hs
      rw [hs, fatOffset_eq_mod]
      exact Block.u32_setFat_of_disjoint _ _ (offset_disjoint hne hsec)
    · rw [hframe]
      intro i _ hi heq
      rw [fatSector_eq_copySector] at heq
      exact hsec (t.copySector_inj hk hi hin'.1 hin.1 heq).2
  · refine hframe s fun i _ hi heq => hs ⟨i, hi, _, hin.1, ?_⟩
    rw [heq, fatSector_eq_copySector]

end DisjointCopies

namespace TableLayout

variable {fs : Fat32Instance} (t : TableLayout fs) {d : Disk} {c : ℕ}

include t

theorem fatGetEntry_mod : fatGetEntry fs d c = copyEntry fs d 0 (c % 2 ^ 30) % 2 ^ 28 := by
  rw [fatGetEntry, t.noFault.read, copyEntry_mod]

theorem fatGetEntry_eq (hc : c < 2 ^ 30) : fatGetEntry fs d c = copyEntry fs d 0 c % 2 ^ 28 := by
  rw [t.fatGetEntry_mod, Nat.mod_eq_of_lt hc]

/-- Below cluster `2 ^ 30` the entry that is stored is the cluster's own. -/
theorem fatSetEntry_spec (hc : c < 2 ^ 30) (hin : InTable fs c) (v : ℕ) (d : Disk) :
    ∃ d', fatSetEntry fs d c v = (true, d') ∧ CopiesStored fs d d' c v := by
  have hrun := t.noFault.fatSetEntry_eq d c v
  have h := t.copiesStored t.noFault.honest (by rwa [Nat.mod_eq_of_lt hc]) hrun
  rw [Nat.mod_eq_of_lt hc] at h
  exact ⟨_, hrun, h⟩

end TableLayout

namespace CopiesStored

variable {fs : Fat32Instance} {d d' : Disk} {c v : ℕ}

/-- The stored entry is read back, every other one reads as before. -/
theorem fatGetEntry (h : CopiesStored fs d d' c v) (t : TableLayout fs) {c' : ℕ}
    (hc' : c' < 2 ^ 30) (hin : InTable fs c') :
    fatGetEntry fs d' c' = if c' = c then v % 2 ^ 28 else fatGetEntry fs d c' := by
  rw [t.fatGetEntry_eq hc', t.fatGetEntry_eq hc']
  split
  · rename_i heq
    rw [heq, h.stored 0 t.copies_pos]
    omega
  · rename_i hne
    rw [h.kept 0 t.copies_pos c' hin hne]

end CopiesStored

/-! ## Tables in front of the data area -/

section
variable {fs : Fat32Instance} {k j : ℕ}

/-- Copies that end below sector `2 ^ 32` lie one behind the other. -/
theorem copySector_eq (hle : fs.reservedSectors + fs.fatCount * fs.sectorsPerFat ≤ 2 ^ 32)
    (hk : k < fs.fatCount) (hj : j < fs.sectorsPerFat) :
    copySector fs k j = fs.reservedSectors + (k * fs.sectorsPerFat + j) ∧
      k * fs.sectorsPerFat + j < (k + 1) * fs.sectorsPerFat ∧
      (k + 1) * fs.sectorsPerFat ≤ fs.fatCount * fs.sectorsPerFat := by
  have hmul : (k + 1) * fs.sectorsPerFat ≤ fs.fatCount * fs.sectorsPerFat :=
    Nat.mul_le_mul_right _ hk
  refine ⟨?_, by rw [Nat.add_mul]; omega, hmul⟩
  rw [Nat.add_mul] at hmul
  unfold copySector
  rw [Nat.mod_eq_of_lt (a := k * fs.sectorsPerFat) (by omega), Nat.mod_eq_of_lt (by omega)]
  omega

theorem disjointCopies_of_le (hb : 0 < fs.bytesPerSector) (hc : 0 < fs.fatCount)
    (hsize : fs.sectorsPerFat < 2 ^ 32)
    (hle : fs.reservedSectors + fs.fatCount * fs.sectorsPerFat ≤ 2 ^ 32) : DisjointCopies fs := by
  refine ⟨hb, hc, hsize, fun k hk k' hk' hne j hj j' hj' heq => ?_⟩
  obtain ⟨h1, h2, -⟩ := copySector_eq hle hk hj
  obtain ⟨h1', h2', -⟩ := copySector_eq hle hk' hj'
  rcases Nat.lt_or_gt_of_ne hne with hlt | hlt
  · have hmul : (k + 1) * fs.sectorsPerFat ≤ k' * fs.sectorsPerFat := Nat.mul_le_mul_right _ hlt
    omega
  · have hmul : (k' + 1) * fs.sectorsPerFat ≤ k * fs.sectorsPerFat := Nat.mul_le_mul_right _ hlt
    omega

end

/-- The copies of a volume with sound geometry do not overlap. -/
theorem Geometry.tableLayout {fs : Fat32Instance} (g : Geometry fs) : TableLayout fs := by
  have hsize : fs.sectorsPerFat < 2 ^ 32 := by
    have h := g.clusters_le
    unfold Fat32Instance.clusters fat32Eoc at h
    omega
  have hstart := g.dataStart
  have hlt := g.sectors_lt
  exact ⟨disjointCopies_of_le (by rw [g.bytes]; omega) g.copies_pos hsize (by omega), g.noFault⟩

/-! ## The array laws -/

/-- Storing an entry of a cluster below `2 ^ 30`: the entry in every copy, the other entries of every
copy, the other sectors, and what is read afterwards. -/
theorem fatSetEntry_arrayLaws {fs : Fat32Instance} (t : TableLayout fs) {c : ℕ} (hc : c < 2 ^ 30)
    (hin : InTable fs c) (v : ℕ) (d : Disk) :
    (fatSetEntry fs d c v).1 = true ∧ CopiesStored fs d (fatSetEntry fs d c v).2 c v ∧
      ∀ c' < 2 ^ 30, InTable fs c' → fatGetEntry fs (fatSetEntry fs d c v).2 c' =
        if c' = c then v % 2 ^ 28 else fatGetEntry fs d c' := by
  obtain ⟨d', hrun, hstored⟩ := t.fatSetEntry_spec hc hin v d
  rw [hrun]
  exact ⟨rfl, hstored, fun c' hc' hin' => hstored.fatGetEntry t hc' hin'⟩

/-- A mounted instance as `fat32_init` sets it up, over a device that never fails. -/
def ramFs (bytesPerSector sectorsPerCluster reservedSectors fatCount sectorsPerFat rootCluster : ℕ) :
    Fat32Instance where
  readBlocks := ramRead
  writeBlocks := ramWrite
  bytesPerSector
  sectorsPerCluster
  reservedSectors
  fatCount
  sectorsPerFat
  rootCluster
  currentDirCluster := rootCluster
  dataStartSector := (reservedSectors + fatCount * sectorsPerFat % 2 ^ 32) % 2 ^ 32

theorem noFault_ramFs (bytes perCluster reserved copies perFat root : ℕ) :
    NoFault (ramFs bytes perCluster reserved copies perFat root) :=
  ⟨fun _ _ => rfl, fun _ _ _ => rfl⟩

/-- A disk full of zeros. -/
def blankDisk : Disk := ⟨fun _ => Block.zero, []⟩

/-- Sector `k` of a table. -/
def tableSector (table : ℕ → ℕ) (k : ℕ) : Block := fun j =>
  UInt8.ofNat (table (128 * k + j / 4) / 2 ^ (8 * (j % 4 : ℕ)))

theorem u32_tableSector (table : ℕ → ℕ) (k : ℕ) {i : ℕ} (hi : i < 128) :
    (tableSector table k).u32 (4 * i) = table (128 * k + i) % 2 ^ 32 := by
  have hget : ∀ b < 4, ((tableSector table k).get (4 * i + b)).toNat =
      table (128 * k + i) / 2 ^ (8 * b) % 2 ^ 8 := by
    intro b hb
    rw [Block.get, dif_pos (by omega), tableSector]
    simp only
    rw [show (4 * i + b) / 4 = i by omega, show (4 * i + b) % 4 = b by omega, UInt8.toNat_ofNat']
  rw [Block.u32, Block.u16, Block.u16, ← Nat.add_zero (4 * i), hget 0 (by omega),
    Nat.add_zero (4 * i), hget 1 (by omega), hget 2 (by omega), Nat.add_assoc (4 * i) 2 1,
    hget 3 (by omega)]
  omega

/-- A disk whose sectors hold a table from the first reserved sector's end on. -/
def tableDisk (fs : Fat32Instance) (table : ℕ → ℕ) : Disk :=
  ⟨fun s => tableSector table (s - fs.reservedSectors), []⟩

theorem copyEntry_tableDisk {fs : Fat32Instance} (hb : fs.bytesPerSector = 512) {c : ℕ}
    (hc : fs.reservedSectors + c / 128 < 2 ^ 32) (table : ℕ → ℕ) :
    copyEntry fs (tableDisk fs table) 0 c = table c % 2 ^ 32 := by
  have hsector : copySector fs 0 (4 * c / 512) = fs.reservedSectors + c / 128 := by
    unfold copySector
    omega
  rw [copyEntry, hb, hsector, show 4 * c % 512 / 4 * 4 = 4 * (c % 128) by omega, tableDisk]
  simp only [Nat.add_sub_cancel_left]
  rw [u32_tableSector _ _ (Nat.mod_lt _ (by decide)), Nat.div_add_mod]

/-- A table of two copies with entries in several sectors. -/
theorem fatSetEntry_arrayLaws_two :
    CopiesStored (ramFs 512 1 32 2 3 2) blankDisk
      (fatSetEntry (ramFs 512 1 32 2 3 2) blankDisk 200 0xFFFFFFFF).2 200 0xFFFFFFFF := by
  have t : TableLayout (ramFs 512 1 32 2 3 2) :=
    ⟨disjointCopies_of_le (by decide) (by decide) (by decide) (by decide), noFault_ramFs _ _ _ _ _ _⟩
  exact (fatSetEntry_arrayLaws t (by decide) (by decide) _ _).2.1

/-- The volume has more than `2 ^ 30` table entries: storing the one of cluster `2 ^ 30` overwrites
the one of cluster 0. -/
theorem not_copiesStored_beyond :
    TableLayout (ramFs 512 1 32 1 (2 ^ 23 + 1) 2) ∧ InTable (ramFs 512 1 32 1 (2 ^ 23 + 1) 2) (2 ^ 30) ∧
      ¬ CopiesStored (ramFs 512 1 32 1 (2 ^ 23 + 1) 2) blankDisk
        (fatSetEntry (ramFs 512 1 32 1 (2 ^ 23 + 1) 2) blankDisk (2 ^ 30) 1).2 (2 ^ 30) 1 := by
  refine ⟨⟨disjointCopies_of_le (by decide) (by decide) (by decide) (by decide),
    noFault_ramFs _ _ _ _ _ _⟩, by decide, fun h => ?_⟩
  have hkept := h.kept 0 (by decide) 0 (by decide) (by decide)
  exact absurd hkept (by decide)

end PsychWard.Fat32
