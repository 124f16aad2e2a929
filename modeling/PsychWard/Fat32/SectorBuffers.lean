import PsychWard.Fat32.Accesses
import PsychWard.Fat32.Allocation

/-!
# The bounds of the sector buffers

The functions keep a sector in a buffer of 512 bytes and index it with the sector size of the boot
sector. `Admits P fs` lists what they access, by the kind of access; what it admits, every log stays
within. Which sizes keep the accesses inside the buffer is `buffersBounded_iff`.
-/

namespace PsychWard.Fat32

open Traced

/-- `P` holds of every access to a sector buffer that a function can make: to table entries and to the
bytes of a sector. -/
structure AdmitsBuffers (P : Access → Prop) (fs : Fat32Instance) : Prop where
  entry : ∀ c, P (.buffer (fatOffset fs c) 4)
  free : ∀ e < fs.bytesPerSector / 4, P (.buffer (4 * e) 4)
  data : ∀ i n, i + n ≤ fs.bytesPerSector → P (.buffer i n)

/-- It also holds of the sectors of all clusters that table values and the search for a free entry can
lead to. -/
structure Admits (P : Access → Prop) (fs : Fat32Instance) : Prop extends AdmitsBuffers P fs where
  cluster : ∀ c, 2 ≤ c → c < 2 ^ 32 → ∀ s < fs.sectorsPerCluster, P (.sector c s)

/-- A table value that names a cluster. -/
theorem two_le_of_hasNext {x : ℕ} (h : clusterHasNext x = true) : 2 ≤ x ∧ x < 2 ^ 32 := by
  rw [clusterHasNext, Bool.and_eq_true, decide_eq_true_eq, decide_eq_true_eq, fat32Eoc] at h
  omega

/-- The search yields 0 or a cluster number. -/
theorem fatFindFreeCluster_range (fs : Fat32Instance) (d : Disk) :
    fatFindFreeCluster fs d = 0 ∨ 2 ≤ fatFindFreeCluster fs d ∧ fatFindFreeCluster fs d < 2 ^ 32 := by
  have hloop : ∀ n sec, fatFindFreeClusterFrom fs d n sec = 0 ∨
      2 ≤ fatFindFreeClusterFrom fs d n sec ∧ fatFindFreeClusterFrom fs d n sec < 2 ^ 32 := by
    intro n
    induction n with
    | zero => exact fun _ => .inl rfl
    | succ n ih =>
      intro sec
      rw [fatFindFreeClusterFrom]
      cases fs.readBlocks d ((fs.reservedSectors + sec) % 2 ^ 32) with
      | none => exact .inl rfl
      | some buf =>
        simp only
        cases hfind : fatFindFreeInSector buf sec (fs.bytesPerSector / 4) with
        | none => exact ih (sec + 1)
        | some e =>
          have htest := (List.find?_range_eq_some.mp hfind).1
          rw [Bool.and_eq_true, decide_eq_true_eq] at htest
          exact .inr ⟨htest.1, Nat.mod_lt _ (by decide)⟩
  exact hloop _ _

/-- Skipping clusters stays at the start or arrives where a table value leads. -/
theorem skipClusters_range {fs : Fat32Instance} {d : Disk} {n c b : ℕ}
    (h : skipClusters fs d n c = some b) : b = c ∨ 2 ≤ b ∧ b < 2 ^ 32 := by
  induction n generalizing c with
  | zero => exact .inl (Option.some.inj h).symm
  | succ n ih =>
    rw [skipClusters] at h
    split at h
    · cases h
    · split at h
      · rename_i hnext
        rcases ih h with rfl | hb
        · exact .inr (two_le_of_hasNext hnext)
        · exact .inr hb
      · cases h

namespace Accesses

section
variable {P : Access → Prop} {fs : Fat32Instance} (a : AdmitsBuffers P fs) {d : Disk} {c : ℕ}

/-- A touch makes one access. -/
theorem within_touch {e : Access} (h : P e) : Within P (touch e) := .access _ h

include a

/-- The entry lies in the buffer: its offset is below the size of a sector. -/
theorem within_fatGetEntry : Within P (fatGetEntry fs d c) := by
  rw [fatGetEntry]
  cases fs.readBlocks d (fatSector fs 0 c) with
  | none => exact .pure _
  | some buf => exact (within_touch (a.entry c)).seq fun _ => .pure _

/-- An entry is written where it was read, in every copy of the table. -/
theorem within_fatSetEntry (v : ℕ) : Within P (fatSetEntry fs d c v) := by
  have hloop : ∀ n k d, Within P (fatSetEntryFrom fs c v n k d) := by
    intro n
    induction n with
    | zero => exact fun _ _ => .pure _
    | succ n ih =>
      intro k d
      rw [fatSetEntryFrom]
      cases fs.readBlocks d (fatSector fs k c) with
      | none => exact .pure _
      | some buf =>
        apply Within.seq (within_touch (a.entry c))
        intro _
        rcases fs.writeBlocks d (fatSector fs k c) (buf.setFat (fatOffset fs c) v) with ⟨_ | _, d⟩
        · exact .pure _
        · exact ih (k + 1) d
  exact hloop _ _ _

/-- The cycle test only reads entries. -/
theorem within_fatChainHasCycle : Within P (fatChainHasCycle fs d c) := by
  have hloop : ∀ fuel slow fast, Within P (fatChainHasCycleLoop fs d fuel slow fast) := by
    intro fuel
    induction fuel with
    | zero => exact fun _ _ => .pure _
    | succ fuel ih =>
      intro slow fast
      apply Within.seq (within_fatGetEntry a)
      intro f1
      refine Within.ite (fun _ => ?_) fun _ => .pure _
      apply Within.seq (within_fatGetEntry a)
      intro f2
      refine Within.ite (fun _ => ?_) fun _ => .pure _
      apply Within.seq (within_fatGetEntry a)
      intro slow
      exact Within.ite (fun _ => .pure _) fun _ => ih slow f2
  refine Within.ite (fun _ => .pure _) fun _ => ?_
  exact (hloop _ _ _).seq fun _ => .pure _

/-- The entries of a sector lie in its buffer. -/
theorem within_fatFindFreeInSector (buf : Block) (sec n e : ℕ)
    (h : e + n ≤ fs.bytesPerSector / 4) :
    Within P (fatFindFreeInSector buf sec (fs.bytesPerSector / 4) n e) := by
  induction n generalizing e with
  | zero => exact .pure _
  | succ n ih =>
    refine Within.ite (fun _ => ih (e + 1) (by omega)) fun _ => ?_
    apply Within.seq (within_touch (a.free e (by omega)))
    intro _
    exact Within.ite (fun _ => .pure _) fun _ => ih (e + 1) (by omega)

/-- So the search for a free cluster reads no further. -/
theorem within_fatFindFreeCluster : Within P (fatFindFreeCluster fs d) := by
  have hloop : ∀ n sec, Within P (fatFindFreeClusterFrom fs d n sec) := by
    intro n
    induction n with
    | zero => exact fun _ => .pure _
    | succ n ih =>
      intro sec
      rw [fatFindFreeClusterFrom]
      cases fs.readBlocks d ((fs.reservedSectors + sec) % 2 ^ 32) with
      | none => exact .pure _
      | some buf =>
        apply Within.seq (within_fatFindFreeInSector a buf sec _ 0 (by omega))
        rintro (_ | e)
        · exact ih (sec + 1)
        · exact .pure _
  exact hloop _ _

/-! ## Chains -/

/-- Freeing a chain reads and writes entries. -/
theorem within_fatFreeChain : Within P (fatFreeChain fs d c) := by
  have hloop : ∀ guard c d, Within P (fatFreeChainLoop fs guard c d) := by
    intro guard
    induction guard with
    | zero => exact fun _ _ => .pure _
    | succ guard ih =>
      intro c d
      refine Within.ite (fun _ => .pure _) fun _ => ?_
      apply Within.seq (within_fatGetEntry a)
      intro next
      apply Within.seq (within_fatSetEntry a 0)
      intro r
      exact Within.ite (fun _ => ih next r.2) fun _ => .pure _
  apply Within.seq (within_fatChainHasCycle a)
  intro cyclic
  refine Within.ite (fun _ => .pure _) fun _ => ?_
  exact (hloop _ _ _).seq fun _ => .pure _

/-- So does the way back of an allocation. -/
theorem within_freePartial (first : ℕ) : Within P (freePartial fs d first) := by
  refine Within.ite (fun _ => .pure _) fun _ => ?_
  exact (within_fatFreeChain a).seq fun _ => .pure _

omit a in
/-- The sectors that are zeroed are those of the cluster. -/
theorem within_zeroSectors (hc : ∀ s < fs.sectorsPerCluster, P (.sector c s)) (n s : ℕ) (d : Disk)
    (h : s + n ≤ fs.sectorsPerCluster) : Within P (zeroSectors fs c n s d) := by
  induction n generalizing s d with
  | zero => exact .pure _
  | succ n ih => exact (within_touch (hc s (by omega))).seq fun _ => ih (s + 1) _ (by omega)

/-- Linking a cluster writes an entry. -/
theorem within_linkPrev (prev : ℕ) : Within P (linkPrev fs d prev c) :=
  Within.ite (fun _ => .pure _) fun _ => within_fatSetEntry a c

/-- The rounds of the loop, when `I` holds of the disk and the last cluster before each of them: a
round that gets through may access the sectors of its cluster, and keeps `I`. -/
theorem within_fatAllocChainLoop (I : Disk → ℕ → Prop)
    (hround : ∀ d prev c d₁ d₂, I d prev → Fat32.fatFindFreeCluster fs d = c → c ≠ 0 →
      Fat32.fatSetEntry fs d c fat32Eoc = (true, d₁) →
      (if prev = 0 then (true, d₁) else Fat32.fatSetEntry fs d₁ prev c) = (true, d₂) →
      (∀ s < fs.sectorsPerCluster, P (.sector c s)) ∧
        I (Fat32.zeroSectors fs fs.sectorsPerCluster (clusterToSector fs c) d₂) c)
    (n first prev : ℕ) (d : Disk) (h : I d prev) :
    Within P (fatAllocChainLoop fs n first prev d) := by
  induction n generalizing first prev d with
  | zero => exact .pure _
  | succ n ih =>
    -- every way out of a round gives back what was taken
    have hback : ∀ d, Within P (do let d ← freePartial fs d first; pure (0, d)) := fun d =>
      (within_freePartial a first).seq fun _ => .pure _
    rw [fatAllocChainLoop]
    apply Within.bind (within_fatFindFreeCluster a)
    intro u
    rw [val_fatFindFreeCluster]
    refine Within.ite (fun _ => hback d) fun hc => ?_
    apply Within.bind (within_fatSetEntry a fat32Eoc)
    intro u
    rw [val_fatSetEntry]
    rcases hset : Fat32.fatSetEntry fs d (Fat32.fatFindFreeCluster fs d) fat32Eoc with ⟨_ | _, d₁⟩
    · exact hback d₁
    · apply Within.bind (within_linkPrev a prev)
      intro u
      rw [val_linkPrev]
      rcases hlink : (if prev = 0 then (true, d₁)
        else Fat32.fatSetEntry fs d₁ prev (Fat32.fatFindFreeCluster fs d)) with ⟨_ | _, d₂⟩
      · exact (within_fatSetEntry a 0).seq fun r => hback r.2
      · obtain ⟨hP, hI⟩ := hround d prev _ d₁ d₂ h rfl hc hset hlink
        apply Within.bind (within_zeroSectors hP _ 0 d₂ (by omega))
        intro u
        rw [val_zeroSectors, Nat.add_zero]
        exact ih _ _ _ hI

/-- Walking along a chain reads entries. -/
theorem within_skipClusters (n : ℕ) : Within P (skipClusters fs d n c) := by
  induction n generalizing c with
  | zero => exact .pure _
  | succ n ih =>
    refine Within.ite (fun _ => .pure _) fun _ => ?_
    apply Within.seq (within_fatGetEntry a)
    intro next
    exact Within.ite (fun _ => ih) fun _ => .pure _

/-- The rest of a short sector is filled up to its end and no further. -/
theorem within_fillShort (n : ℕ) : Within P (fillShort n fs.bytesPerSector) := by
  refine Within.ite (fun _ => ?_) fun _ => .pure _
  apply Within.seq (within_touch (a.data _ _ (by omega)))
  intro _
  exact within_touch (a.data _ _ (by omega))

end

section
variable {P : Access → Prop} {fs : Fat32Instance} (a : Admits P fs) {d : Disk} {c : ℕ}

include a

/-- An allocation touches entries, and the sectors of the clusters it takes. -/
theorem within_fatAllocChain (n : ℕ) : Within P (fatAllocChain fs d n) := by
  refine within_fatAllocChainLoop a.toAdmitsBuffers (fun _ _ => True)
    (fun d prev c d₁ d₂ _ hfind hc _ _ => ⟨?_, trivial⟩) n 0 0 d trivial
  have hrange := (fatFindFreeCluster_range fs d).resolve_left (hfind ▸ hc)
  rw [hfind] at hrange
  exact a.cluster c hrange.1 hrange.2

/-- Each round copies out of one sector of the cluster, from an offset inside it. -/
theorem within_readChainLoop (hb : 0 < fs.bytesPerSector) (fuel need off : ℕ)
    (hc : 2 ≤ c → ∀ s < fs.sectorsPerCluster, P (.sector c s))
    (hoff : off < fs.bytesPerSector * fs.sectorsPerCluster) :
    Within P (readChainLoop fs d fuel need c off) := by
  induction fuel generalizing need c off with
  | zero => exact .pure _
  | succ fuel ih =>
    rw [readChainLoop]
    refine Within.ite (fun _ => .pure _) fun hnot => ?_
    have hmod := Nat.mod_lt off hb
    have hsec : off / fs.bytesPerSector < fs.sectorsPerCluster := Nat.div_lt_of_lt_mul hoff
    apply Within.seq (within_touch (hc (by omega) _ hsec))
    intro _
    cases fs.readBlocks d ((clusterToSector fs c + off / fs.bytesPerSector) % 2 ^ 32) with
    | none => exact .pure _
    | some sbuf =>
      apply Within.seq (within_touch (a.data _ _ (by omega)))
      intro _
      refine Within.ite (fun _ => ?_) fun hin => ?_
      · apply Within.seq (within_fatGetEntry a.toAdmitsBuffers)
        intro next
        refine Within.seq (ih _ _ (fun h2 => ?_) (by omega)) fun _ => .pure _
        by_cases hnext : clusterHasNext next = true
        · rw [if_pos hnext]
          exact a.cluster next (two_le_of_hasNext hnext).1 (two_le_of_hasNext hnext).2
        · rw [if_neg hnext] at h2
          omega
      · exact (ih _ _ hc (by omega)).seq fun _ => .pure _

/-- The first round starts at the offset within the cluster. -/
theorem within_readChainData (hb : 0 < fs.bytesPerSector)
    (hc : 2 ≤ c → ∀ s < fs.sectorsPerCluster, P (.sector c s)) (offset maxLen : ℕ) :
    Within P (readChainData fs d c offset maxLen) := by
  refine Within.ite (fun _ => .pure _) fun hnot => ?_
  apply Within.seq (within_fatChainHasCycle a.toAdmitsBuffers)
  intro cyclic
  refine Within.ite (fun _ => .pure _) fun _ => ?_
  apply Within.bind (within_skipClusters a.toAdmitsBuffers _)
  intro u
  rw [val_skipClusters]
  cases hskip : Fat32.skipClusters fs d (offset / (fs.bytesPerSector * fs.sectorsPerCluster)) c with
  | none => exact .pure _
  | some b =>
    refine within_readChainLoop a hb _ _ _ (fun h2 => ?_) (Nat.mod_lt _ (by omega))
    rcases skipClusters_range hskip with rfl | hrange
    · exact hc h2
    · exact a.cluster b hrange.1 hrange.2

/-- The rounds of a write fill one sector at a time. -/
theorem within_writeChainData (hc : 2 ≤ c → ∀ s < fs.sectorsPerCluster, P (.sector c s))
    (hs : 0 < fs.sectorsPerCluster) (data : List UInt8) :
    Within P (writeChainData fs d c data) := by
  have hloop : ∀ fuel data c s d, (2 ≤ c → ∀ s < fs.sectorsPerCluster, P (.sector c s)) →
      s < fs.sectorsPerCluster → Within P (writeChainLoop fs fuel data c s d) := by
    intro fuel
    induction fuel with
    | zero => exact fun _ _ _ _ _ _ => .pure _
    | succ fuel ih =>
      intro data c s d hc hs'
      rw [writeChainLoop]
      refine Within.ite (fun _ => .pure _) fun _ => Within.ite (fun _ => .pure _) fun h2 => ?_
      apply Within.seq (within_fillShort a.toAdmitsBuffers _)
      intro _
      apply Within.seq (within_touch (hc (by omega) s hs'))
      intro _
      rcases fs.writeBlocks d ((clusterToSector fs c + s) % 2 ^ 32)
        (Block.ofList (data.take fs.bytesPerSector)) with ⟨_ | _, d⟩
      · exact .pure _
      · refine Within.ite (fun _ => Within.ite (fun _ => .pure _) fun _ => ?_) fun hin => ?_
        · apply Within.seq (within_fatGetEntry a.toAdmitsBuffers)
          intro next
          refine Within.ite (fun hnext => ?_) fun _ => .pure _
          exact ih _ next 0 d
            (fun _ => a.cluster next (two_le_of_hasNext hnext).1 (two_le_of_hasNext hnext).2) hs
        · exact ih _ c (s + 1) d hc (by omega)
  exact hloop _ _ _ _ _ hc hs

end

end Accesses

/-! ## Which sector sizes keep the accesses inside the buffers -/

/-- The access stays inside a buffer of 512 bytes. -/
def InSectorBuffer : Access → Prop
  | .buffer offset length => offset + length ≤ 512
  | .sector _ _ => True

/-- All accesses of the table and data functions stay inside their sector buffers. -/
structure BuffersBounded (fs : Fat32Instance) : Prop where
  getEntry : ∀ d c, Within InSectorBuffer (Accesses.fatGetEntry fs d c)
  setEntry : ∀ d c v, Within InSectorBuffer (Accesses.fatSetEntry fs d c v)
  findFree : ∀ d, Within InSectorBuffer (Accesses.fatFindFreeCluster fs d)
  readChain : ∀ d c offset maxLen, Within InSectorBuffer (Accesses.readChainData fs d c offset maxLen)
  writeChain : ∀ d c data, Within InSectorBuffer (Accesses.writeChainData fs d c data)

/-- With sectors of at most 512 bytes every access lies in its buffer. -/
theorem admits_inSectorBuffer {fs : Fat32Instance} (hpos : 0 < fs.bytesPerSector)
    (hle : fs.bytesPerSector ≤ 512) : Admits InSectorBuffer fs where
  entry := by
    intro c
    have hmod := Nat.mod_lt (c * 4 % 2 ^ 32) hpos
    show fatOffset fs c + 4 ≤ 512
    unfold fatOffset
    omega
  free := fun e he => show 4 * e + 4 ≤ 512 by omega
  data := fun i n h => show i + n ≤ 512 by omega
  cluster := fun _ _ _ _ _ => trivial

/-- One direction of the characterisation: up to 512 bytes a sector nothing is out of bounds. -/
theorem buffersBounded_of_le {fs : Fat32Instance} (hpos : 0 < fs.bytesPerSector)
    (hle : fs.bytesPerSector ≤ 512) (hspc : 0 < fs.sectorsPerCluster) : BuffersBounded fs := by
  have a := admits_inSectorBuffer hpos hle
  exact
    { getEntry := fun _ _ => Accesses.within_fatGetEntry a.toAdmitsBuffers
      setEntry := fun _ _ v => Accesses.within_fatSetEntry a.toAdmitsBuffers v
      findFree := fun _ => Accesses.within_fatFindFreeCluster a.toAdmitsBuffers
      readChain := fun _ _ offset maxLen =>
        Accesses.within_readChainData a hpos (fun _ _ _ => trivial) offset maxLen
      writeChain := fun _ _ data =>
        Accesses.within_writeChainData a (fun _ _ _ => trivial) hspc data }

/-- With larger sectors the entry of cluster 128 lies behind the buffer. -/
theorem not_buffersBounded {fs : Fat32Instance} {d : Disk} {buf : Block}
    (hread : fs.readBlocks d (fatSector fs 0 128) = some buf) (hlt : 512 < fs.bytesPerSector) :
    ¬ BuffersBounded fs := by
  intro h
  have hoffset : fatOffset fs 128 = 512 := by
    rw [fatOffset, Nat.mod_eq_of_lt (a := 128 * 4 % 2 ^ 32) (by omega)]
    norm_num
  have hlog : (Accesses.fatGetEntry fs d 128).log () = [.buffer 512 4] := by
    rw [Accesses.fatGetEntry, hread, hoffset]
    rfl
  have hin := h.getEntry d 128 () (.buffer 512 4) (by rw [hlog]; exact List.mem_singleton_self _)
  exact absurd hin (by simp [InSectorBuffer])

/-- The accesses stay inside the buffers on every device with a given boot sector exactly when its
`bytes_per_sector` is at most 512, whatever else it says. -/
theorem buffersBounded_iff (bpb : Block) :
    (∀ readBlocks writeBlocks d fs, readBlocks d 0 = some bpb →
      fat32Init readBlocks writeBlocks d = some fs → BuffersBounded fs) ↔ bpb.u16 11 ≤ 512 := by
  constructor
  · intro h
    by_contra hlt
    have hbytes : (if bpb.u16 11 = 0 then 512 else bpb.u16 11) = bpb.u16 11 := if_neg (by omega)
    refine not_buffersBounded (d := ⟨fun _ => bpb, []⟩) rfl ?_
      (h ramRead ramWrite ⟨fun _ => bpb, []⟩ _ rfl rfl)
    simp only [hbytes]
    omega
  · intro hle readBlocks writeBlocks d fs hboot hinit
    rw [fat32Init, hboot] at hinit
    obtain rfl := Option.some.inj hinit
    refine buffersBounded_of_le ?_ ?_ ?_
    · simp only
      split <;> omega
    · simp only
      split <;> omega
    · simp only
      split <;> omega

/-- A boot sector with `bytes_per_sector` 1024. -/
def kilobyteSectors : Block := Block.zero.put 12 4

/-- It is accepted, and the entry of cluster 128 is read behind the buffer. -/
theorem not_buffersBounded_kilobyte :
    fat32Init ramRead ramWrite ⟨fun _ => kilobyteSectors, []⟩ = some (ramFs 1024 8 32 2 1 2) ∧
      ¬ BuffersBounded (ramFs 1024 8 32 2 1 2) := by
  refine ⟨?_, not_buffersBounded (d := blankDisk) rfl (by decide)⟩
  have h11 : kilobyteSectors.u16 11 = 1024 := by decide
  have h13 : kilobyteSectors.get 13 = 0 := by decide
  have h14 : kilobyteSectors.u16 14 = 0 := by decide
  have h16 : kilobyteSectors.get 16 = 0 := by decide
  have h36 : kilobyteSectors.u32 36 = 0 := by decide
  have h44 : kilobyteSectors.u32 44 = 0 := by decide
  simp only [fat32Init, ramRead, Option.map_some, h11, h13, h14, h16, h36, h44]
  rfl

end PsychWard.Fat32
