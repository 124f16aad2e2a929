import Mathlib.Algebra.Group.Nat.Defs
import Mathlib.Logic.Function.Basic
import Mathlib.Data.List.Basic

/-!
# Sectors, the disk and the mounted instance

`fat32.cpp` moves whole 512-byte sectors through two function pointers, `read_blocks` and
`write_blocks`; `Fat32Instance` keeps both as fields, next to the numbers it caches from the boot
sector. `Disk` is what the pointers act on: the contents of every sector and the log of completed
sector writes, so that "only the first `k` writes of a call reached the disk" can be stated.

Numbers of the source's unsigned types are natural numbers; where an operation can leave its type
the reduction is written out.
-/

namespace PsychWard.Fat32

/-- The buffer of one sector. -/
def Block := Fin 512 → UInt8

/-- A 32-byte directory entry. -/
def Entry := Fin 32 → UInt8

namespace Block

@[ext] theorem ext {b b' : Block} (h : ∀ i, b i = b' i) : b = b' := funext h

/-- The byte at offset `i`; reads past the end give 0. -/
def get (b : Block) (i : ℕ) : UInt8 := if h : i < 512 then b ⟨i, h⟩ else 0

/-- Store one byte. -/
def put (b : Block) (i : ℕ) (v : UInt8) : Block := fun j => if j = i then v else b j

/-- The little-endian numbers at offset `i`. -/
def u16 (b : Block) (i : ℕ) : ℕ := (b.get i).toNat + (b.get (i + 1)).toNat * 2 ^ 8

def u32 (b : Block) (i : ℕ) : ℕ := b.u16 i + b.u16 (i + 2) * 2 ^ 16

/-- Store a 32-bit number at offset `i`. -/
def putU32 (b : Block) (i v : ℕ) : Block := fun j =>
  if i ≤ j ∧ j < i + 4 then UInt8.ofNat (v / 2 ^ (8 * (j - i))) else b j

/-- The buffer that starts with `l` and is zero behind it. -/
def ofList (l : List UInt8) : Block := fun i => l.getD i 0

/-- `char zero_buf[512] = {0}`. -/
def zero : Block := fun _ => 0

/-- The directory entry at byte offset `i`. -/
def entry (b : Block) (i : ℕ) : Entry := fun j => b.get (i + j)

/-- Replace the directory entry at byte offset `i`. -/
def setEntry (b : Block) (i : ℕ) (e : Entry) : Block := fun j =>
  if h : i ≤ j ∧ (j : ℕ) - i < 32 then e ⟨j - i, h.2⟩ else b j

end Block

namespace Entry

instance neZero_size : @NeZero ℕ Zero.ofOfNat0 32 := ⟨by decide⟩

@[ext] theorem ext {e e' : Entry} (h : ∀ i, e i = e' i) : e = e' := funext h

def zero : Entry := fun _ => 0

/-- The 11 bytes of the short name. -/
def name (e : Entry) : List UInt8 := (List.finRange 32).map e |>.take 11

def attr (e : Entry) : UInt8 := e 11

/-- The start cluster: high word at 20, low word at 26. -/
def clus (e : Entry) : ℕ :=
  ((e 20).toNat + (e 21).toNat * 2 ^ 8) * 2 ^ 16 + ((e 26).toNat + (e 27).toNat * 2 ^ 8)

def size (e : Entry) : ℕ :=
  (e 28).toNat + (e 29).toNat * 2 ^ 8 + (e 30).toNat * 2 ^ 16 + (e 31).toNat * 2 ^ 24

/-- Store the short name, `my_memcpy(entry, name, 11)`. -/
def setName (e : Entry) (n : List UInt8) : Entry := fun i => if i < 11 then n.getD i 0 else e i

def setByte (e : Entry) (i : Fin 32) (v : UInt8) : Entry := fun j => if j = i then v else e j

/-- Store the start cluster and the size. -/
def setClus (e : Entry) (clus : ℕ) : Entry := fun i =>
  if i = 20 then UInt8.ofNat (clus / 2 ^ 16)
  else if i = 21 then UInt8.ofNat (clus / 2 ^ 24)
  else if i = 26 then UInt8.ofNat clus
  else if i = 27 then UInt8.ofNat (clus / 2 ^ 8)
  else e i

def setSize (e : Entry) (size : ℕ) : Entry := fun i =>
  if i = 28 then UInt8.ofNat size
  else if i = 29 then UInt8.ofNat (size / 2 ^ 8)
  else if i = 30 then UInt8.ofNat (size / 2 ^ 16)
  else if i = 31 then UInt8.ofNat (size / 2 ^ 24)
  else e i

end Entry

/-- The disk: its sectors, and the sector writes that reached it, latest first. -/
structure Disk where
  sectors : ℕ → Block
  log : List (ℕ × Block)

/-- A completed sector write. -/
def Disk.write (d : Disk) (sector : ℕ) (b : Block) : Disk where
  sectors := Function.update d.sectors sector b
  log := (sector, b) :: d.log

/-- `FAT32_Instance`. -/
structure Fat32Instance where
  /-- `none` when the transfer fails -/
  readBlocks : Disk → ℕ → Option Block
  writeBlocks : Disk → ℕ → Block → Bool × Disk
  bytesPerSector : ℕ
  sectorsPerCluster : ℕ
  reservedSectors : ℕ
  fatCount : ℕ
  sectorsPerFat : ℕ
  rootCluster : ℕ
  currentDirCluster : ℕ
  dataStartSector : ℕ

/-- `fat32_init`: `none` when the boot sector cannot be read. -/
def fat32Init (readBlocks : Disk → ℕ → Option Block)
    (writeBlocks : Disk → ℕ → Block → Bool × Disk) (d : Disk) : Option Fat32Instance :=
  (readBlocks d 0).map fun bpb =>
    let orDefault (v dflt : ℕ) : ℕ := if v = 0 then dflt else v
    let reservedSectors := orDefault (bpb.u16 14) 32
    let fatCount := orDefault (bpb.get 16).toNat 2
    let sectorsPerFat := orDefault (bpb.u32 36) 1
    let rootCluster := if bpb.u32 44 < 2 then 2 else bpb.u32 44
    { readBlocks, writeBlocks
      bytesPerSector := orDefault (bpb.u16 11) 512
      sectorsPerCluster := orDefault (bpb.get 13).toNat 8
      reservedSectors, fatCount, sectorsPerFat, rootCluster
      currentDirCluster := rootCluster
      dataStartSector := (reservedSectors + fatCount * sectorsPerFat % 2 ^ 32) % 2 ^ 32 }

/-! ## A device that never fails -/

/-- No sector transfer fails: reads return the sector, writes are completed. -/
structure NoFault (fs : Fat32Instance) : Prop where
  read : ∀ d s, fs.readBlocks d s = some (d.sectors s)
  write : ∀ d s b, fs.writeBlocks d s b = (true, d.write s b)

/-- The two transfer functions of a device that never fails. -/
def ramRead (d : Disk) (s : ℕ) : Option Block := some (d.sectors s)

def ramWrite (d : Disk) (s : ℕ) (b : Block) : Bool × Disk := (true, d.write s b)

/-! ## Which sectors a program writes -/

/-- The sectors after the writes of `ws`, latest first, were completed on `sectors`. -/
def replay (sectors : ℕ → Block) : List (ℕ × Block) → ℕ → Block
  | [] => sectors
  | w :: ws => Function.update (replay sectors ws) w.1 w.2

/-- `d'` is `d` after some sector writes, all of them to sectors in `S`. -/
def Writes (S : ℕ → Prop) (d d' : Disk) : Prop :=
  ∃ ws, d'.log = ws ++ d.log ∧ d'.sectors = replay d.sectors ws ∧ ∀ w ∈ ws, S w.1

theorem replay_append (sectors : ℕ → Block) (ws ws' : List (ℕ × Block)) :
    replay sectors (ws' ++ ws) = replay (replay sectors ws) ws' := by
  induction ws' with
  | nil => rfl
  | cons w ws' ih => simp only [List.cons_append, replay, ih]

/-- A sector that no write goes to keeps its contents. -/
theorem replay_of_notMem (sectors : ℕ → Block) {ws : List (ℕ × Block)} {s : ℕ}
    (h : ∀ w ∈ ws, w.1 ≠ s) : replay sectors ws s = sectors s := by
  induction ws with
  | nil => rfl
  | cons w ws ih =>
    rw [replay, Function.update_of_ne (h w (by simp)).symm]
    exact ih fun w' hw' => h w' (by simp [hw'])

namespace Writes

variable {S T : ℕ → Prop} {d d' d'' : Disk}

theorem refl (S : ℕ → Prop) (d : Disk) : Writes S d d := ⟨[], by simp [replay]⟩

theorem single {s : ℕ} (h : S s) (b : Block) : Writes S d (d.write s b) :=
  ⟨[(s, b)], by simp [Disk.write, replay, h]⟩

theorem trans (h : Writes S d d') (h' : Writes S d' d'') : Writes S d d'' := by
  obtain ⟨ws, hlog, hsec, hS⟩ := h
  obtain ⟨ws', hlog', hsec', hS'⟩ := h'
  refine ⟨ws' ++ ws, by rw [hlog', hlog, List.append_assoc], ?_, ?_⟩
  · rw [hsec', hsec, replay_append]
  · intro w hw
    rcases List.mem_append.mp hw with hw | hw
    · exact hS' w hw
    · exact hS w hw

theorem mono (h : Writes S d d') (hST : ∀ s, S s → T s) : Writes T d d' := by
  obtain ⟨ws, hlog, hsec, hS⟩ := h
  exact ⟨ws, hlog, hsec, fun w hw => hST _ (hS w hw)⟩

/-- A sector outside the written set keeps its contents. -/
theorem sectors_eq (h : Writes S d d') {s : ℕ} (hs : ¬ S s) : d'.sectors s = d.sectors s := by
  obtain ⟨ws, -, hsec, hS⟩ := h
  rw [hsec, replay_of_notMem]
  rintro w hw rfl
  exact hs (hS w hw)

end Writes

/-! ## Stopping a program after some of its writes -/

/-- What the disk holds when a program that leads from `d` to `d'` stops after some of its writes. -/
def Crash (d d' x : Disk) : Prop :=
  ∃ ws u, d'.log = ws ++ d.log ∧ u <:+ ws ∧ x = ⟨replay d.sectors u, u ++ d.log⟩

namespace Crash

variable {S T : ℕ → Prop} {d d₁ d' x : Disk}

/-- A point between two parts of a program is one where it can stop. -/
theorem mid (h : Writes S d d₁) (h' : Writes T d₁ d') : Crash d d' d₁ := by
  obtain ⟨ws, hlog, hsec, -⟩ := h
  obtain ⟨ws', hlog', -, -⟩ := h'
  refine ⟨ws' ++ ws, ws, by rw [hlog', hlog, List.append_assoc], List.suffix_append ws' ws, ?_⟩
  cases d₁
  simp only [Disk.mk.injEq]
  exact ⟨hsec, hlog⟩

/-- A program stops in its first part or in its second one. -/
theorem split (h : Writes S d d₁) (h' : Writes T d₁ d') (hx : Crash d d' x) :
    Crash d d₁ x ∨ Crash d₁ d' x := by
  obtain ⟨ws, hlog, hsec, -⟩ := h
  obtain ⟨ws', hlog', hsec', -⟩ := h'
  obtain ⟨vs, u, hvs, hu, rfl⟩ := hx
  have hv : vs = ws' ++ ws := by
    rw [hlog', hlog, ← List.append_assoc] at hvs
    exact (List.append_cancel_right hvs).symm
  subst hv
  rcases List.suffix_or_suffix_of_suffix hu (List.suffix_append ws' ws) with hu | ⟨u', rfl⟩
  · exact .inl ⟨ws, u, hlog, hu, rfl⟩
  · obtain ⟨t, ht⟩ := hu
    rw [← List.append_assoc] at ht
    refine .inr ⟨ws', u', hlog', ⟨t, List.append_cancel_right ht⟩, ?_⟩
    rw [replay_append, ← hsec, hlog, List.append_assoc]

/-- What a program never writes is the same wherever it stops. -/
theorem sectors_eq (h : Writes S d d') (hx : Crash d d' x) {s : ℕ} (hs : ¬ S s) :
    x.sectors s = d.sectors s := by
  obtain ⟨ws, hlog, -, hS⟩ := h
  obtain ⟨vs, u, hvs, hu, rfl⟩ := hx
  obtain rfl : ws = vs := List.append_cancel_right (hlog.symm.trans hvs)
  refine replay_of_notMem _ fun w hw => ?_
  rintro rfl
  exact hs (hS w (hu.subset hw))

/-- A single write happened or not. -/
theorem write {s : ℕ} {b : Block} (hx : Crash d (d.write s b) x) : x = d ∨ x = d.write s b := by
  obtain ⟨ws, u, hws, hu, rfl⟩ := hx
  have hws : ws = [(s, b)] := by
    have : [(s, b)] ++ d.log = ws ++ d.log := hws
    exact (List.append_cancel_right this).symm
  subst hws
  rcases List.suffix_cons_iff.mp hu with rfl | hu
  · exact .inr rfl
  · rw [List.suffix_nil.mp hu]
    exact .inl rfl

end Crash

end PsychWard.Fat32
