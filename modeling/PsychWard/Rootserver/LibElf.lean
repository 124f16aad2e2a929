import Mathlib.Algebra.Group.Nat.Defs
import PsychWard.Common.Memory
import PsychWard.Common.Traced

/-!
# The ELF library

`elf_newFile` and the accessors of `libelf` as far as `spawn_process` uses them, with a log of what
they read of the image. The functions for the two classes, `elf32.c` and `elf64.c`, differ in the
layout of the structures only, so each pair is one definition over the class.

The library checks the two headers and that both header tables lie in the image. So no accessor
leaves an accepted image (`withinOn_programHeaderField`); what the program headers say about the
rest of the file is not looked at.
-/

namespace PsychWard.Rootserver

open Traced

/-- `length` bytes of the image are read from byte `offset` on. -/
structure ImageRead where
  offset : ℕ
  length : ℕ
  deriving DecidableEq

/-- The read stays in an image of `size` bytes. -/
def ImageRead.Inside (size : ℕ) (e : ImageRead) : Prop := e.offset + e.length ≤ size

instance (size : ℕ) (e : ImageRead) : Decidable (e.Inside size) :=
  inferInstanceAs (Decidable (_ ≤ _))

/-- A computation over an image, by the offset from its first byte. -/
abbrev ImageM := Traced Memory ImageRead

/-- Read at `elf_file + offset`. Addresses have 64 bits. -/
def readBytes (offset length : ℕ) : ImageM (List UInt8) :=
  access ⟨offset % 2 ^ 64, length⟩ fun image => image.bytes (offset % 2 ^ 64) length

/-- The number with the given bytes, the lowest first. -/
def littleEndian : List UInt8 → ℕ
  | [] => 0
  | b :: bs => b.toNat + 2 ^ 8 * littleEndian bs

/-- Read a number of `length` bytes. -/
def readNumber (offset length : ℕ) : ImageM ℕ := littleEndian <$> readBytes offset length

/-! ## Layout -/

/-- `ELFCLASS32` and `ELFCLASS64`. -/
inductive ElfClass
  | elf32
  | elf64
  deriving DecidableEq

/-- The sizes of `Ehdr`, `Phdr`, `Shdr` and of an address, and the offsets of the fields. -/
structure ElfLayout where
  ident : ℕ
  ehdrSize : ℕ
  phdrSize : ℕ
  shdrSize : ℕ
  wordSize : ℕ
  eEntry : ℕ
  ePhoff : ℕ
  eShoff : ℕ
  ePhentsize : ℕ
  ePhnum : ℕ
  eShentsize : ℕ
  eShnum : ℕ
  eShstrndx : ℕ
  pOffset : ℕ
  pVaddr : ℕ
  pFilesz : ℕ
  pMemsz : ℕ

/-- The sizes and the offsets of the fields, by the class. -/
def ElfClass.layout : ElfClass → ElfLayout
  | .elf32 =>
    { ident := 1, ehdrSize := 52, phdrSize := 32, shdrSize := 40, wordSize := 4,
      eEntry := 24, ePhoff := 28, eShoff := 32, ePhentsize := 42, ePhnum := 44, eShentsize := 46,
      eShnum := 48, eShstrndx := 50,
      pOffset := 4, pVaddr := 8, pFilesz := 16, pMemsz := 20 }
  | .elf64 =>
    { ident := 2, ehdrSize := 64, phdrSize := 56, shdrSize := 64, wordSize := 8,
      eEntry := 24, ePhoff := 32, eShoff := 40, ePhentsize := 54, ePhnum := 56, eShentsize := 58,
      eShnum := 60, eShstrndx := 62,
      pOffset := 8, pVaddr := 16, pFilesz := 32, pMemsz := 40 }

/-- `elf_t`. -/
structure ElfT where
  elfSize : ℕ
  elfClass : ElfClass
  deriving DecidableEq

/-- The layout of the class of the file. -/
abbrev ElfT.layout (elf : ElfT) : ElfLayout := elf.elfClass.layout

/-! ## Checks -/

/-- `elf_check_magic`. -/
def elfCheckMagic : ImageM Bool := do
  let magic ← readBytes 0 4
  pure (decide (magic = [0x7F, 0x45, 0x4C, 0x46]))

/-- The common text of `elf32_checkFile` and `elf64_checkFile`. -/
def checkFileOf (c : ElfClass) (elfSize : ℕ) : ImageM Bool := do
  if elfSize < c.layout.ehdrSize then pure false
  else
    let magic ← elfCheckMagic
    if magic = false then pure false
    else
      let ident ← readNumber 4 1
      if ident ≠ c.layout.ident then pure false
      else
        let phentsize ← readNumber c.layout.ePhentsize 2
        if phentsize ≠ c.layout.phdrSize then pure false
        else
          let shentsize ← readNumber c.layout.eShentsize 2
          if shentsize ≠ c.layout.shdrSize then pure false
          else
            let shstrndx ← readNumber c.layout.eShstrndx 2
            let shnum ← readNumber c.layout.eShnum 2
            pure (decide (shstrndx < shnum))

def elf32CheckFile : ℕ → ImageM Bool := checkFileOf .elf32

def elf64CheckFile : ℕ → ImageM Bool := checkFileOf .elf64

/-- `elf_checkFile`. -/
def elfCheckFile (elfSize : ℕ) : ImageM (Option ElfT) := do
  let res ← elf32CheckFile elfSize
  if res then pure (some ⟨elfSize, .elf32⟩)
  else
    let res ← elf64CheckFile elfSize
    if res then pure (some ⟨elfSize, .elf64⟩) else pure none

/-- The check of a header table: its end is computed in the type of the offset, 32 or 64 bits. -/
def checkTable (elf : ElfT) (offAt entsizeAt numAt : ℕ) : ImageM Bool := do
  let off ← readNumber offAt elf.layout.wordSize
  let entsize ← readNumber entsizeAt 2
  let num ← readNumber numAt 2
  let tableEnd := (off + entsize * num) % 2 ^ (8 * elf.layout.wordSize)
  pure (decide (tableEnd ≤ elf.elfSize ∧ off ≤ tableEnd))

/-- `elf_checkProgramHeaderTable`. -/
def elfCheckProgramHeaderTable (elf : ElfT) : ImageM Bool :=
  checkTable elf elf.layout.ePhoff elf.layout.ePhentsize elf.layout.ePhnum

/-- `elf_checkSectionTable`. -/
def elfCheckSectionTable (elf : ElfT) : ImageM Bool :=
  checkTable elf elf.layout.eShoff elf.layout.eShentsize elf.layout.eShnum

/-- `elf_newFile`: the image as the accessors take it, or `none` for a result below 0. -/
def elfNewFile (size : ℕ) : ImageM (Option ElfT) :=
  andThen (elfCheckFile size) fun elf => do
    let status ← elfCheckProgramHeaderTable elf
    if status = false then pure none
    else
      let status ← elfCheckSectionTable elf
      if status = false then pure none else pure (some elf)

/-! ## Accessors -/

/-- A field of the header, of which `elf32_getHeader` and `elf64_getHeader` make a copy. -/
def headerField (elf : ElfT) (fieldAt length : ℕ) : ImageM ℕ := do
  let header ← readBytes 0 elf.layout.ehdrSize
  pure (littleEndian ((header.drop fieldAt).take length))

/-- A field of entry `ph` of the program header table. -/
def programHeaderField (elf : ElfT) (fieldAt length ph : ℕ) : ImageM ℕ := do
  let phoff ← headerField elf elf.layout.ePhoff elf.layout.wordSize
  readNumber (phoff + ph * elf.layout.phdrSize + fieldAt) length

def elfGetEntryPoint (elf : ElfT) : ImageM ℕ :=
  headerField elf elf.layout.eEntry elf.layout.wordSize

def elfGetNumProgramHeaders (elf : ElfT) : ImageM ℕ := headerField elf elf.layout.ePhnum 2

def elfGetProgramHeaderType (elf : ElfT) : ℕ → ImageM ℕ := programHeaderField elf 0 4

def elfGetProgramHeaderOffset (elf : ElfT) : ℕ → ImageM ℕ :=
  programHeaderField elf elf.layout.pOffset elf.layout.wordSize

def elfGetProgramHeaderVaddr (elf : ElfT) : ℕ → ImageM ℕ :=
  programHeaderField elf elf.layout.pVaddr elf.layout.wordSize

def elfGetProgramHeaderFileSize (elf : ElfT) : ℕ → ImageM ℕ :=
  programHeaderField elf elf.layout.pFilesz elf.layout.wordSize

def elfGetProgramHeaderMemorySize (elf : ElfT) : ℕ → ImageM ℕ :=
  programHeaderField elf elf.layout.pMemsz elf.layout.wordSize

/-! ## What is read -/

variable {size offset length n ph : ℕ} {image : Memory} {elf : ElfT}

/-- Bytes are read inside the file if they end there. -/
theorem withinOn_readBytes : WithinOn (ImageRead.Inside size) (readBytes offset length) image ↔
    offset % 2 ^ 64 + length ≤ size :=
  withinOn_access _

/-- A number is read inside the file if it ends there. -/
theorem withinOn_readNumber (h : offset + length ≤ size) :
    WithinOn (ImageRead.Inside size) (readNumber offset length) image := by
  refine (withinOn_map _).mpr (withinOn_readBytes.mpr ?_)
  have hmod := Nat.mod_le offset (2 ^ 64)
  omega

/-- A field of the header lies inside a file that holds a header. -/
theorem withinOn_headerField (h : elf.layout.ehdrSize ≤ size) :
    WithinOn (ImageRead.Inside size) (headerField elf offset length) image := by
  refine withinOn_bind.mpr ⟨withinOn_readBytes.mpr ?_, withinOn_pure _⟩
  rwa [Nat.zero_mod, Nat.zero_add]

/-- The header holds the fields that are read of it. -/
theorem ElfClass.fields_le (c : ElfClass) :
    4 ≤ c.layout.ehdrSize ∧ 5 ≤ c.layout.ehdrSize ∧
    c.layout.ePhoff + c.layout.wordSize ≤ c.layout.ehdrSize ∧
    c.layout.eShoff + c.layout.wordSize ≤ c.layout.ehdrSize ∧
    c.layout.ePhentsize + 2 ≤ c.layout.ehdrSize ∧ c.layout.ePhnum + 2 ≤ c.layout.ehdrSize ∧
    c.layout.eShentsize + 2 ≤ c.layout.ehdrSize ∧ c.layout.eShnum + 2 ≤ c.layout.ehdrSize ∧
    c.layout.eShstrndx + 2 ≤ c.layout.ehdrSize := by
  cases c <;> decide

/-- The headers are small, and words have 32 or 64 bits. -/
theorem ElfClass.sizes (c : ElfClass) : c.layout.ehdrSize ≤ 64 ∧ c.layout.phdrSize ≤ 64 ∧
    2 ^ 32 ≤ 2 ^ (8 * c.layout.wordSize) := by
  cases c <;> decide

/-- No word has more than 64 bits. -/
theorem ElfClass.wordSize_le (c : ElfClass) : 2 ^ (8 * c.layout.wordSize) ≤ 2 ^ 64 := by
  cases c <;> decide

/-- A program header holds the fields that are read of it. -/
theorem ElfClass.programFields_le (c : ElfClass) : 4 ≤ c.layout.phdrSize ∧
    c.layout.pOffset + c.layout.wordSize ≤ c.layout.phdrSize ∧
    c.layout.pVaddr + c.layout.wordSize ≤ c.layout.phdrSize ∧
    c.layout.pFilesz + c.layout.wordSize ≤ c.layout.phdrSize ∧
    c.layout.pMemsz + c.layout.wordSize ≤ c.layout.phdrSize := by
  cases c <;> decide

/-- The check of a file stays inside of it. -/
theorem withinOn_checkFileOf (c : ElfClass) :
    WithinOn (ImageRead.Inside size) (checkFileOf c size) image := by
  obtain ⟨h4, h5, -, -, hphent, -, hshent, hshnum, hshstr⟩ := c.fields_le
  refine withinOn_ite.mpr ⟨fun _ => withinOn_pure _, fun hsize => ?_⟩
  have hmagic : WithinOn (ImageRead.Inside size) elfCheckMagic image :=
    withinOn_bind.mpr ⟨withinOn_readBytes.mpr (by omega), withinOn_pure _⟩
  have hread : ∀ {i k}, i + k ≤ c.layout.ehdrSize →
      WithinOn (ImageRead.Inside size) (readNumber i k) image := fun h =>
    withinOn_readNumber (by omega)
  refine withinOn_bind.mpr ⟨hmagic, withinOn_ite.mpr ⟨fun _ => withinOn_pure _, fun _ => ?_⟩⟩
  refine withinOn_bind.mpr ⟨hread h5, withinOn_ite.mpr ⟨fun _ => withinOn_pure _, fun _ => ?_⟩⟩
  refine withinOn_bind.mpr ⟨hread hphent, withinOn_ite.mpr ⟨fun _ => withinOn_pure _, fun _ => ?_⟩⟩
  refine withinOn_bind.mpr ⟨hread hshent, withinOn_ite.mpr ⟨fun _ => withinOn_pure _, fun _ => ?_⟩⟩
  exact withinOn_bind.mpr ⟨hread hshstr, withinOn_bind.mpr ⟨hread hshnum, withinOn_pure _⟩⟩

/-- So does the check of its class. -/
theorem withinOn_elfCheckFile : WithinOn (ImageRead.Inside size) (elfCheckFile size) image := by
  refine withinOn_bind.mpr ⟨withinOn_checkFileOf _, withinOn_ite.mpr ⟨fun _ => withinOn_pure _,
    fun _ => ?_⟩⟩
  exact withinOn_bind.mpr ⟨withinOn_checkFileOf _, withinOn_ite.mpr ⟨fun _ => withinOn_pure _,
    fun _ => withinOn_pure _⟩⟩

/-- What a check that passes tells. -/
theorem of_checkFileOf {c : ElfClass} (h : (checkFileOf c size).val image = true) :
    c.layout.ehdrSize ≤ size ∧
      (readNumber c.layout.ePhentsize 2).val image = c.layout.phdrSize := by
  simp only [checkFileOf, val_ite, val_bind] at h
  split_ifs at h with hsize hmagic hident hphent hshent
  · cases h
  · cases h
  · cases h
  · cases h
  · cases h
  · exact ⟨Nat.not_lt.mp hsize, not_ne_iff.mp hphent⟩

/-- What a file whose class is known has passed. -/
theorem of_elfCheckFile (h : (elfCheckFile size).val image = some elf) :
    elf.elfSize = size ∧ elf.layout.ehdrSize ≤ size ∧
      (readNumber elf.layout.ePhentsize 2).val image = elf.layout.phdrSize := by
  simp only [elfCheckFile, val_ite, val_bind] at h
  split_ifs at h with h32 h64
  · cases h
    exact ⟨rfl, of_checkFileOf h32⟩
  · cases h
    exact ⟨rfl, of_checkFileOf h64⟩
  · cases h

/-- A number of some bytes is bounded by their number. -/
theorem littleEndian_lt (l : List UInt8) : littleEndian l < 2 ^ (8 * l.length) := by
  induction l with
  | nil => exact Nat.zero_lt_one
  | cons b bs ih =>
    have hb := b.toNat_lt
    rw [littleEndian, List.length_cons, Nat.mul_succ, Nat.pow_add]
    omega

/-- A field that was read is bounded by its width. -/
theorem val_readNumber_lt : (readNumber offset length).val image < 2 ^ (8 * length) := by
  have h := littleEndian_lt (image.bytes (offset % 2 ^ 64) length)
  rwa [Memory.length_bytes] at h

/-- The copy of the header has the fields of the image. -/
theorem val_headerField (h : offset + length ≤ elf.layout.ehdrSize) :
    (headerField elf offset length).val image = (readNumber offset length).val image := by
  have hsize : elf.layout.ehdrSize ≤ 64 := elf.elfClass.sizes.1
  have hbytes : ((image.bytes 0 elf.layout.ehdrSize).drop offset).take length =
      image.bytes offset length := by
    refine List.ext_getElem ?_ fun k h1 h2 => ?_
    · rw [List.length_take, List.length_drop, Memory.length_bytes, Memory.length_bytes]
      omega
    · simp only [Memory.bytes, List.getElem_take, List.getElem_drop, List.getElem_map,
        List.getElem_range, Nat.zero_add]
  have hmod : offset % 2 ^ 64 = offset := Nat.mod_eq_of_lt (by omega)
  simp only [headerField, readNumber, readBytes, val_bind, val_map, val_access, val_pure,
    Nat.zero_mod, hbytes, hmod]

/-- The check of a table finds its end without overflow. -/
theorem of_checkTable {offAt entsizeAt numAt : ℕ}
    (h : (checkTable elf offAt entsizeAt numAt).val image = true)
    (hsize : (readNumber entsizeAt 2).val image ≤ 64) :
    (readNumber offAt elf.layout.wordSize).val image +
      (readNumber entsizeAt 2).val image * (readNumber numAt 2).val image ≤ elf.elfSize := by
  have hword : 2 ^ 32 ≤ 2 ^ (8 * elf.layout.wordSize) := elf.elfClass.sizes.2.2
  have hoff : (readNumber offAt elf.layout.wordSize).val image < 2 ^ (8 * elf.layout.wordSize) :=
    val_readNumber_lt
  have hnum : (readNumber numAt 2).val image < 2 ^ (8 * 2) := val_readNumber_lt
  simp only [checkTable, val_bind, val_pure, decide_eq_true_eq] at h
  obtain ⟨hle, hwrap⟩ := h
  generalize (readNumber offAt elf.layout.wordSize).val image = off at *
  generalize (readNumber entsizeAt 2).val image = entsize at *
  generalize (readNumber numAt 2).val image = num at *
  generalize 2 ^ (8 * elf.layout.wordSize) = W at *
  have hmul : entsize * num ≤ 64 * num := Nat.mul_le_mul_right num hsize
  rcases Nat.lt_or_ge (off + entsize * num) W with hlt | hge
  · rwa [Nat.mod_eq_of_lt hlt] at hle
  · -- an end that wrapped around would lie in front of the table
    rw [Nat.mod_eq_sub_mod hge, Nat.mod_eq_of_lt (by omega)] at hwrap
    omega

/-- What the library has checked of an image. -/
structure ElfT.Checked (elf : ElfT) (size : ℕ) (image : Memory) : Prop where
  header : elf.layout.ehdrSize ≤ size
  table : (headerField elf elf.layout.ePhoff elf.layout.wordSize).val image +
    elf.layout.phdrSize * (elfGetNumProgramHeaders elf).val image ≤ size

/-- `elf_new_file` gives out checked files alone. -/
theorem checked_of_elfNewFile (h : (elfNewFile size).val image = some elf) :
    elf.Checked size image := by
  rw [elfNewFile, val_andThen, Option.bind_eq_some_iff] at h
  obtain ⟨elf', hcheck, h⟩ := h
  simp only [val_ite, val_bind] at h
  split_ifs at h with hph hsh
  · cases h
  · cases h
  · cases h
    obtain ⟨hsize, hheader, hphent⟩ := of_elfCheckFile hcheck
    obtain ⟨-, -, hphoff, -, -, hphnum, -, -, -⟩ := elf.elfClass.fields_le
    have hphdr : elf.layout.phdrSize ≤ 64 := elf.elfClass.sizes.2.1
    have htable := of_checkTable ((Bool.not_eq_false _).mp hph) (by rwa [hphent])
    rw [hphent, hsize] at htable
    refine ⟨hheader, ?_⟩
    rwa [elfGetNumProgramHeaders, val_headerField hphoff, val_headerField hphnum]

/-- The check of an image reads nothing behind its end. -/
theorem withinOn_elfNewFile : WithinOn (ImageRead.Inside size) (elfNewFile size) image := by
  refine withinOn_andThen.mpr ⟨withinOn_elfCheckFile, fun elf h => ?_⟩
  obtain ⟨-, hheader, -⟩ := of_elfCheckFile h
  obtain ⟨-, -, hphoff, hshoff, hphent, hphnum, hshent, hshnum, -⟩ := elf.elfClass.fields_le
  have hread : ∀ {i k}, i + k ≤ elf.layout.ehdrSize →
      WithinOn (ImageRead.Inside size) (readNumber i k) image := fun h =>
    withinOn_readNumber (by omega)
  have htable : ∀ {i j k}, i + elf.layout.wordSize ≤ elf.layout.ehdrSize →
      j + 2 ≤ elf.layout.ehdrSize → k + 2 ≤ elf.layout.ehdrSize →
      WithinOn (ImageRead.Inside size) (checkTable elf i j k) image := fun hi hj hk =>
    withinOn_bind.mpr ⟨hread hi, withinOn_bind.mpr ⟨hread hj, withinOn_bind.mpr
      ⟨hread hk, withinOn_pure _⟩⟩⟩
  refine withinOn_bind.mpr ⟨htable hphoff hphent hphnum, withinOn_ite.mpr
    ⟨fun _ => withinOn_pure _, fun _ => ?_⟩⟩
  exact withinOn_bind.mpr ⟨htable hshoff hshent hshnum, withinOn_ite.mpr
    ⟨fun _ => withinOn_pure _, fun _ => withinOn_pure _⟩⟩

/-- An accessor of a program header reads nothing behind the end of an accepted image. -/
theorem withinOn_programHeaderField (h : elf.Checked size image)
    (hph : ph < (elfGetNumProgramHeaders elf).val image)
    (hfield : offset + length ≤ elf.layout.phdrSize) :
    WithinOn (ImageRead.Inside size) (programHeaderField elf offset length ph) image := by
  refine withinOn_bind.mpr ⟨withinOn_headerField h.header, withinOn_readNumber ?_⟩
  have htable := h.table
  have hmul := Nat.mul_le_mul_left elf.layout.phdrSize (Nat.succ_le_of_lt hph)
  rw [Nat.mul_succ, Nat.mul_comm] at hmul
  omega

/-- A word of a program header has at most 64 bits. -/
theorem val_programHeaderField_lt :
    (programHeaderField elf offset elf.layout.wordSize ph).val image < 2 ^ 64 := by
  have hword : 2 ^ (8 * elf.layout.wordSize) ≤ 2 ^ 64 := elf.elfClass.wordSize_le
  exact Nat.lt_of_lt_of_le val_readNumber_lt hword

end PsychWard.Rootserver
