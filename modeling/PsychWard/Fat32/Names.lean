import PsychWard.Fat32.Device
import Mathlib.Data.Int.Notation

/-!
# File names

C strings are lists of their bytes before the terminating zero. This module has the two string
comparisons of `fat32.cpp`, the 11-byte short form of a name, the test whether a name needs long-name
entries, and the buffer in which a directory walk collects a long name.
-/

namespace PsychWard.Fat32

/-- A C string without its terminator. -/
abbrev CString := List UInt8

/-- `'.'`, `'/'`, `' '`, `'~'` and the mark of a deleted entry. -/
def dot : UInt8 := 46
def slash : UInt8 := 47
def blank : UInt8 := 32
def tilde : UInt8 := 126
def deleted : UInt8 := 0xE5

/-- `(c >= 'a' && c <= 'z') ? c - 32 : c` -/
def toUpper (c : UInt8) : UInt8 := if 97 ≤ c ∧ c ≤ 122 then c - 32 else c

/-- Comparison that folds ASCII letters, except in the last difference it reports. -/
def myStrcasecmp : CString → CString → ℤ
  | c1 :: s1, c2 :: s2 =>
    if toUpper c1 ≠ toUpper c2 then ((toUpper c1).toNat : ℤ) - (toUpper c2).toNat else myStrcasecmp s1 s2
  | s1, s2 => ((s1.headD 0).toNat : ℤ) - (s2.headD 0).toNat

def myStrcmp : CString → CString → ℤ
  | c1 :: s1, c2 :: s2 => if c1 = c2 then myStrcmp s1 s2 else (c1.toNat : ℤ) - c2.toNat
  | s1, s2 => ((s1.headD 0).toNat : ℤ) - (s2.headD 0).toNat

/-- Fill up with blanks to length `n`. -/
def padBlank (n : ℕ) (l : List UInt8) : List UInt8 := l ++ List.replicate (n - l.length) blank

/-- The 11 bytes of the short name: eight of the name, three of the extension. -/
def formatFat32Name (input : CString) : List UInt8 :=
  if myStrcmp input [dot] = 0 then padBlank 11 [dot]
  else if myStrcmp input [dot, dot] = 0 then padBlank 11 [dot, dot]
  else
    let primary := (input.takeWhile (· ≠ dot)).take 8
    let extension := ((input.dropWhile (· ≠ dot)).drop 1).take 3
    padBlank 8 (primary.map toUpper) ++ padBlank 3 (extension.map toUpper)

/-- The name that the short form stands for. -/
def reconstructName (formatted : List UInt8) : CString :=
  let extension := formatted.drop 8
  (formatted.take 8).takeWhile (· ≠ blank) ++
    if extension.headD blank ≠ blank then dot :: extension.takeWhile (· ≠ blank) else []

/-- Can the name not be kept by a short entry alone? -/
def nameNeedsLfn (name : CString) : Bool :=
  decide (12 < name.length) || decide (1 < name.count dot) ||
    decide (myStrcmp (reconstructName (formatFat32Name name)) name ≠ 0)

/-! ## Long names -/

/-- The offsets of the 13 characters in a long-name entry. -/
def lfnPositions : List (Fin 32) := [1, 3, 5, 7, 9, 14, 16, 18, 20, 22, 24, 28, 30]

/-- `lfn_buf[261]` -/
def LfnBuf := ℕ → UInt8

def LfnBuf.clear : LfnBuf := fun _ => 0

/-- The characters of a long-name entry; filler bytes are skipped. -/
def lfnChars (e : Entry) : List UInt8 :=
  (lfnPositions.map e).filter fun c => decide (c ≠ 0xFF) && decide (c ≠ 0)

/-- `(entry[0] & 0x1F)`, the number of a long-name entry, counted from 1. -/
def lfnSeq (e : Entry) : ℕ := (e 0).toNat % 32

/-- Copy the characters of a long-name entry to its place in the buffer. -/
def LfnBuf.store (buf : LfnBuf) (e : Entry) : LfnBuf :=
  if 1 ≤ lfnSeq e ∧ lfnSeq e ≤ 20 then fun k =>
    let base := (lfnSeq e - 1) * 13
    if base ≤ k ∧ k - base < (lfnChars e).length then (lfnChars e).getD (k - base) 0 else buf k
  else buf

/-- The C string at the start of the buffer. -/
def LfnBuf.str (buf : LfnBuf) : CString := ((List.range 261).map buf).takeWhile (· ≠ 0)

/-- The checksum of a short name that its long-name entries carry. -/
def lfnChecksum (shortName : List UInt8) : UInt8 :=
  shortName.foldl (fun sum c => (if sum % 2 = 1 then 0x80 else 0) + sum / 2 + c) 0

/-- The long-name entry number `seq` of `count` for `basename`. -/
def lfnEntry (basename : CString) (checksum : UInt8) (count seq : ℕ) : Entry := fun i =>
  let char (k : ℕ) : ℕ :=
    let idx := (seq - 1) * 13 + k
    if idx < basename.length then (basename.getD idx 0).toNat
    else if idx = basename.length then 0 else 0xFFFF
  if i = 0 then UInt8.ofNat (if seq = count then seq ||| 0x40 else seq)
  else if i = 11 then 0x0F
  else if i = 13 then checksum
  else
    match lfnPositions.findIdx? (fun p => p = i), lfnPositions.findIdx? (fun p => p + 1 = i) with
    | some k, _ => UInt8.ofNat (char k)
    | none, some k => UInt8.ofNat (char k / 2 ^ 8)
    | none, none => 0

/-! ## Short aliases -/

/-- The letters and digits that an alias takes over, in upper case. -/
def aliasChars (s : CString) : List UInt8 :=
  (s.map toUpper).filter fun up =>
    (decide (65 ≤ up) && decide (up ≤ 90)) || (decide (48 ≤ up) && decide (up ≤ 57))

/-- Everything before the first dot. -/
def aliasPrimary (name : CString) : List UInt8 :=
  let p := (aliasChars (name.takeWhile (· ≠ dot))).take 8
  if p = [] then [95] else p

/-- Everything behind the last dot. -/
def aliasExt (name : CString) : List UInt8 :=
  if dot ∈ name then
    (aliasChars (name.reverse.takeWhile (· ≠ dot)).reverse).take 3
  else []

/-- The decimal digits of a number. -/
def digits (n : ℕ) : List UInt8 := (Nat.toDigits 10 n).map fun c => UInt8.ofNat c.toNat

/-- The alias with number `suffix`, `BASENAME~N.EXT`; `none` when the number leaves no room. -/
def aliasCandidate (name : CString) (suffix : ℕ) : Option (List UInt8) :=
  let tailLen := 1 + (digits suffix).length
  let primary := aliasPrimary name
  let baseLen := if 8 < primary.length + tailLen then 8 - tailLen else primary.length
  if baseLen < 1 then none
  else some (padBlank 8 (primary.take baseLen ++ tilde :: digits suffix) ++
    padBlank 3 (aliasExt name))

end PsychWard.Fat32
