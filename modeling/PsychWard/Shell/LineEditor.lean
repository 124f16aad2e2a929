import PsychWard.Common.Terminal
import PsychWard.Uart.Console

/-!
# The command line

The loop of `main` in `shell.cpp` that reads a command line. Backspace takes the last character
back, the return key ends the line, and so does the 63rd character; what is not printable is
skipped. Each character that changes the line is echoed.

`typedLines` is what the keys mean: the lines they enter, and what has been typed since the last
one.
-/

namespace PsychWard.Shell

open Terminal (Printable)

/-- `cmd` and `i`. -/
structure ReadLine where
  cmd : ℕ → UInt8
  i : ℕ

/-- The loop's bound on `i`. -/
def cmdMax : ℕ := 63

theorem cmdMax_pos : 0 < cmdMax := by decide

/-- What the body of the loop does with a character: the new line, the string it prints, whether it
flushes the console, and whether it leaves the loop. -/
structure KeyDone where
  line : ReadLine
  echo : List UInt8
  flush : Bool
  ended : Bool

namespace ReadLine

variable (r : ReadLine)

/-- The string in `cmd` once the zero is put behind it. -/
def text : List UInt8 := (List.range r.i).map r.cmd

/-- The body of the loop. The driver's -1 arrives as the character 255. -/
def key (c : UInt8) : KeyDone :=
  if c = 255 then ⟨r, [], false, false⟩
  else if c = 13 ∨ c = 10 then ⟨r, [10], false, true⟩
  else if c = 127 ∨ c = 8 then
    if 0 < r.i then ⟨{ r with i := r.i - 1 }, [8, 32, 8], true, false⟩ else ⟨r, [], false, false⟩
  else if 32 ≤ c ∧ c ≤ 126 then ⟨⟨Function.update r.cmd r.i c, r.i + 1⟩, [c], true, false⟩
  else ⟨r, [], false, false⟩

end ReadLine

/-! ## What the keys mean -/

/-- The keys that enter a line. -/
def IsReturn (c : UInt8) : Prop := c = 13 ∨ c = 10

/-- The keys that take a character back. -/
def IsErase (c : UInt8) : Prop := c = 127 ∨ c = 8

instance : DecidablePred IsReturn := fun _ => inferInstanceAs (Decidable (_ ∨ _))

instance : DecidablePred IsErase := fun _ => inferInstanceAs (Decidable (_ ∨ _))

/-- A line after a key that does not enter it. -/
def editLine (line : List UInt8) (c : UInt8) : List UInt8 :=
  if IsErase c then line.dropLast else if Printable c then line ++ [c] else line

/-- The lines entered and the line begun, after a key. -/
def typeKey (s : List (List UInt8) × List UInt8) (c : UInt8) : List (List UInt8) × List UInt8 :=
  if IsReturn c then (s.1 ++ [s.2], [])
  else if (editLine s.2 c).length < cmdMax then (s.1, editLine s.2 c)
  else (s.1 ++ [editLine s.2 c], [])

/-- The lines that keys enter, and the line they have begun. -/
def typedLines (keys : List UInt8) : List (List UInt8) × List UInt8 := keys.foldl typeKey ([], [])

theorem typedLines_snoc (keys : List UInt8) (c : UInt8) :
    typedLines (keys ++ [c]) = typeKey (typedLines keys) c := by
  rw [typedLines, List.foldl_append]
  rfl

section Keys

variable {c : UInt8} {done : List (List UInt8)} {line : List UInt8}

theorem Printable.not_isReturn (h : Printable c) : ¬ IsReturn c := by
  rintro (rfl | rfl) <;> exact absurd h (by decide)

theorem Printable.not_isErase (h : Printable c) : ¬ IsErase c := by
  rintro (rfl | rfl) <;> exact absurd h (by decide)

theorem typeKey_printable (h : Printable c) (hlen : line.length + 1 < cmdMax) :
    typeKey (done, line) c = (done, line ++ [c]) := by
  have hedit : editLine line c = line ++ [c] := by
    rw [editLine, if_neg (Printable.not_isErase h), if_pos h]
  rw [typeKey, if_neg (Printable.not_isReturn h), hedit, if_pos]
  rwa [List.length_append, List.length_singleton]

/-- A key that is neither leaves the line alone. -/
theorem typeKey_skipped (hret : ¬ IsReturn c) (herase : ¬ IsErase c) (hprint : ¬ Printable c)
    {s : List (List UInt8) × List UInt8} (hlen : s.2.length < cmdMax) : typeKey s c = s := by
  rw [typeKey, if_neg hret, editLine, if_neg herase, if_neg hprint, if_pos hlen]

theorem IsErase.not_isReturn (h : IsErase c) : ¬ IsReturn c := by
  rcases h with rfl | rfl <;> decide

theorem typeKey_erase (h : IsErase c) (a : UInt8) (hlen : line.length < cmdMax) :
    typeKey (done, line ++ [a]) c = (done, line) := by
  have hedit : editLine (line ++ [a]) c = line := by rw [editLine, if_pos h, List.dropLast_concat]
  rw [typeKey, if_neg h.not_isReturn, hedit, if_pos hlen]

/-- Printable keys are appended as long as the line is not full. -/
theorem typeKeys_printable {text : List UInt8} (h : ∀ c ∈ text, Printable c)
    (hlen : line.length + text.length < cmdMax) :
    text.foldl typeKey (done, line) = (done, line ++ text) := by
  induction text generalizing line with
  | nil => rw [List.append_nil]; rfl
  | cons c text ih =>
    rw [List.length_cons] at hlen
    rw [List.foldl_cons, typeKey_printable (h c List.mem_cons_self) (by omega), ih
      (fun c' hc' => h c' (List.mem_cons_of_mem c hc'))
      (by rw [List.length_append, List.length_singleton]; omega),
      List.append_assoc, List.singleton_append]

/-- As many erasing keys as characters take a text back. -/
theorem typeKeys_erase (h : IsErase c) {text : List UInt8}
    (hlen : line.length + text.length < cmdMax) :
    (List.replicate text.length c).foldl typeKey (done, line ++ text) = (done, line) := by
  induction text using List.reverseRecOn with
  | nil => rw [List.append_nil]; rfl
  | append_singleton text a ih =>
    rw [List.length_append, List.length_singleton] at hlen ⊢
    rw [List.replicate_succ, List.foldl_cons, ← List.append_assoc, typeKey_erase h a
      (by rw [List.length_append]; omega), ih (by omega)]

end Keys

/-- A line as it is typed: with a slip that is taken back, and ended with the return key. -/
structure TypedLine where
  text : List UInt8
  slip : List UInt8
  rest : List UInt8
  erase : UInt8
  enter : UInt8
  isErase : IsErase erase
  isReturn : IsReturn enter
  text_printable : ∀ c ∈ text, Printable c
  slip_printable : ∀ c ∈ slip, Printable c
  rest_printable : ∀ c ∈ rest, Printable c
  slip_lt : text.length + slip.length < cmdMax
  rest_lt : text.length + rest.length < cmdMax

namespace TypedLine

variable (l : TypedLine)

/-- The keys that are pressed. -/
def keys : List UInt8 :=
  l.text ++ l.slip ++ List.replicate l.slip.length l.erase ++ l.rest ++ [l.enter]

/-- The line that is meant. -/
def line : List UInt8 := l.text ++ l.rest

theorem typeKeys_keys (done : List (List UInt8)) :
    l.keys.foldl typeKey (done, []) = (done ++ [l.line], []) := by
  have htext : ([] : List UInt8).length + l.text.length < cmdMax := by
    have := l.rest_lt
    rw [List.length_nil]
    omega
  rw [keys, List.foldl_append, List.foldl_append, List.foldl_append, List.foldl_append,
    typeKeys_printable l.text_printable htext, List.nil_append,
    typeKeys_printable l.slip_printable l.slip_lt, typeKeys_erase l.isErase l.slip_lt,
    typeKeys_printable l.rest_printable l.rest_lt, List.foldl_cons, List.foldl_nil, typeKey,
    if_pos l.isReturn, line]

/-- What is entered are the lines that were meant. -/
theorem typedLines_keys (ls : List TypedLine) :
    typedLines (ls.flatMap keys) = (ls.map line, []) := by
  induction ls using List.reverseRecOn with
  | nil => rfl
  | append_singleton ls l ih =>
    rw [typedLines] at ih ⊢
    rw [List.flatMap_append, List.flatMap_singleton, List.foldl_append, ih, typeKeys_keys,
      List.map_append, List.map_singleton]

end TypedLine

/-! ## The loop and what the keys mean -/

namespace ReadLine

variable (r : ReadLine) (c : UInt8)

theorem length_text : r.text.length = r.i := by rw [text, List.length_map, List.length_range]

theorem text_succ {r : ReadLine} {i : ℕ} (h : r.i = i + 1) :
    r.text = (⟨r.cmd, i⟩ : ReadLine).text ++ [r.cmd i] := by
  rw [text, text, h, List.range_succ, List.map_append, List.map_singleton]

/-- A character is stored behind the line. -/
theorem text_store : (⟨Function.update r.cmd r.i c, r.i + 1⟩ : ReadLine).text = r.text ++ [c] := by
  rw [text_succ rfl]
  refine congrArg₂ _ ?_ (congrArg (fun a => [a]) (Function.update_self r.i c r.cmd))
  refine List.map_congr_left fun j hj => Function.update_of_ne ?_ _ _
  exact (List.mem_range.mp hj).ne

/-- The body of the loop edits the line as the key says, and leaves the loop for the return key. -/
theorem key_spec : (r.key c).ended = decide (IsReturn c) ∧
    (r.key c).line.text = if IsReturn c then r.text else editLine r.text c := by
  rw [key]
  by_cases h255 : c = 255
  · subst h255
    exact ⟨rfl, rfl⟩
  rw [if_neg h255]
  by_cases hret : c = 13 ∨ c = 10
  · rw [if_pos hret, if_pos (show IsReturn c from hret)]
    exact ⟨(decide_eq_true hret).symm, rfl⟩
  have hended : false = decide (IsReturn c) := (decide_eq_false hret).symm
  rw [if_neg hret, if_neg (show ¬ IsReturn c from hret), editLine]
  -- a key that erases does nothing at the start of the line
  by_cases herase : c = 127 ∨ c = 8
  · rw [if_pos herase, if_pos (show IsErase c from herase)]
    split
    · rename_i hpos
      obtain ⟨i, hi⟩ := Nat.exists_eq_succ_of_ne_zero hpos.ne'
      refine ⟨hended, ?_⟩
      rw [text_succ hi, List.dropLast_concat]
      show (⟨r.cmd, r.i - 1⟩ : ReadLine).text = _
      rw [hi, Nat.succ_sub_one]
    · rename_i hzero
      have hi : r.i = 0 := Nat.eq_zero_of_not_pos hzero
      have htext : r.text = [] := List.eq_nil_of_length_eq_zero ((length_text r).trans hi)
      rw [htext]
      exact ⟨hended, rfl⟩
  · rw [if_neg herase, if_neg (show ¬ IsErase c from herase)]
    by_cases hprint : 32 ≤ c ∧ c ≤ 126
    · rw [if_pos hprint, if_pos (show Printable c from hprint)]
      exact ⟨hended, text_store r c⟩
    · rw [if_neg hprint, if_neg (show ¬ Printable c from hprint)]
      exact ⟨hended, rfl⟩

end ReadLine

/-! ## The lines -/

theorem length_editLine_le (line : List UInt8) (c : UInt8) :
    (editLine line c).length ≤ line.length + 1 := by
  rw [editLine]
  split
  · rw [List.length_dropLast]
    omega
  · split
    · rw [List.length_append, List.length_singleton]
    · omega

theorem editLine_printable {line : List UInt8} (h : ∀ a ∈ line, Printable a) (c : UInt8) :
    ∀ a ∈ editLine line c, Printable a := by
  intro a ha
  rw [editLine] at ha
  split at ha
  · exact h a (List.dropLast_subset line ha)
  · split at ha
    · rename_i hc
      rcases List.mem_append.mp ha with ha | ha
      · exact h a ha
      · exact List.mem_singleton.mp ha ▸ hc
    · exact h a ha

/-- A line that can be entered. -/
structure IsCommandLine (line : List UInt8) : Prop where
  length_le : line.length ≤ cmdMax
  printable : ∀ c ∈ line, Printable c

theorem typeKey_isCommandLine {s : List (List UInt8) × List UInt8} (c : UInt8)
    (hdone : ∀ line ∈ s.1, IsCommandLine line) (hline : IsCommandLine s.2)
    (hlt : s.2.length < cmdMax) :
    (∀ line ∈ (typeKey s c).1, IsCommandLine line) ∧ IsCommandLine (typeKey s c).2 ∧
      (typeKey s c).2.length < cmdMax := by
  have hsnoc : ∀ line, IsCommandLine line → ∀ l ∈ s.1 ++ [line], IsCommandLine l := by
    intro line h l hl
    rcases List.mem_append.mp hl with hl | hl
    · exact hdone l hl
    · exact List.mem_singleton.mp hl ▸ h
  have hnil : IsCommandLine [] := ⟨Nat.zero_le _, fun _ h => absurd h List.not_mem_nil⟩
  have hedit : IsCommandLine (editLine s.2 c) :=
    ⟨(length_editLine_le s.2 c).trans hlt, editLine_printable hline.printable c⟩
  rw [typeKey]
  split
  · exact ⟨hsnoc _ hline, hnil, cmdMax_pos⟩
  · split
    · rename_i hroom
      exact ⟨hdone, hedit, hroom⟩
    · exact ⟨hsnoc _ hedit, hnil, cmdMax_pos⟩

/-- Whatever is typed, what is entered has at most 63 characters, all of them printable. -/
theorem typedLines_isCommandLine (keys : List UInt8) :
    (∀ line ∈ (typedLines keys).1, IsCommandLine line) ∧ IsCommandLine (typedLines keys).2 ∧
      (typedLines keys).2.length < cmdMax := by
  induction keys using List.reverseRecOn with
  | nil =>
    exact ⟨fun _ h => absurd h List.not_mem_nil,
      ⟨Nat.zero_le _, fun _ h => absurd h List.not_mem_nil⟩, by decide⟩
  | append_singleton keys c ih =>
    rw [typedLines_snoc]
    exact typeKey_isCommandLine c ih.1 ih.2.1 ih.2.2

/-! ## The echo -/

theorem putcBytes_printable {c : UInt8} (h : Printable c) : Uart.putcBytes c = [c] := by
  rw [Uart.putcBytes, if_neg]
  rintro rfl
  exact absurd h (by decide)

theorem flatMap_putcBytes {cs : List UInt8} (h : ∀ c ∈ cs, Printable c) :
    cs.flatMap Uart.putcBytes = cs := by
  rw [List.flatMap_congr fun c hc => putcBytes_printable (h c hc), List.flatMap_singleton']

/-- The echo makes the terminal show the line as it is now; after the return key, a new row. -/
theorem ReadLine.echo_spec (r : ReadLine) (c : UInt8) {t : Terminal} {base : List UInt8}
    (h : t.Shows (base ++ r.text)) :
    (t.feedAll ((r.key c).echo.flatMap Uart.putcBytes)).Shows
      (if IsReturn c then [] else base ++ (r.key c).line.text) := by
  rw [ReadLine.key]
  by_cases h255 : c = 255
  · subst h255
    exact h
  rw [if_neg h255]
  by_cases hret : c = 13 ∨ c = 10
  · rw [if_pos hret, if_pos (show IsReturn c from hret)]
    exact Terminal.Shows.newline t
  rw [if_neg hret, if_neg (show ¬ IsReturn c from hret)]
  -- the echo of an erasing key takes the last byte off the screen, if there is one in the line
  by_cases herase : c = 127 ∨ c = 8
  · rw [if_pos herase]
    split
    · rename_i hpos
      obtain ⟨i, hi⟩ := Nat.exists_eq_succ_of_ne_zero hpos.ne'
      rw [ReadLine.text_succ hi, ← List.append_assoc] at h
      rw [hi]
      exact h.erase
    · exact h
  · rw [if_neg herase]
    by_cases hprint : 32 ≤ c ∧ c ≤ 126
    · rw [if_pos hprint]
      show (t.feedAll ([c].flatMap Uart.putcBytes)).Shows _
      rw [List.flatMap_singleton, putcBytes_printable hprint, ReadLine.text_store,
        ← List.append_assoc]
      exact h.print hprint
    · rw [if_neg hprint]
      exact h

end PsychWard.Shell
