import Mathlib.Data.List.GetD
import Mathlib.Logic.Function.Basic

/-!
# A terminal

What a terminal makes of the bytes it receives: a row of cells with a cursor, and the rows above it.
Printable characters are put down at the cursor, backspace and carriage return move it, and a line
feed goes on to a row that is blank.

`Shows` is what a reader of the screen can rely on: the cursor stands right behind a text, and
nothing stands to its right. The lemmas say how the text changes; a character is erased by stepping
back, printing a blank over it and stepping back again.
-/

namespace PsychWard

/-- The cells of the cursor's row, the column of the cursor, and the rows above, latest first. -/
structure Terminal where
  row : ℕ → UInt8
  col : ℕ
  above : List (ℕ → UInt8)

namespace Terminal

/-- The codes with a meaning. -/
def backspace : UInt8 := 8
def lineFeed : UInt8 := 10
def carriageReturn : UInt8 := 13
def blank : UInt8 := 32

/-- The characters that take a cell. -/
def Printable (c : UInt8) : Prop := 32 ≤ c ∧ c ≤ 126

instance : DecidablePred Printable := fun _ => inferInstanceAs (Decidable (_ ∧ _))

/-- A screen without text. -/
def clear : Terminal := ⟨fun _ => blank, 0, []⟩

/-- A byte arrives. -/
def feed (t : Terminal) (c : UInt8) : Terminal :=
  if c = backspace then { t with col := t.col - 1 }
  else if c = carriageReturn then { t with col := 0 }
  else if c = lineFeed then { t with row := fun _ => blank, above := t.row :: t.above }
  else if Printable c then { t with row := Function.update t.row t.col c, col := t.col + 1 }
  else t

/-- The bytes arrive one after the other. -/
def feedAll (t : Terminal) (bytes : List UInt8) : Terminal := bytes.foldl feed t

/-- The text stands in front of the cursor, and the rest of the row is blank. -/
structure Shows (t : Terminal) (text : List UInt8) : Prop where
  col : t.col = text.length
  row : ∀ j, t.row j = text.getD j blank

/-- Bytes are shown one after the other. -/
theorem feedAll_append (t : Terminal) (as bs : List UInt8) :
    t.feedAll (as ++ bs) = (t.feedAll as).feedAll bs := List.foldl_append

theorem feedAll_cons (t : Terminal) (c : UInt8) (bs : List UInt8) :
    t.feedAll (c :: bs) = (t.feed c).feedAll bs := rfl

@[simp] theorem feedAll_nil (t : Terminal) : t.feedAll [] = t := rfl

theorem printable_blank : Printable blank := by decide

/-- A printable byte goes to the column of the cursor. -/
theorem feed_printable {c : UInt8} (hc : Printable c) (t : Terminal) :
    t.feed c = { t with row := Function.update t.row t.col c, col := t.col + 1 } := by
  have hne : ∀ {a : UInt8}, a < 32 → c ≠ a := by
    rintro a ha rfl
    exact absurd hc.1 (UInt8.not_le.mpr ha)
  rw [feed, if_neg (hne (by decide)), if_neg (hne (by decide)), if_neg (hne (by decide)), if_pos hc]

/-- The cells of a text with one more character. -/
theorem cells_snoc (text : List UInt8) (c : UInt8) : (fun j => (text ++ [c]).getD j blank) =
    Function.update (fun j => text.getD j blank) text.length c := by
  funext j
  rw [Function.update_apply]
  rcases Nat.lt_trichotomy j text.length with hlt | rfl | hgt
  · rw [if_neg (by omega), List.getD_append _ _ _ _ hlt]
  · rw [if_pos rfl, List.getD_append_right _ _ _ _ (Nat.le_refl _), Nat.sub_self,
      List.getD_cons_zero]
  · have hlen : (text ++ [c]).length ≤ j := by
      rw [List.length_append, List.length_singleton]
      exact hgt
    rw [if_neg (by omega), List.getD_eq_default _ _ hlen,
      List.getD_eq_default _ _ (Nat.le_of_lt hgt)]

namespace Shows

variable {t : Terminal} {text : List UInt8}

/-- Behind the text the row is blank. -/
theorem row_eq (h : t.Shows text) : t.row = fun j => text.getD j blank := funext h.row

/-- A clear terminal shows nothing. -/
theorem clear : Terminal.clear.Shows [] := ⟨rfl, fun _ => by rw [List.getD_nil]; rfl⟩

/-- A printable character goes behind the text. -/
theorem print (h : t.Shows text) {c : UInt8} (hc : Printable c) :
    (t.feed c).Shows (text ++ [c]) := by
  rw [feed_printable hc]
  refine ⟨by rw [List.length_append, h.col, List.length_singleton], fun j => ?_⟩
  rw [h.row_eq, h.col, ← cells_snoc]

/-- Printable bytes go behind the text. -/
theorem printAll (h : t.Shows text) {cs : List UInt8} (hcs : ∀ c ∈ cs, Printable c) :
    (t.feedAll cs).Shows (text ++ cs) := by
  induction cs generalizing t text with
  | nil => rwa [List.append_nil]
  | cons c cs ih =>
    rw [feedAll_cons, List.append_cons]
    exact ih (h.print (hcs c List.mem_cons_self)) fun c' hc' => hcs c' (List.mem_cons_of_mem c hc')

/-- Stepping back, a blank and stepping back again take away the last character. -/
theorem erase {c : UInt8} (h : t.Shows (text ++ [c])) :
    (t.feedAll [backspace, blank, backspace]).Shows text := by
  have hcol : t.col = text.length + 1 := by rw [h.col, List.length_append, List.length_singleton]
  have hfeed : t.feedAll [backspace, blank, backspace] =
      { t with row := Function.update t.row text.length blank, col := text.length } := by
    show ((t.feed backspace).feed blank).feed backspace = _
    rw [feed_printable printable_blank, feed, feed, if_pos rfl, if_pos rfl, hcol]
    rfl
  rw [hfeed, h.row_eq, cells_snoc, Function.update_idem]
  refine ⟨rfl, fun j => ?_⟩
  -- the cell behind the text is blank already
  show Function.update (fun j => text.getD j blank) text.length blank j = _
  rw [Function.update_apply]
  split
  · rename_i hj
    rw [hj, List.getD_eq_default _ _ (Nat.le_refl _)]
  · rfl

/-- Carriage return and line feed lead to a blank row. -/
theorem newline (t : Terminal) : (t.feedAll [carriageReturn, lineFeed]).Shows [] :=
  ⟨rfl, fun _ => by rw [List.getD_nil]; rfl⟩

end Shows

end Terminal

end PsychWard
