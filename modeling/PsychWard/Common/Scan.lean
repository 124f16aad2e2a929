import Mathlib.Data.List.Basic

/-!
# Loops over a list that can stop early

`scan f l st` runs the loop body `f` over `l` from state `st`; a body that answers `true` stops the
loop. `scan_rule` is the rule for such loops: an invariant of the elements passed so far, kept by
every pass that goes on, holds where the loop stops or at the end of the list.
-/

namespace PsychWard

variable {α σ : Type*}

/-- Run `f` over the list until it answers `true`; the answer says whether it did. -/
def scan (f : σ → α → σ × Bool) : List α → σ → σ × Bool
  | [], st => (st, false)
  | a :: l, st =>
    match f st a with
    | (st, true) => (st, true)
    | (st, false) => scan f l st

variable {f : σ → α → σ × Bool}

/-- A scan that stops at the first element sees no more. -/
theorem scan_cons_stop {a : α} {l : List α} {st st' : σ} (h : f st a = (st', true)) :
    scan f (a :: l) st = (st', true) := by
  rw [scan, h]

/-- One that does not goes on with the rest. -/
theorem scan_cons_go {a : α} {l : List α} {st st' : σ} (h : f st a = (st', false)) :
    scan f (a :: l) st = scan f l st' := by
  rw [scan, h]

/-- What lies behind the stop is not seen. -/
theorem scan_append_stop {l m : List α} {st st' : σ} (h : scan f l st = (st', true)) :
    scan f (l ++ m) st = (st', true) := by
  induction l generalizing st with
  | nil => cases h
  | cons a l ih =>
    rw [List.cons_append, scan]
    rw [scan] at h
    split at h
    · exact h
    · exact ih h

/-- A scan that did not stop goes on behind its list. -/
theorem scan_append_go {l m : List α} {st st' : σ} (h : scan f l st = (st', false)) :
    scan f (l ++ m) st = scan f m st' := by
  induction l generalizing st with
  | nil => cases h; rfl
  | cons a l ih =>
    rw [List.cons_append, scan]
    rw [scan] at h
    split at h
    · cases h
    · exact ih h

/-- A scan asks its function about the elements of the list only. -/
theorem scan_congr {g : σ → α → σ × Bool} {l : List α} (h : ∀ a ∈ l, ∀ st, g st a = f st a) (st : σ) :
    scan g l st = scan f l st := by
  induction l generalizing st with
  | nil => rfl
  | cons a l ih =>
    rw [scan, scan, h a (by simp)]
    split
    · rfl
    · exact ih (fun b hb => h b (by simp [hb])) _

/-- What holds at every element of a list behind those in front of it also holds with one more. -/
theorem forall_split_snoc {P : List α → α → Prop} {l : List α} {a : α}
    (h : ∀ l₁ b l₂, l = l₁ ++ b :: l₂ → P l₁ b) (ha : P l a) {l₁ l₂ : List α} {b : α}
    (heq : l ++ [a] = l₁ ++ b :: l₂) : P l₁ b := by
  rcases List.eq_nil_or_concat l₂ with rfl | ⟨m, x, rfl⟩
  · obtain ⟨rfl, hab⟩ := List.append_inj' heq rfl
    rwa [← List.singleton_inj.mp hab]
  · rw [List.concat_eq_append, ← List.cons_append, ← List.append_assoc] at heq
    exact h l₁ b m (List.append_inj' heq rfl).1

/-- An element splits a list without repetitions in one way only. -/
theorem split_unique {l₁ l₂ m₁ m₂ : List α} {a : α} (hnd : (l₁ ++ a :: l₂).Nodup)
    (h : l₁ ++ a :: l₂ = m₁ ++ a :: m₂) : l₁ = m₁ ∧ l₂ = m₂ := by
  rw [List.nodup_append, List.nodup_cons] at hnd
  have ha : a ∉ l₁ := fun hmem => hnd.2.2 a hmem a List.mem_cons_self rfl
  obtain ⟨h₁, -, h₂⟩ := (List.append_cons_inj_of_notMem ha hnd.2.1.1).mp h
  exact ⟨h₁, h₂⟩

/-- Where a loop ends: at an element that stops it, after elements that do not, or behind the list;
an invariant of the passed elements holds there. -/
theorem scan_rule (l : List α) (st₀ : σ) (I : List α → σ → Prop) (h0 : I [] st₀)
    (hstep : ∀ {A p B st st'}, l = A ++ p :: B → I A st → f st p = (st', false) → I (A ++ [p]) st') :
    (∃ A p B st st', l = A ++ p :: B ∧ I A st ∧ f st p = (st', true) ∧
      scan f l st₀ = (st', true)) ∨ ∃ st', I l st' ∧ scan f l st₀ = (st', false) := by
  suffices hgen : ∀ (P R : List α) (st : σ), l = P ++ R → I P st →
      (∃ A p B st₁ st', l = A ++ p :: B ∧ I A st₁ ∧ f st₁ p = (st', true) ∧
        scan f R st = (st', true)) ∨ ∃ st', I l st' ∧ scan f R st = (st', false) from
    hgen [] l st₀ rfl h0
  intro P R st hl hI
  induction R generalizing P st with
  | nil =>
    rw [List.append_nil] at hl
    exact .inr ⟨st, hl ▸ hI, rfl⟩
  | cons a R ih =>
    rcases hfa : f st a with ⟨st', b⟩
    cases b with
    | true => exact .inl ⟨P, a, R, st, st', hl, hI, hfa, scan_cons_stop hfa⟩
    | false =>
      rw [scan_cons_go hfa]
      exact ih (P ++ [a]) st' (by rw [hl, List.append_assoc]; rfl) (hstep hl hI hfa)

end PsychWard
