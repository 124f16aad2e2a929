import Mathlib.Order.Basic

/-!
# Programs with state and failure

`Program σ ε α` is a computation over the state `σ` that ends with a value or stops with an error.
`Ends m s Q` is partial correctness: if `m` started in `s` ends, its value and last state satisfy `Q`.
`Keeps R m` is the frame rule's form of it: every run of `m` relates its first and last state by `R`.
For a reflexive and transitive `R` the relation is kept by a whole program as soon as it is kept by
its primitive steps, so a frame condition of a long program needs no symbolic execution.
-/

namespace PsychWard

universe u

/-- A computation over the state `σ` that ends with an `α` or stops with an `ε`. -/
abbrev Program (σ ε : Type u) := StateT σ (Except ε)

namespace Program

/-- Run `m` if the condition holds. -/
def onlyIf {σ ε : Type u} (c : Prop) [Decidable c] (m : Program σ ε PUnit) : Program σ ε PUnit :=
  if c then m else pure ⟨⟩

variable {σ ε α β : Type u} {s : σ} {m : Program σ ε α} {f : α → Program σ ε β}

/-- If `m` started in `s` ends, its value and last state satisfy `Q`. -/
def Ends (m : Program σ ε α) (s : σ) (Q : α → σ → Prop) : Prop :=
  ∀ a t, m.run s = .ok (a, t) → Q a t

/-- `get` returns the state and leaves it. -/
theorem run_get (s : σ) : (get : Program σ ε σ).run s = .ok (s, s) := rfl

/-- Sequencing by the outcome of the first part. -/
theorem run_bind (m : Program σ ε α) (f : α → Program σ ε β) (s : σ) : (m >>= f).run s =
    match m.run s with
    | .ok (a, t) => (f a).run t
    | .error e => .error e := by
  rw [StateT.run_bind]
  cases m.run s <;> rfl

/-- A sequence goes on from the result and the state of its first part. -/
theorem run_bind_of_ok {a : α} {t : σ} (h : m.run s = .ok (a, t)) :
    (m >>= f).run s = (f a).run t := by
  rw [run_bind, h]

/-- A sequence that returned has passed through a state between its parts. -/
theorem run_bind_ok {b : β} {t : σ} (h : (m >>= f).run s = .ok (b, t)) :
    ∃ a u, m.run s = .ok (a, u) ∧ (f a).run u = .ok (b, t) := by
  rw [StateT.run_bind] at h
  cases hm : m.run s with
  | error e => rw [hm] at h; cases h
  | ok p => rw [hm] at h; exact ⟨p.1, p.2, rfl, h⟩

namespace Ends

variable {Q Q' : α → σ → Prop}

/-- `pure` returns its value in the state it was called in. -/
protected theorem pure {a : α} (h : Q a s) : Ends (pure a : Program σ ε α) s Q := by
  intro b t hrun
  cases hrun
  exact h

/-- The postcondition of the first part is that the second part reaches the given one. -/
protected theorem bind {Q : β → σ → Prop} (h : Ends m s fun a t => Ends (f a) t Q) :
    Ends (m >>= f) s Q := by
  intro b t hrun
  obtain ⟨a, u, hm, hf⟩ := run_bind_ok hrun
  exact h a u hm b t hf

/-- Sequencing through an intermediate assertion. -/
theorem seq {R : β → σ → Prop} (h : Ends m s Q) (hf : ∀ a t, Q a t → Ends (f a) t R) :
    Ends (m >>= f) s R :=
  .bind fun a t hrun => hf a t (h a t hrun)

/-- A postcondition may be weakened. -/
theorem mono (h : Ends m s Q) (hQ : ∀ a t, Q a t → Q' a t) : Ends m s Q' :=
  fun a t hrun => hQ a t (h a t hrun)

/-- Two postconditions of one program hold together. -/
protected theorem and (h : Ends m s Q) (h' : Ends m s Q') :
    Ends m s fun a t => Q a t ∧ Q' a t :=
  fun a t hrun => ⟨h a t hrun, h' a t hrun⟩

/-- `get` is judged at the state it reads. -/
protected theorem get {Q : σ → σ → Prop} (h : Q s s) : Ends (get : Program σ ε σ) s Q := by
  intro b t hrun
  cases hrun
  exact h

/-- `modify g` is judged at the changed state. -/
protected theorem modify {Q : PUnit → σ → Prop} {g : σ → σ} (h : Q ⟨⟩ (g s)) :
    Ends (modify g : Program σ ε PUnit) s Q := by
  intro b t hrun
  cases hrun
  exact h

/-- A program that threw has promised nothing. -/
protected theorem throw {e : ε} : Ends (throw e : Program σ ε α) s Q := by
  intro b t hrun
  cases hrun

/-- A branch is judged under its condition. -/
protected theorem ite {c : Prop} [Decidable c] {m' : Program σ ε α} (h : c → Ends m s Q)
    (h' : ¬ c → Ends m' s Q) : Ends (if c then m else m') s Q := by
  split
  · exact h ‹_›
  · exact h' ‹_›

/-- A guarded program is judged under its guard, the skipped one by the state alone. -/
protected theorem onlyIf {c : Prop} [Decidable c] {m : Program σ ε PUnit} {Q : PUnit → σ → Prop}
    (h : c → Ends m s Q) (h' : ¬ c → Q ⟨⟩ s) : Ends (onlyIf c m) s Q :=
  .ite h fun hc => .pure (h' hc)

/-- A loop over a list keeps an invariant that is indexed by the elements still to be visited. -/
protected theorem forM {γ : Type u} {g : γ → Program σ ε PUnit} (I : List γ → σ → Prop) {l : List γ}
    (h0 : I l s) (hstep : ∀ x xs t, I (x :: xs) t → Ends (g x) t fun _ u => I xs u) :
    Ends (forM l g) s fun _ t => I [] t := by
  induction l generalizing s with
  | nil => exact .pure h0
  | cons x xs ih =>
    rw [List.forM_cons]
    exact .bind ((hstep x xs s h0).mono fun _ t ht => ih ht)

end Ends

/-! ## Frame conditions -/

/-- A relation between the first and the last state that programs compose under. -/
structure Frame (R : σ → σ → Prop) : Prop where
  refl : ∀ s, R s s
  trans : ∀ s t u, R s t → R t u → R s u

/-- Every run of `m` that ends relates its first and its last state by `R`. -/
def Keeps (R : σ → σ → Prop) (m : Program σ ε α) : Prop := ∀ s, Ends m s fun _ t => R s t

namespace Keeps

variable {R R' : σ → σ → Prop}

/-- A frame allows the state to stay as it is. -/
protected theorem pure (hR : Frame R) (a : α) : Keeps R (pure a : Program σ ε α) :=
  fun s => .pure (hR.refl s)

/-- Steps within the frame compose. -/
protected theorem bind (hR : Frame R) (hm : Keeps R m) (hf : ∀ a, Keeps R (f a)) :
    Keeps R (m >>= f) := by
  intro s
  refine .bind ((hm s).mono fun a t ht => ?_)
  exact (hf a t).mono fun _ u hu => hR.trans s t u ht hu

/-- Reading stays within any frame. -/
protected theorem get (hR : Frame R) : Keeps R (get : Program σ ε σ) :=
  fun s => .get (hR.refl s)

/-- A change that the frame allows at every state. -/
protected theorem modify {g : σ → σ} (h : ∀ s, R s (g s)) :
    Keeps R (modify g : Program σ ε PUnit) :=
  fun s => .modify (h s)

/-- A throw keeps no promise about the state: it returns none. -/
protected theorem throw {e : ε} : Keeps R (throw e : Program σ ε α) := fun _ => .throw

/-- Both branches stay within the frame. -/
protected theorem ite {c : Prop} [Decidable c] {m' : Program σ ε α} (h : Keeps R m)
    (h' : Keeps R m') : Keeps R (if c then m else m') :=
  fun s => .ite (fun _ => h s) (fun _ => h' s)

/-- A skipped program stays within any frame. -/
protected theorem onlyIf (hR : Frame R) {c : Prop} [Decidable c] {m : Program σ ε PUnit}
    (h : Keeps R m) : Keeps R (onlyIf c m) :=
  .ite h (.pure hR _)

/-- A loop whose body stays within the frame stays within it. -/
protected theorem forM {γ : Type u} (hR : Frame R) {g : γ → Program σ ε PUnit} {l : List γ}
    (h : ∀ x ∈ l, Keeps R (g x)) : Keeps R (forM l g) := by
  induction l with
  | nil => exact Keeps.pure hR _
  | cons x xs ih =>
    rw [List.forM_cons]
    exact Keeps.bind hR (h x List.mem_cons_self)
      fun _ => ih fun y hy => h y (List.mem_cons_of_mem x hy)

/-- A program within a frame is within every wider one. -/
theorem mono (h : Keeps R m) (hR : ∀ s t, R s t → R' s t) : Keeps R' m :=
  fun s => (h s).mono fun _ t => hR s t

end Keeps

/-! ## Programs that always end -/

/-- `m` ends from every state. -/
def Total (m : Program σ ε α) : Prop := ∀ s, ∃ a t, m.run s = .ok (a, t)

namespace Total

/-- `pure` returns from every state. -/
protected theorem pure (a : α) : Total (pure a : Program σ ε α) := fun s => ⟨a, s, rfl⟩

/-- `get` returns from every state. -/
protected theorem get : Total (get : Program σ ε σ) := fun s => ⟨s, s, rfl⟩

/-- `modify` returns from every state. -/
protected theorem modify (g : σ → σ) : Total (modify g : Program σ ε PUnit) :=
  fun s => ⟨⟨⟩, g s, rfl⟩

/-- Total parts make a total sequence. -/
protected theorem bind (hm : Total m) (hf : ∀ a, Total (f a)) : Total (m >>= f) := by
  intro s
  obtain ⟨a, t, ht⟩ := hm s
  obtain ⟨b, u, hu⟩ := hf a t
  refine ⟨b, u, ?_⟩
  rw [run_bind, ht]
  exact hu

/-- Two total branches make a total program. -/
protected theorem ite {c : Prop} [Decidable c] {m' : Program σ ε α} (h : Total m)
    (h' : Total m') : Total (if c then m else m') := by
  split
  · exact h
  · exact h'

/-- A guard cannot make a total program throw. -/
protected theorem onlyIf {c : Prop} [Decidable c] {m : Program σ ε PUnit} (h : Total m) :
    Total (onlyIf c m) :=
  .ite h (.pure _)

end Total

end Program

end PsychWard
