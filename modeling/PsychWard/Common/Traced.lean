import Mathlib.Data.List.Basic

/-!
# Programs that log their accesses

`Traced μ ε α` is a computation over a memory it only reads; it yields a value and the list of what
it accessed, in order. `Within P m` says that every access of `m` satisfies `P`, whatever the memory
holds. The rules follow the shape of a program, so that a bound on the accesses of a parser is
proved along its text. `DependsOn` says that a program reads nothing that it does not log.
`WithinOn P m mem` is about one memory; there the rules are equivalences, so that they say exactly
when the accesses satisfy `P`.
-/

namespace PsychWard

universe u

variable {μ : Type*} {ε : Type*} {α β : Type u}

/-- A computation over the memory `μ` that logs its accesses. -/
def Traced (μ : Type*) (ε : Type*) (α : Type u) := μ → α × List ε

namespace Traced

/-- The value that is computed from a memory. -/
def val (m : Traced μ ε α) (mem : μ) : α := (m mem).1

/-- The accesses that are made on a memory. -/
def log (m : Traced μ ε α) (mem : μ) : List ε := (m mem).2

instance : Monad (Traced μ ε) where
  pure a := fun _ => (a, [])
  bind m f := fun mem => ((f (m mem).1 mem).1, (m mem).2 ++ (f (m mem).1 mem).2)

/-- Make an access and read its value off the memory. -/
def access (e : ε) (read : μ → α) : Traced μ ε α := fun mem => (read mem, [e])

section
variable {m : Traced μ ε α} {f : α → Traced μ ε β} {mem : μ}

/-- The value of `pure` reads nothing. -/
@[simp] theorem val_pure (a : α) : (pure a : Traced μ ε α).val mem = a := rfl

/-- A sequence reads the same memory in both parts. -/
@[simp] theorem val_bind : (m >>= f).val mem = (f (m.val mem)).val mem := rfl

/-- A function applied to the result reads nothing more. -/
@[simp] theorem val_map (g : α → β) : (g <$> m).val mem = g (m.val mem) := rfl

/-- An access reads the memory by its own function. -/
@[simp] theorem val_access (e : ε) (read : μ → α) : (access e read).val mem = read mem := rfl

/-- A test outside the memory is decided before anything is read. -/
@[simp] theorem val_ite (c : Prop) [Decidable c] (m₁ m₂ : Traced μ ε α) :
    (if c then m₁ else m₂).val mem = if c then m₁.val mem else m₂.val mem := by
  split <;> rfl

end

/-- What the first part accesses, the whole accesses. -/
theorem mem_log_left {m : Traced μ ε α} {f : α → Traced μ ε β} {mem : μ} {e : ε}
    (h : e ∈ m.log mem) : e ∈ (m >>= f).log mem :=
  List.mem_append_left _ h

/-- What the second part accesses, on the value of the first, the whole accesses. -/
theorem mem_log_right {m : Traced μ ε α} {f : α → Traced μ ε β} {mem : μ} {e : ε}
    (h : e ∈ (f (m.val mem)).log mem) : e ∈ (m >>= f).log mem :=
  List.mem_append_right _ h

/-- Every access of the program satisfies `P`. -/
def Within (P : ε → Prop) (m : Traced μ ε α) : Prop := ∀ mem, ∀ e ∈ m.log mem, P e

namespace Within

variable {P : ε → Prop} {m : Traced μ ε α} {f : α → Traced μ ε β}

/-- `pure` makes no access. -/
protected theorem pure (a : α) : Within P (pure a : Traced μ ε α) := by
  intro mem e he
  cases he

/-- A single access that `P` allows. -/
protected theorem access {e : ε} (read : μ → α) (h : P e) : Within P (access e read) := by
  intro mem e' he
  rw [List.mem_singleton.mp he]
  exact h

/-- What comes second runs on a value of what comes first. -/
protected theorem bind (hm : Within P m) (hf : ∀ mem, Within P (f (m.val mem))) :
    Within P (m >>= f) := by
  intro mem e he
  rcases List.mem_append.mp he with he | he
  · exact hm mem e he
  · exact hf mem mem e he

/-- Parts within `P` compose, whatever the first one returned. -/
theorem seq (hm : Within P m) (hf : ∀ a, Within P (f a)) : Within P (m >>= f) :=
  hm.bind fun mem => hf (m.val mem)

/-- A function applied to the result makes no access. -/
protected theorem map (g : α → β) (hm : Within P m) : Within P (g <$> m) := by
  intro mem e he
  have he' : e ∈ m.log mem ++ [] := he
  rw [List.append_nil] at he'
  exact hm mem e he'

/-- Each branch is within `P` under its condition. -/
protected theorem ite {c : Prop} [Decidable c] {m₁ m₂ : Traced μ ε α} (h₁ : c → Within P m₁)
    (h₂ : ¬ c → Within P m₂) : Within P (if c then m₁ else m₂) := by
  by_cases h : c
  · rw [if_pos h]
    exact h₁ h
  · rw [if_neg h]
    exact h₂ h

end Within

/-- The program runs alike on memories that `R` relates at each of its accesses: it depends on what
it logs only. -/
def DependsOn (R : ε → μ → μ → Prop) (m : Traced μ ε α) : Prop :=
  ∀ mem mem', (∀ e ∈ m.log mem, R e mem mem') → m mem' = m mem

namespace DependsOn

variable {R : ε → μ → μ → Prop} {m : Traced μ ε α} {f : α → Traced μ ε β}

/-- `pure` is the same on every memory. -/
protected theorem pure (a : α) : DependsOn R (pure a : Traced μ ε α) := fun _ _ _ => rfl

/-- An access depends on what its own read looks at. -/
protected theorem access {e : ε} {read : μ → α}
    (h : ∀ mem mem', R e mem mem' → read mem' = read mem) : DependsOn R (access e read) := by
  intro mem mem' hlog
  exact Prod.ext (h mem mem' (hlog e (List.mem_singleton.mpr rfl))) rfl

/-- What comes second runs on the value of what comes first, which is the same. -/
protected theorem bind (hm : DependsOn R m) (hf : ∀ a, DependsOn R (f a)) :
    DependsOn R (m >>= f) := by
  intro mem mem' hlog
  have hfirst : m mem' = m mem := hm mem mem' fun e he => hlog e (mem_log_left he)
  have hsecond : f (m mem).1 mem' = f (m mem).1 mem :=
    hf _ mem mem' fun e he => hlog e (mem_log_right he)
  show ((f (m mem').1 mem').1, (m mem').2 ++ (f (m mem').1 mem').2) = _
  rw [hfirst, hsecond]
  rfl

/-- A function of a result depends on no more than the result. -/
protected theorem map (g : α → β) (hm : DependsOn R m) : DependsOn R (g <$> m) :=
  hm.bind fun a => .pure (g a)

/-- A test outside the memory adds no dependence. -/
protected theorem ite {c : Prop} [Decidable c] {m₁ m₂ : Traced μ ε α} (h₁ : DependsOn R m₁)
    (h₂ : DependsOn R m₂) : DependsOn R (if c then m₁ else m₂) := by
  split
  · exact h₁
  · exact h₂

end DependsOn

/-- Every access of the program on the memory `mem` satisfies `P`. -/
def WithinOn (P : ε → Prop) (m : Traced μ ε α) (mem : μ) : Prop := ∀ e ∈ m.log mem, P e

/-- Go on with the value, if there is one. -/
def andThen (m : Traced μ ε (Option α)) (f : α → Traced μ ε (Option β)) : Traced μ ε (Option β) := do
  match ← m with
  | none => pure none
  | some a => f a

section
variable {P : ε → Prop} {m : Traced μ ε α} {f : α → Traced μ ε β} {mem : μ}

/-- `pure` makes no access on this memory either. -/
theorem withinOn_pure (a : α) : WithinOn P (pure a : Traced μ ε α) mem := by
  intro e he
  cases he

/-- A single access is within `P` if and only if `P` allows it. -/
theorem withinOn_access {e : ε} (read : μ → α) : WithinOn P (access e read) mem ↔ P e :=
  List.forall_mem_singleton

/-- The second part is judged at the value that the first part has on this memory. -/
theorem withinOn_bind :
    WithinOn P (m >>= f) mem ↔ WithinOn P m mem ∧ WithinOn P (f (m.val mem)) mem :=
  List.forall_mem_append

/-- A function applied to the result makes no access. -/
theorem withinOn_map (g : α → β) : WithinOn P (g <$> m) mem ↔ WithinOn P m mem := by
  have h : (g <$> m).log mem = m.log mem ++ [] := rfl
  rw [WithinOn, h, List.append_nil, WithinOn]

/-- Only the branch that is taken is judged. -/
theorem withinOn_ite {c : Prop} [Decidable c] {m₁ m₂ : Traced μ ε α} :
    WithinOn P (if c then m₁ else m₂) mem ↔
      (c → WithinOn P m₁ mem) ∧ (¬ c → WithinOn P m₂ mem) := by
  by_cases h : c
  · simp [h]
  · simp [h]

/-- The value goes on only from a result. -/
theorem val_andThen {m : Traced μ ε (Option α)} {f : α → Traced μ ε (Option β)} :
    (m.andThen f).val mem = (m.val mem).bind fun a => (f a).val mem := by
  rw [andThen, val_bind]
  cases m.val mem <;> rfl

/-- The second part makes its accesses only after a result. -/
theorem withinOn_andThen {m : Traced μ ε (Option α)} {f : α → Traced μ ε (Option β)} :
    WithinOn P (m.andThen f) mem ↔
      WithinOn P m mem ∧ ∀ a, m.val mem = some a → WithinOn P (f a) mem := by
  rw [andThen, withinOn_bind]
  refine and_congr_right fun _ => ?_
  cases m.val mem with
  | none => simpa using withinOn_pure none
  | some a => simp

end

end Traced

end PsychWard
