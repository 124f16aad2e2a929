import PsychWard.Common.Program

/-!
# Programs with resources in hand

`B l s` says that the state `s` is in order when the running program has the resources `l` in hand.
`Custody B l m l'` says that `m` takes over the resources `l` and ends with those of `l'` in hand,
whatever else its caller holds. The rules follow the text of a program; a part that needs no
resources and leaves none, `Custody B [] m fun _ => []`, can stand anywhere.
-/

namespace PsychWard

universe u

namespace Program

variable {σ ε α β : Type u} {κ : Type*} {B : List κ → σ → Prop}

/-- `m` takes over `l` and ends with `l'` in hand. -/
def Custody (B : List κ → σ → Prop) (l : List κ) (m : Program σ ε α) (l' : α → List κ) : Prop :=
  ∀ rest s, B (l ++ rest) s → Ends m s fun a t => B (l' a ++ rest) t

namespace Custody

variable {l l₁ : List κ} {l' : α → List κ} {l₂ : β → List κ} {m : Program σ ε α}
  {f : α → Program σ ε β}

/-- `pure` holds what was held before. -/
protected theorem pure (a : α) : Custody B l (pure a : Program σ ε α) fun _ => l :=
  fun _ _ hs => .pure hs

/-- A returned value may carry what is held. -/
protected theorem value {a : α} (h : l' a = l) : Custody B l (pure a : Program σ ε α) l' := by
  intro rest s hs
  refine .pure ?_
  rwa [h]

/-- A program that threw returns nothing that could be lost. -/
protected theorem throw {e : ε} : Custody B l (throw e : Program σ ε α) l' := fun _ _ _ => .throw

/-- What the first part hands over is what the second part starts with. -/
protected theorem bind (hm : Custody B l m l') (hf : ∀ a, Custody B (l' a) (f a) l₂) :
    Custody B l (m >>= f) l₂ :=
  fun rest s hs => .seq (hm rest s hs) fun a t ht => hf a rest t ht

/-- What a part does not take over stays in hand. -/
protected theorem frame (hm : Custody B l m l') (k : List κ) :
    Custody B (l ++ k) m fun a => l' a ++ k := by
  intro rest s hs
  rw [List.append_assoc] at hs
  refine (hm (k ++ rest) s hs).mono fun a t ht => ?_
  rw [List.append_assoc]
  exact ht

/-- A part that needs nothing goes first, and what it brings is added to what is in hand. -/
theorem next (hm : Custody B [] m l') (hf : ∀ a, Custody B (l' a ++ l) (f a) l₂) :
    Custody B l (m >>= f) l₂ :=
  .bind (hm.frame l) hf

/-- A part that holds nothing at either end runs beside whatever is held. -/
theorem seq (hm : Custody B [] m fun _ => []) (hf : ∀ a, Custody B l (f a) l₂) :
    Custody B l (m >>= f) l₂ :=
  .next hm hf

/-- Reading the state changes no custody. -/
protected theorem get {f : σ → Program σ ε β} (hf : ∀ s, Custody B l (f s) l₂) :
    Custody B l (get >>= f) l₂ :=
  fun rest s hs => .bind (.get (hf s rest s hs))

/-- Both branches end with the same holdings. -/
protected theorem ite {c : Prop} [Decidable c] {m' : Program σ ε α} (h : c → Custody B l m l')
    (h' : ¬ c → Custody B l m' l') : Custody B l (if c then m else m') l' :=
  fun rest s hs => .ite (fun hc => h hc rest s hs) fun hc => h' hc rest s hs

/-- A guarded part gives back what it takes. -/
protected theorem onlyIf {c : Prop} [Decidable c] {m : Program σ ε PUnit}
    (h : c → Custody B l m fun _ => l) : Custody B l (onlyIf c m) fun _ => l :=
  .ite h fun _ => .pure _

/-- A loop whose body gives back what it takes. -/
protected theorem forM {γ : Type u} {g : γ → Program σ ε PUnit} {xs : List γ}
    (h : ∀ x ∈ xs, Custody B l (g x) fun _ => l) : Custody B l (forM xs g) fun _ => l := by
  induction xs with
  | nil => exact .pure _
  | cons x xs ih =>
    rw [List.forM_cons]
    exact .bind (h x List.mem_cons_self) fun _ => ih fun y hy => h y (List.mem_cons_of_mem x hy)

/-- Each turn of the loop uses up what it visits. -/
protected theorem forM_spend {γ : Type u} {g : γ → Program σ ε PUnit} {r : γ → κ} {xs : List γ}
    (h : ∀ x ∈ xs, Custody B [r x] (g x) fun _ => []) :
    Custody B (xs.map r) (forM xs g) fun _ => [] := by
  induction xs with
  | nil => exact .pure _
  | cons x xs ih =>
    rw [List.forM_cons]
    exact .bind ((h x List.mem_cons_self).frame _) fun _ =>
      ih fun y hy => h y (List.mem_cons_of_mem x hy)

end Custody

end Program

end PsychWard
