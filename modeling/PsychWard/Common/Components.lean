import Mathlib.Data.List.TakeWhile
import Mathlib.Data.Nat.Init

/-!
# Components of a path

A path is a list in which runs of a separator divide components; a component longer than the reader's
buffer is cut into pieces. `components_append` says that a path behind a separator is read on its
own, which is what makes the concatenation of paths the composition of walks.
-/

namespace PsychWard

variable {α : Type*} [DecidableEq α] (sep : α) (b : ℕ)

/-- The first piece of a path that starts without separator; `b + 1` is the room for it. -/
def component (p : List α) : List α := (p.takeWhile (· ≠ sep)).take (b + 1)

/-- The components of a path, with fuel for as many. -/
def componentsFrom : ℕ → List α → List (List α)
  | 0, _ => []
  | fuel + 1, p =>
    let q := p.dropWhile (· = sep)
    if q = [] then []
    else component sep b q :: componentsFrom fuel (q.drop (component sep b q).length)

/-- The components of a path. -/
def components (p : List α) : List (List α) := componentsFrom sep b p.length p

variable {sep b}

/-- What is left behind leading separators starts with a character of a component. -/
theorem component_pos {p : List α} (h : p.dropWhile (· = sep) ≠ []) :
    0 < (component sep b (p.dropWhile (· = sep))).length := by
  have hhead := List.head_dropWhile_not (fun x => decide (x = sep)) h
  cases hq : p.dropWhile (· = sep) with
  | nil => exact absurd hq h
  | cons a q =>
    simp only [hq, List.head_cons, decide_eq_false_iff_not] at hhead
    simp [component, hhead]

theorem drop_component_lt {p : List α} (h : p.dropWhile (· = sep) ≠ []) :
    ((p.dropWhile (· = sep)).drop
      (component sep b (p.dropWhile (· = sep))).length).length < p.length := by
  have hpos := component_pos (b := b) h
  have hle : (p.dropWhile (· = sep)).length ≤ p.length :=
    (List.dropWhile_sublist _).length_le
  have hlen : 0 < (p.dropWhile (· = sep)).length := List.length_pos_iff.mpr h
  rw [List.length_drop]
  omega

theorem componentsFrom_of_le {fuel : ℕ} {p : List α} (h : p.length ≤ fuel) :
    componentsFrom sep b fuel p = components sep b p := by
  suffices hboth : ∀ n fuel fuel' (p : List α), p.length ≤ n → p.length ≤ fuel → p.length ≤ fuel' →
      componentsFrom sep b fuel p = componentsFrom sep b fuel' p from
    hboth p.length fuel p.length p le_rfl h le_rfl
  intro n
  induction n with
  | zero =>
    intro fuel fuel' p hn _ _
    obtain rfl := List.length_eq_zero_iff.mp (Nat.le_zero.mp hn)
    cases fuel <;> cases fuel' <;> simp [componentsFrom]
  | succ n ih =>
    intro fuel fuel' p hn hf hf'
    by_cases hq : p.dropWhile (· = sep) = []
    · cases fuel <;> cases fuel' <;> simp [componentsFrom, hq]
    · have hlt := drop_component_lt (b := b) hq
      obtain ⟨k, rfl⟩ : ∃ k, fuel = k + 1 := ⟨fuel - 1, by omega⟩
      obtain ⟨k', rfl⟩ : ∃ k, fuel' = k + 1 := ⟨fuel' - 1, by omega⟩
      simp only [componentsFrom, hq, if_false]
      rw [ih k k' _ (by omega) (by omega) (by omega)]

/-- Only separators are left. -/
theorem components_eq_nil {p : List α} (h : p.dropWhile (· = sep) = []) :
    components sep b p = [] := by
  unfold components
  cases hp : p.length with
  | zero => rfl
  | succ n => simp [componentsFrom, h]

theorem components_eq_cons {p : List α} (h : p.dropWhile (· = sep) ≠ []) :
    components sep b p = component sep b (p.dropWhile (· = sep)) ::
      components sep b ((p.dropWhile (· = sep)).drop
        (component sep b (p.dropWhile (· = sep))).length) := by
  have hlt := drop_component_lt (b := b) h
  obtain ⟨k, hk⟩ : ∃ k, p.length = k + 1 := ⟨p.length - 1, by omega⟩
  rw [components, hk, componentsFrom]
  simp only [h, if_false]
  rw [componentsFrom_of_le (by omega)]

@[simp] theorem components_nil : components sep b [] = [] := rfl

@[simp] theorem components_sep_cons (p : List α) :
    components sep b (sep :: p) = components sep b p := by
  have hdrop : (sep :: p).dropWhile (· = sep) = p.dropWhile (· = sep) := by simp
  by_cases h : p.dropWhile (· = sep) = []
  · rw [components_eq_nil h, components_eq_nil (hdrop.trans h)]
  · rw [components_eq_cons h, components_eq_cons (by rw [hdrop]; exact h), hdrop]

/-- A path without its leading separators has the same components. -/
theorem components_dropWhile (p : List α) :
    components sep b (p.dropWhile (· = sep)) = components sep b p := by
  induction p with
  | nil => rfl
  | cons a p ih =>
    by_cases ha : a = sep
    · subst ha
      rw [List.dropWhile_cons_of_pos (by simp), ih, components_sep_cons]
    · rw [List.dropWhile_cons_of_neg (by simp [ha])]

/-- A path behind a separator is read on its own. -/
theorem components_append (s p : List α) :
    components sep b (s ++ sep :: p) = components sep b s ++ components sep b p := by
  induction hn : s.length using Nat.strong_induction_on generalizing s with
  | h n ih =>
    by_cases hq : s.dropWhile (· = sep) = []
    · have hall : ∀ a ∈ s, a = sep := by simpa [List.dropWhile_eq_nil_iff] using hq
      rw [components_eq_nil hq, List.nil_append, ← components_dropWhile,
        List.dropWhile_append_of_pos (by simpa using hall), components_dropWhile,
        components_sep_cons]
    · have hdrop : (s ++ sep :: p).dropWhile (· = sep) =
          s.dropWhile (· = sep) ++ sep :: p := by
        rw [List.dropWhile_append, if_neg]
        simpa using hq
      have hcomp : component sep b (s.dropWhile (· = sep) ++ sep :: p) =
          component sep b (s.dropWhile (· = sep)) := by
        rw [component, component, List.takeWhile_append]
        split
        · rename_i hall
          rw [(List.takeWhile_prefix _).eq_of_length hall, List.takeWhile_cons_of_neg (by simp),
            List.append_nil]
        · rfl
      have hle : (component sep b (s.dropWhile (· = sep))).length ≤
          (s.dropWhile (· = sep)).length :=
        ((List.take_sublist _ _).trans (List.takeWhile_sublist _)).length_le
      have hlt := drop_component_lt (b := b) hq
      rw [components_eq_cons (by rw [hdrop]; simp), hdrop, hcomp,
        List.drop_append_of_le_length hle, ih _ (by omega) _ rfl, components_eq_cons hq,
        List.cons_append]

/-- A short path without separators is one component. -/
theorem components_single {t : List α} (ht : t ≠ []) (hsep : sep ∉ t) (hlen : t.length ≤ b + 1) :
    components sep b t = [t] := by
  have hdrop : t.dropWhile (· = sep) = t := by
    cases t with
    | nil => rfl
    | cons a t => exact List.dropWhile_cons_of_neg (by simpa using fun h => hsep (by simp [h]))
  have hcomp : component sep b t = t := by
    have htake : t.takeWhile (· ≠ sep) = t :=
      List.takeWhile_eq_self_iff.mpr fun a ha => by simpa using ne_of_mem_of_not_mem ha hsep
    rw [component, htake, List.take_of_length_le hlen]
  rw [components_eq_cons (by rw [hdrop]; exact ht), hdrop, hcomp, List.drop_length, components_nil]

/-- Where no piece is longer than the buffer, the components are what splitting at the separator
leaves of the path, without the empty pieces. -/
theorem components_eq_splitOn {p : List α} (hlen : ∀ t ∈ p.splitOn sep, t.length ≤ b + 1) :
    components sep b p = (p.splitOn sep).filter (· ≠ []) := by
  induction hn : p.length using Nat.strong_induction_on generalizing p with
  | h n ih =>
    by_cases hsep : sep ∈ p
    · obtain ⟨s, t, rfl⟩ := List.append_of_mem hsep
      rw [List.splitOn_append_cons_self] at hlen ⊢
      simp only [List.length_append, List.length_cons] at hn
      have hs := ih s.length (by omega) (fun u hu => hlen u (List.mem_append_left _ hu)) rfl
      have ht := ih t.length (by omega) (fun u hu => hlen u (List.mem_append_right _ hu)) rfl
      rw [components_append, List.filter_append, hs, ht]
    · rw [List.splitOn_eq_singleton hsep] at hlen ⊢
      by_cases hp : p = []
      · subst hp
        rfl
      · rw [components_single hp hsep (hlen p (List.mem_singleton_self p))]
        simp [hp]

theorem length_le_of_mem_splitOn {p t : List α} (ht : t ∈ p.splitOn sep) :
    t.length ≤ p.length := by
  induction hn : p.length using Nat.strong_induction_on generalizing p with
  | h n ih =>
    by_cases hsep : sep ∈ p
    · obtain ⟨s, u, rfl⟩ := List.append_of_mem hsep
      rw [List.splitOn_append_cons_self] at ht
      simp only [List.length_append, List.length_cons] at hn
      rcases List.mem_append.mp ht with ht | ht
      · have := ih s.length (by omega) ht rfl
        omega
      · have := ih u.length (by omega) ht rfl
        omega
    · rw [List.splitOn_eq_singleton hsep, List.mem_singleton] at ht
      rw [ht, hn]

end PsychWard
