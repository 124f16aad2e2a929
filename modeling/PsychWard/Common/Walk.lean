import Mathlib.Data.Fintype.Card
import Mathlib.Data.List.Nodup
import Mathlib.Data.Finset.Card
import Mathlib.Data.Fintype.EquivFin
import Mathlib.Tactic.Ring

/-!
# Walks along a partial successor function

`next : α → Option α` gives every node at most one successor, as the link field of a singly linked
structure does. `Walk next a l` says that the nodes visited from `a` are exactly the list `l` and
that the walk ends there. Such a list is unique and has no repetition, so a node whose walk ends
lies on no cycle.

`tortoiseHare` is Floyd's cycle test on `next`. It answers `false` on every walk that ends
(`tortoiseHare_of_walk`) and `true` on every walk that stays inside a finite set for ever
(`tortoiseHare_of_orbit`), in both cases within as many rounds as there are nodes.
-/

namespace PsychWard

/-- The nodes visited from `a` along `next` are `l`, and the last one has no successor. -/
inductive Walk {α : Type*} (next : α → Option α) : α → List α → Prop
  | last {a : α} (h : next a = none) : Walk next a [a]
  | cons {a b : α} {l : List α} (h : next a = some b) (t : Walk next b l) : Walk next a (a :: l)

namespace Walk

variable {α : Type*} {next next' : α → Option α} {a b : α} {l l' : List α}

theorem eq_cons (h : Walk next a l) : ∃ t, l = a :: t := by
  cases h with
  | last => exact ⟨[], rfl⟩
  | cons => exact ⟨_, rfl⟩

theorem ne_nil (h : Walk next a l) : l ≠ [] := by
  obtain ⟨t, rfl⟩ := h.eq_cons
  exact List.cons_ne_nil _ _

theorem mem_head (h : Walk next a l) : a ∈ l := by
  obtain ⟨t, rfl⟩ := h.eq_cons
  exact List.mem_cons_self

theorem length_pos (h : Walk next a l) : 0 < l.length :=
  List.length_pos_of_mem h.mem_head

/-- A node has at most one walk. -/
theorem unique (h : Walk next a l) (h' : Walk next a l') : l = l' := by
  induction h generalizing l' with
  | last hn =>
    cases h' with
    | last => rfl
    | cons hs => rw [hn] at hs; cases hs
  | cons hs _ ih =>
    cases h' with
    | last hn => rw [hn] at hs; cases hs
    | cons hs' t' =>
      obtain rfl : _ = _ := Option.some.inj (hs.symm.trans hs')
      rw [ih t']

/-- Every visited node starts a walk of its own, the rest of the list. -/
theorem of_mem (h : Walk next a l) (hb : b ∈ l) : ∃ p s, l = p ++ s ∧ Walk next b s := by
  induction h with
  | last hn =>
    obtain rfl := List.mem_singleton.mp hb
    exact ⟨[], _, rfl, .last hn⟩
  | @cons a c l hs t ih =>
    rcases List.mem_cons.mp hb with rfl | hb
    · exact ⟨[], _, rfl, .cons hs t⟩
    · obtain ⟨p, s, rfl, hw⟩ := ih hb
      exact ⟨a :: p, s, rfl, hw⟩

/-- A walk that ends never visits a node twice. -/
theorem nodup (h : Walk next a l) : l.Nodup := by
  induction h with
  | last => simp
  | @cons a b l hs t ih =>
    refine List.nodup_cons.mpr ⟨fun ha => ?_, ih⟩
    -- `a` inside its own tail would make a proper suffix of `a :: l` equal to it
    obtain ⟨p, s, hps, hw⟩ := t.of_mem ha
    have hlen := congrArg List.length (hw.unique (.cons hs t))
    rw [hps] at hlen
    simp at hlen
    omega

/-- The walk depends on `next` only at the nodes it visits. -/
theorem congr (h : Walk next a l) (heq : ∀ x ∈ l, next' x = next x) : Walk next' a l := by
  induction h with
  | last hn => exact .last ((heq _ (by simp)).trans hn)
  | cons hs _ ih =>
    exact .cons ((heq _ (by simp)).trans hs) (ih fun x hx => heq x (by simp [hx]))

/-- The successor of a visited node is visited too. -/
theorem next_mem (h : Walk next a l) {x y : α} (hx : x ∈ l) (hy : next x = some y) : y ∈ l := by
  obtain ⟨p, s, rfl, hw⟩ := h.of_mem hx
  cases hw with
  | last hn => rw [hn] at hy; cases hy
  | cons hs t =>
    obtain rfl := Option.some.inj (hs.symm.trans hy)
    simp [t.mem_head]

theorem next_getLast (h : Walk next a l) : next (l.getLast h.ne_nil) = none := by
  induction h with
  | last hn => simpa using hn
  | cons hs t ih => simpa [List.getLast_cons t.ne_nil] using ih

/-- Linking the end of a walk to the start of another appends the second to the first. -/
theorem append (h : Walk next a l) {m : List α} (hm : Walk next' b m)
    (heq : ∀ x ∈ l, next x ≠ none → next' x = next x)
    (hlink : ∀ x ∈ l, next x = none → next' x = some b) : Walk next' a (l ++ m) := by
  induction h with
  | last hn => exact .cons (hlink _ (by simp) hn) hm
  | cons hs _ ih =>
    refine .cons ((heq _ (by simp) (by simp [hs])).trans hs) (ih ?_ ?_)
    · exact fun x hx => heq x (by simp [hx])
    · exact fun x hx => hlink x (by simp [hx])

/-- The first part of a walk goes on to another end when its last node gets a successor there. -/
theorem redirect {m : List α} (h : Walk next a (l ++ m)) (hl : l ≠ [])
    (heq : ∀ x ∈ l, l.getLast? ≠ some x → next' x = next x)
    (hlink : ∀ x, l.getLast? = some x → next' x = some b) (hb : next' b = none) :
    Walk next' a (l ++ [b]) := by
  induction l generalizing a with
  | nil => exact absurd rfl hl
  | cons x l ih =>
    obtain ⟨t, ht⟩ := h.eq_cons
    obtain ⟨rfl, rfl⟩ := List.cons.inj ht
    cases l with
    | nil => exact .cons (hlink x rfl) (.last hb)
    | cons y l =>
      have hx : (x :: y :: l).getLast? = (y :: l).getLast? := List.getLast?_cons_cons
      have hnd := h.nodup
      cases h with
      | cons hs t =>
        have hne : (x :: y :: l).getLast? ≠ some x := fun hlast => by
          rw [hx] at hlast
          exact (List.nodup_cons.mp hnd).1 (List.mem_append_left _ (List.mem_of_getLast? hlast))
        refine .cons ((heq x List.mem_cons_self hne).trans hs) (ih t (List.cons_ne_nil _ _)
          (fun z hz hlast => heq z (List.mem_cons_of_mem _ hz) (hx ▸ hlast)) fun z hlast => ?_)
        exact hlink z (hx.trans hlast)

/-- Only the last visited node has no successor. -/
theorem next_eq_none_iff (h : Walk next a l) {x : α} (hx : x ∈ l) :
    next x = none ↔ x = l.getLast h.ne_nil := by
  constructor
  · intro hn
    obtain ⟨p, s, hps, hw⟩ := h.of_mem hx
    cases hw with
    | last => simp [hps]
    | cons hs => rw [hn] at hs; cases hs
  · rintro rfl
    exact h.next_getLast

theorem next_get (h : Walk next a l) {i : ℕ} (hi : i + 1 < l.length) :
    next (l.get ⟨i, by omega⟩) = some (l.get ⟨i + 1, hi⟩) := by
  induction h generalizing i with
  | last => simp at hi
  | cons hs t ih =>
    cases i with
    | zero =>
      obtain ⟨u, rfl⟩ := t.eq_cons
      simpa using hs
    | succ i => simpa using ih (by simpa using hi)

theorem next_get_last (h : Walk next a l) {i : ℕ} (hi : i + 1 = l.length) :
    next (l.get ⟨i, by omega⟩) = none := by
  have hlast := h.next_getLast
  rw [List.getLast_eq_getElem] at hlast
  have : l.length - 1 = i := by omega
  simpa only [List.get_eq_getElem, this] using hlast

/-- An orbit that stops at its position `k` is a walk. -/
theorem of_orbit {f : ℕ → α} {k : ℕ} (hf : ∀ n < k, next (f n) = some (f (n + 1)))
    (hk : next (f k) = none) : Walk next (f 0) ((List.range (k + 1)).map f) := by
  induction k generalizing f with
  | zero => exact .last hk
  | succ k ih =>
    rw [List.range_succ_eq_map, List.map_cons, List.map_map]
    exact .cons (hf 0 (Nat.succ_pos _))
      (ih (f := fun n => f (n + 1)) (fun n hn => hf (n + 1) (by omega)) hk)

theorem get_zero (h : Walk next a l) : l.get ⟨0, h.length_pos⟩ = a := by
  obtain ⟨t, rfl⟩ := h.eq_cons
  rfl

end Walk

/-! ## Floyd's cycle test -/

section TortoiseHare

variable {α : Type*} [DecidableEq α]

/-- Floyd's test from a pair of positions: the hare takes two steps a round, the tortoise one.
`none` means that the rounds ran out. -/
def tortoiseHare (next : α → Option α) : ℕ → α → α → Option Bool
  | 0, _, _ => none
  | fuel + 1, slow, fast =>
    match next fast with
    | none => some false
    | some f₁ =>
      match next f₁ with
      | none => some false
      | some f₂ =>
        match next slow with
        | none => some false
        | some s => if s = f₂ then some true else tortoiseHare next fuel s f₂

variable {next : α → Option α} {a : α} {l : List α}

private theorem tortoiseHare_index (h : Walk next a l) (fuel i : ℕ) (hi : 2 * i < l.length)
    (hfuel : l.length ≤ fuel + i) :
    tortoiseHare next fuel (l.get ⟨i, by omega⟩) (l.get ⟨2 * i, hi⟩) = some false := by
  induction fuel generalizing i with
  | zero => omega
  | succ fuel ih =>
    rw [tortoiseHare]
    by_cases h1 : 2 * i + 1 = l.length
    · rw [h.next_get_last h1]
    · rw [h.next_get (by omega)]
      by_cases h2 : 2 * i + 1 + 1 = l.length
      · simp only [h.next_get_last h2]
      · simp only [h.next_get (show 2 * i + 1 + 1 < l.length by omega),
          h.next_get (show i + 1 < l.length by omega)]
        have hne : l.get ⟨i + 1, by omega⟩ ≠ l.get ⟨2 * i + 1 + 1, by omega⟩ := by
          intro heq
          have := congrArg Fin.val (h.nodup.injective_get heq)
          simp only at this
          omega
        rw [if_neg hne]
        exact ih (i + 1) (by omega) (by omega)

/-- A walk that ends is reported free of cycles. -/
theorem tortoiseHare_of_walk (h : Walk next a l) {fuel : ℕ} (hfuel : l.length ≤ fuel) :
    tortoiseHare next fuel a a = some false := by
  have h0 := h.length_pos
  simpa only [Nat.mul_zero, h.get_zero] using
    tortoiseHare_index h fuel 0 (by omega) (by omega)

omit [DecidableEq α] in
/-- An orbit of `next` that stays in a finite set has two equal positions `k` and `2 * k`. -/
private theorem exists_meet (f : ℕ → α) (hf : ∀ n, next (f n) = some (f (n + 1)))
    (S : Finset α) (hS : ∀ n, f n ∈ S) : ∃ k, 0 < k ∧ k ≤ S.card ∧ f k = f (2 * k) := by
  obtain ⟨i, hi, j, hj, hij, hfij⟩ : ∃ i ∈ Finset.range (S.card + 1),
      ∃ j ∈ Finset.range (S.card + 1), i ≠ j ∧ f i = f j :=
    Finset.exists_ne_map_eq_of_card_lt_of_maps_to (by simp) fun n _ => hS n
  wlog hlt : i < j generalizing i j
  · exact this j hj i hi hij.symm hfij.symm (by omega)
  have hj' : j ≤ S.card := by simpa [Nat.lt_succ_iff] using hj
  -- from `i` on the orbit repeats with period `j - i`
  have hper : ∀ n, i ≤ n → f (n + (j - i)) = f n := by
    intro n hn
    induction n, hn using Nat.le_induction with
    | base => rw [show i + (j - i) = j by omega, hfij]
    | succ n _ ih =>
      have h1 := hf (n + (j - i))
      rw [ih, hf n] at h1
      rw [show n + 1 + (j - i) = n + (j - i) + 1 by omega]
      exact (Option.some.inj h1).symm
  have hmul : ∀ m n, i ≤ n → f (n + m * (j - i)) = f n := by
    intro m
    induction m with
    | zero => simp
    | succ m ih =>
      intro n hn
      rw [show n + (m + 1) * (j - i) = n + m * (j - i) + (j - i) by ring,
        hper _ (by omega), ih n hn]
  -- the first positive multiple of the period at or after `i`
  have hp : 0 < j - i := by omega
  by_cases hi0 : i = 0
  · refine ⟨j - i, hp, by omega, ?_⟩
    rw [show 2 * (j - i) = (j - i) + 1 * (j - i) by ring, hmul 1 _ (by omega)]
  · set m := (i + (j - i) - 1) / (j - i) with hm
    have hdm := Nat.div_add_mod (i + (j - i) - 1) (j - i)
    have hmod := Nat.mod_lt (i + (j - i) - 1) hp
    rw [← hm, Nat.mul_comm] at hdm
    refine ⟨m * (j - i), by omega, by omega, ?_⟩
    rw [show 2 * (m * (j - i)) = m * (j - i) + m * (j - i) by ring, hmul m _ (by omega)]

private theorem tortoiseHare_orbit (f : ℕ → α) (hf : ∀ n, next (f n) = some (f (n + 1)))
    {k : ℕ} (hk : f k = f (2 * k)) (fuel i : ℕ) (hi : i < k) (hfuel : k ≤ fuel + i) :
    tortoiseHare next fuel (f i) (f (2 * i)) = some true := by
  induction fuel generalizing i with
  | zero => omega
  | succ fuel ih =>
    simp only [tortoiseHare, hf]
    by_cases heq : f (i + 1) = f (2 * i + 1 + 1)
    · rw [if_pos heq]
    · rw [if_neg heq]
      have hne : i + 1 ≠ k := by
        rintro rfl
        exact heq (by rw [hk]; congr 1)
      exact ih (i + 1) (by omega) (by omega)

/-- An orbit that never leaves a finite set is reported as a cycle. -/
theorem tortoiseHare_of_orbit (f : ℕ → α) (hf : ∀ n, next (f n) = some (f (n + 1)))
    (S : Finset α) (hS : ∀ n, f n ∈ S) {fuel : ℕ} (hfuel : S.card ≤ fuel) :
    tortoiseHare next fuel (f 0) (f 0) = some true := by
  obtain ⟨k, hk0, hkS, hk⟩ := exists_meet f hf S hS
  exact tortoiseHare_orbit f hf hk fuel 0 hk0 (by omega)

end TortoiseHare

end PsychWard
