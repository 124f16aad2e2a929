import PsychWard.Common.Walk
import Mathlib.Logic.Relation

/-!
# Forests of chained blocks

Blocks are linked into chains by a successor function. Some chains are directories: they hold
references, each with a place of its own, that name the first block of a further chain. A set of
roots owns chains directly; everything else is owned through a reference in an owned directory.

`Consistent` says that every owned chain ends and uses only used blocks, that the chains of
different owners are disjoint, and that every used block belongs to one of them. The rules below
keep it under the elementary edits of such a structure: extend a chain, allocate and free a root's
chain, attach a root to a directory and detach it. Larger edits are sequences of these.
-/

namespace PsychWard

variable {κ ι : Type*}

/-- Chained blocks with directories. -/
structure ChainForest (κ ι : Type*) where
  used : κ → Prop
  next : κ → Option κ
  /-- `refs l i c b`: read as a directory, the chain `l` has at place `i` a reference to the chain
  that starts at `c`, which is a directory when `b` holds -/
  refs : List κ → ι → κ → Bool → Prop
  /-- the block a place lies in -/
  home : ι → κ
  refs_home : ∀ {l i c b}, refs l i c b → home i ∈ l
  refs_fun : ∀ {l i c b c' b'}, refs l i c b → refs l i c' b' → c = c' ∧ b = b'

/-- Who owns a chain: a root, named by the chain itself, or a reference, named by its place. -/
inductive Owner (κ ι : Type*)
  | root (c : κ) (b : Bool)
  | ref (i : ι)

namespace ChainForest

variable {F F' : ChainForest κ ι} {X X' : κ → Bool → Prop} {o o' : Owner κ ι} {c c' d : κ}
  {b b' : Bool} {l l' : List κ} {i : ι} {x n : κ}

/-- Owner `o` owns the chain from `c`; it is a directory when `b` holds. -/
inductive Owns (F : ChainForest κ ι) (X : κ → Bool → Prop) : Owner κ ι → κ → Bool → Prop
  | root {c : κ} {b : Bool} (h : X c b) : Owns F X (.root c b) c b
  | ref {o : Owner κ ι} {d c : κ} {b : Bool} {l : List κ} {i : ι} (h : Owns F X o d true)
      (hl : Walk F.next d l) (hr : F.refs l i c b) : Owns F X (.ref i) c b

/-- The chain from `c` ends, and its blocks `l` are used. -/
def Chain (F : ChainForest κ ι) (c : κ) (l : List κ) : Prop :=
  Walk F.next c l ∧ ∀ x ∈ l, F.used x

theorem Chain.unique (h : F.Chain c l) (h' : F.Chain c l') : l = l' := h.1.unique h'.1

theorem Chain.congr (h : F.Chain c l) (hused : ∀ x ∈ l, F'.used x)
    (hnext : ∀ x ∈ l, F'.next x = F.next x) : F'.Chain c l :=
  ⟨h.1.congr hnext, hused⟩

/-- Every owned chain ends inside the used blocks, and different owners own disjoint chains. -/
structure Separated (F : ChainForest κ ι) (X : κ → Bool → Prop) : Prop where
  chain : ∀ {o c b}, F.Owns X o c b → ∃ l, F.Chain c l
  disjoint : ∀ {o o' c c' b b' l l' x}, F.Owns X o c b → F.Owns X o' c' b' → F.Chain c l →
    F.Chain c' l' → x ∈ l → x ∈ l' → o = o'

/-- The chains are separated, and every used block is owned. -/
structure Consistent (F : ChainForest κ ι) (X : κ → Bool → Prop) : Prop extends
    F.Separated X where
  covered : ∀ {x}, F.used x → ∃ o c b l, F.Owns X o c b ∧ F.Chain c l ∧ x ∈ l

/-- Ownership carries over when every directory's references do. -/
theorem Owns.lift (h : F.Owns X o c b) (hX : ∀ c b, X c b → X' c b)
    (hstep : ∀ {o d l i c b}, F.Owns X o d true → F'.Owns X' o d true → Walk F.next d l →
      F.refs l i c b → ∃ l', Walk F'.next d l' ∧ F'.refs l' i c b) : F'.Owns X' o c b := by
  induction h with
  | root h => exact .root (hX _ _ h)
  | ref hd hl hr ih =>
    obtain ⟨l', hl', hr'⟩ := hstep hd ih hl hr
    exact .ref ih hl' hr'

theorem Owns.mono (h : F.Owns X o c b) (hX : ∀ c b, X c b → X' c b) : F.Owns X' o c b :=
  h.lift hX fun _ _ hl hr => ⟨_, hl, hr⟩

namespace Separated

/-- A directory that holds a reference is the only one with a reference at that place. -/
theorem parent_unique (h : F.Separated X) (ho : F.Owns X o d true) (hl : F.Chain d l)
    (hi : F.home i ∈ l) {o' d' l'} (ho' : F.Owns X o' d' true) (hl' : Walk F.next d' l')
    (hi' : F.home i ∈ l') : o' = o := by
  obtain ⟨m, hm⟩ := h.chain ho'
  rw [hl'.unique hm.1] at hi'
  exact h.disjoint ho' ho hm hl hi' hi

/-- An owner owns one chain. -/
theorem owns_fun (h : F.Separated X) (ho : F.Owns X o c b) (ho' : F.Owns X o c' b') :
    c = c' ∧ b = b' := by
  induction ho generalizing c' b' with
  | root => cases ho'; exact ⟨rfl, rfl⟩
  | ref hd hl hr ih =>
    cases ho' with
    | ref hd' hl' hr' =>
      obtain ⟨m, hm⟩ := h.chain hd
      have hlm := hl.unique hm.1
      subst hlm
      obtain rfl := h.parent_unique hd hm (F.refs_home hr) hd' hl' (F.refs_home hr')
      obtain ⟨rfl, -⟩ := ih hd'
      obtain rfl := hl.unique hl'
      exact F.refs_fun hr hr'

/-- Owners of one start block are equal. -/
theorem owner_unique (h : F.Separated X) (ho : F.Owns X o c b) (ho' : F.Owns X o' c b') :
    o = o' := by
  obtain ⟨l, hl⟩ := h.chain ho
  exact h.disjoint ho ho' hl hl hl.1.mem_head hl.1.mem_head

/-- `Owns.lift` along separated chains. -/
theorem owns_lift (h : F.Separated X) (ho : F.Owns X o c b) (hX : ∀ c b, X c b → X' c b)
    (hstep : ∀ {o d m}, F.Owns X o d true → F.Chain d m →
      ∃ m', Walk F'.next d m' ∧ ∀ i c b, F.refs m i c b → F'.refs m' i c b) :
    F'.Owns X' o c b :=
  ho.lift hX fun hd _ hl hr => by
    obtain ⟨m, hm⟩ := h.chain hd
    obtain rfl := hl.unique hm.1
    obtain ⟨m', hm', hrefs⟩ := hstep hd hm
    exact ⟨m', hm', hrefs _ _ _ hr⟩

theorem used_of_owns (h : F.Separated X) (ho : F.Owns X o c b) : F.used c := by
  obtain ⟨l, hl⟩ := h.chain ho
  exact hl.2 _ hl.1.mem_head

end Separated

namespace Consistent

/-! ### Edits that keep the chains -/

/-- The chains stay and the owners are renamed by `ρ`. -/
theorem rename (h : F.Consistent X) (ρ : Owner κ ι → Owner κ ι)
    (hused : ∀ x, F'.used x ↔ F.used x) (hnext : ∀ x, F.used x → F'.next x = F.next x)
    (hle : ∀ {o' c b}, F'.Owns X' o' c b → ∃ o, F.Owns X o c b ∧ o' = ρ o)
    (hge : ∀ {o c b}, F.Owns X o c b → F'.Owns X' (ρ o) c b) : F'.Consistent X' := by
  have hchain : ∀ {c l}, F.Chain c l → F'.Chain c l := fun hl =>
    hl.congr (fun x hx => (hused x).mpr (hl.2 x hx)) fun x hx => hnext x (hl.2 x hx)
  have hback : ∀ {o c b l}, F.Owns X o c b → F'.Chain c l → F.Chain c l := fun ho hl => by
    obtain ⟨m, hm⟩ := h.chain ho
    rwa [← (hchain hm).unique hl]
  refine ⟨⟨fun ho => ?_, fun ho ho' hl hl' hx hx' => ?_⟩, fun hx => ?_⟩
  · obtain ⟨p, hp, -⟩ := hle ho
    exact (h.chain hp).imp fun l hl => hchain hl
  · obtain ⟨p, hp, rfl⟩ := hle ho
    obtain ⟨p', hp', rfl⟩ := hle ho'
    rw [h.disjoint hp hp' (hback hp hl) (hback hp' hl') hx hx']
  · obtain ⟨o, c, b, l, ho, hl, hxl⟩ := h.covered ((hused _).mp hx)
    exact ⟨ρ o, c, b, l, hge ho, hchain hl, hxl⟩

/-- Nothing changes but what no directory chain holds. -/
theorem frame (h : F.Consistent X) (hused : ∀ x, F'.used x ↔ F.used x)
    (hnext : ∀ x, F.used x → F'.next x = F.next x)
    (hrefs : ∀ {o d l}, F.Owns X o d true → F.Chain d l →
      ∀ i c b, F'.refs l i c b ↔ F.refs l i c b) : F'.Consistent X := by
  have hchain : ∀ {c l}, F.Chain c l → F'.Chain c l := fun hl =>
    hl.congr (fun x hx => (hused x).mpr (hl.2 x hx)) fun x hx => hnext x (hl.2 x hx)
  refine h.rename id hused hnext (fun ho => ⟨_, ?_, rfl⟩) fun ho => ?_
  · refine ho.lift (fun _ _ => id) fun _ hd hl hr => ?_
    obtain ⟨m, hm⟩ := h.chain hd
    obtain rfl := hl.unique (hchain hm).1
    exact ⟨_, hm.1, (hrefs hd hm _ _ _).mp hr⟩
  · exact h.owns_lift ho (fun _ _ => id) fun hd hm =>
      ⟨_, (hchain hm).1, fun i c b => (hrefs hd hm i c b).mpr⟩

open Classical in
/-- A new reference in a directory takes over a root's chain. The directory must
not be part of what the root owns. -/
theorem attach (h : F.Consistent X) (hX : X c b)
    (hX' : ∀ c' b', X' c' b' ↔ X c' b' ∧ ¬ (c' = c ∧ b' = b)) (ho : F.Owns X' o d true)
    (hl : F.Chain d l)
    (hused : ∀ x, F'.used x ↔ F.used x) (hnext : ∀ x, F.used x → F'.next x = F.next x)
    (hrefs : ∀ {o' d l}, F.Owns X o' d true → F.Chain d l → o' ≠ o →
      ∀ i c b, F'.refs l i c b ↔ F.refs l i c b)
    (hnew : ∀ i' c' b', F'.refs l i' c' b' ↔ F.refs l i' c' b' ∨ i' = i ∧ c' = c ∧ b' = b) :
    F'.Consistent X' := by
  have hoX : F.Owns X o d true := ho.mono fun c b hc => ((hX' c b).mp hc).1
  have hchain : ∀ {c l}, F.Chain c l → F'.Chain c l := fun hl =>
    hl.congr (fun x hx => (hused x).mpr (hl.2 x hx)) fun x hx => hnext x (hl.2 x hx)
  -- references only appear
  have hmono : ∀ {o' d' m}, F.Owns X o' d' true → F.Chain d' m → ∀ {i c b}, F.refs m i c b →
      F'.refs m i c b := by
    intro o' d' m ho' hm i c b hr
    by_cases heq : o' = o
    · subst heq
      obtain ⟨rfl, -⟩ := h.owns_fun ho' hoX
      obtain rfl := hm.unique hl
      exact (hnew _ _ _).mpr (.inl hr)
    · exact (hrefs ho' hm heq _ _ _).mpr hr
  have hlift : F'.Owns X' o d true := by
    refine ho.lift (fun _ _ => id) fun hd _ hm hr => ?_
    have hdX := hd.mono fun c b hc => ((hX' c b).mp hc).1
    obtain ⟨k, hk⟩ := h.chain hdX
    obtain rfl := hm.unique hk.1
    exact ⟨_, (hchain hk).1, hmono hdX hk hr⟩
  let ρ : Owner κ ι → Owner κ ι := fun o' => if o' = .root c b then .ref i else o'
  have hρ : ∀ j, ρ (.ref j) = .ref j := fun j => if_neg nofun
  refine h.rename ρ hused hnext (fun hr => ?_) fun hr => ?_
  · induction hr with
    | @root c' b' hc =>
      obtain ⟨hXc, hne⟩ := (hX' _ _).mp hc
      refine ⟨_, .root hXc, (if_neg fun heq => ?_).symm⟩
      injection heq with hc hb
      exact hne ⟨hc, hb⟩
    | @ref o₁ d₁ c₁ b₁ l₁ i₁ _ hm hr ih =>
      obtain ⟨o', ho', -⟩ := ih
      obtain ⟨k, hk⟩ := h.chain ho'
      obtain rfl := hm.unique (hchain hk).1
      by_cases heq : o' = o
      · subst heq
        obtain ⟨rfl, -⟩ := h.owns_fun ho' hoX
        obtain rfl := hk.unique hl
        rcases (hnew _ _ _).mp hr with hr | ⟨rfl, rfl, rfl⟩
        · exact ⟨_, .ref ho' hk.1 hr, (hρ _).symm⟩
        · exact ⟨_, .root hX, (if_pos rfl).symm⟩
      · exact ⟨_, .ref ho' hk.1 ((hrefs ho' hk heq _ _ _).mp hr), (hρ _).symm⟩
  · induction hr with
    | @root c' b' hc =>
      by_cases heq : c' = c ∧ b' = b
      · obtain ⟨rfl, rfl⟩ := heq
        rw [show ρ (.root c' b') = .ref i from if_pos rfl]
        exact .ref hlift (hchain hl).1 ((hnew _ _ _).mpr (.inr ⟨rfl, rfl, rfl⟩))
      · have hne : ρ (.root c' b') = .root c' b' :=
          if_neg fun he => heq (by injection he with hc hb; exact ⟨hc, hb⟩)
        rw [hne]
        exact .root ((hX' _ _).mpr ⟨hc, heq⟩)
    | ref hd hm hr ih =>
      obtain ⟨k, hk⟩ := h.chain hd
      obtain rfl := hm.unique hk.1
      rw [hρ]
      exact .ref ih (hchain hk).1 (hmono hd hk hr)

open Classical in
/-- The reference at place `i` is removed; what it named becomes a root. -/
theorem detach (h : F.Consistent X) (ho : F.Owns X o d true) (hl : F.Chain d l)
    (hi : F.refs l i c b) (hX' : ∀ c' b', X' c' b' ↔ X c' b' ∨ c' = c ∧ b' = b)
    (hused : ∀ x, F'.used x ↔ F.used x) (hnext : ∀ x, F.used x → F'.next x = F.next x)
    (hrefs : ∀ {o' d l}, F.Owns X o' d true → F.Chain d l → o' ≠ o →
      ∀ i c b, F'.refs l i c b ↔ F.refs l i c b)
    (hnew : ∀ i' c' b', F'.refs l i' c' b' ↔ F.refs l i' c' b' ∧ i' ≠ i) :
    F'.Consistent X' := by
  have hchain : ∀ {c l}, F.Chain c l → F'.Chain c l := fun hl =>
    hl.congr (fun x hx => (hused x).mpr (hl.2 x hx)) fun x hx => hnext x (hl.2 x hx)
  -- the references of the new forest are the old ones at the other places
  have hrefs' : ∀ {o' d' m}, F.Owns X o' d' true → F.Chain d' m → ∀ j c b,
      F'.refs m j c b ↔ F.refs m j c b ∧ j ≠ i := by
    intro o' d' m ho' hm j c b
    by_cases heq : o' = o
    · subst heq
      obtain ⟨rfl, -⟩ := h.owns_fun ho' ho
      obtain rfl := hm.unique hl
      exact hnew _ _ _
    · rw [hrefs ho' hm heq]
      refine ⟨fun hr => ⟨hr, ?_⟩, And.left⟩
      rintro rfl
      exact heq (h.parent_unique ho hl (F.refs_home hi) ho' hm.1 (F.refs_home hr))
  let ρ : Owner κ ι → Owner κ ι := fun o' => if o' = .ref i then .root c b else o'
  have hρ : ∀ c b, ρ (.root c b) = .root c b := fun c b => if_neg nofun
  have hρi : ∀ {j}, j ≠ i → ρ (.ref j) = .ref j := fun hj =>
    if_neg fun heq => hj (by injection heq)
  refine h.rename ρ hused hnext (fun hr => ?_) fun hr => ?_
  · induction hr with
    | root hc =>
      rcases (hX' _ _).mp hc with hc | ⟨rfl, rfl⟩
      · exact ⟨_, .root hc, (hρ _ _).symm⟩
      · exact ⟨_, .ref ho hl.1 hi, (if_pos rfl).symm⟩
    | ref _ hm hr ih =>
      obtain ⟨o', ho', -⟩ := ih
      obtain ⟨k, hk⟩ := h.chain ho'
      obtain rfl := hm.unique (hchain hk).1
      obtain ⟨hr, hj⟩ := (hrefs' ho' hk _ _ _).mp hr
      exact ⟨_, .ref ho' hk.1 hr, (hρi hj).symm⟩
  · induction hr with
    | root hc =>
      rw [hρ]
      exact .root ((hX' _ _).mpr (.inl hc))
    | @ref o₁ d₁ c₁ b₁ l₁ j hd hm hr ih =>
      obtain ⟨k, hk⟩ := h.chain hd
      obtain rfl := hm.unique hk.1
      by_cases hj : j = i
      · subst hj
        obtain ⟨rfl, rfl⟩ := h.owns_fun (.ref hd hm hr) (.ref ho hl.1 hi)
        rw [show ρ (.ref j) = .root c₁ b₁ from if_pos rfl]
        exact .root ((hX' _ _).mpr (.inr ⟨rfl, rfl⟩))
      · rw [hρi hj]
        exact .ref ih (hchain hk).1 ((hrefs' hd hk _ _ _).mpr ⟨hr, hj⟩)

/-- `o'` is a reference in a directory of `o`. -/
def Parent (F : ChainForest κ ι) (X : κ → Bool → Prop) (o o' : Owner κ ι) : Prop :=
  ∃ d l i c b, F.Owns X o d true ∧ Walk F.next d l ∧ F.refs l i c b ∧ o' = .ref i

/-- No owner lies below itself. -/
theorem acc_parent (h : F.Consistent X) (ho : F.Owns X o c b) : Acc (Parent F X) o := by
  induction ho with
  | root =>
    refine ⟨_, fun o' hp => ?_⟩
    obtain ⟨d, l, i, c, b, -, -, -, heq⟩ := hp
    cases heq
  | ref hd hl hr ih =>
    refine ⟨_, fun o' hp => ?_⟩
    obtain ⟨d', l', i', c', b', hd', hl', hr', heq⟩ := hp
    injection heq with hi
    subst hi
    obtain ⟨m, hm⟩ := h.chain hd
    obtain rfl := hl.unique hm.1
    rwa [h.parent_unique hd hm (F.refs_home hr) hd' hl' (F.refs_home hr')]

theorem not_transGen_parent_self (h : F.Consistent X) (ho : F.Owns X o c b) :
    ¬ Relation.TransGen (Parent F X) o o := by
  have hacc : Acc (Relation.TransGen (Parent F X)) o := (h.acc_parent ho).transGen
  induction hacc with
  | intro o _ ih => exact fun hself => ih o hself ho hself

/-- The directory a reference is removed from keeps its owner. -/
theorem detach_owns (h : F.Consistent X) (ho : F.Owns X o d true) (hl : F.Chain d l)
    (hi : F.refs l i c b) (hnext : ∀ x, F.used x → F'.next x = F.next x)
    (hrefs : ∀ {o' d l}, F.Owns X o' d true → F.Chain d l → o' ≠ o →
      ∀ i c b, F'.refs l i c b ↔ F.refs l i c b)
    (hnew : ∀ i' c' b', F'.refs l i' c' b' ↔ F.refs l i' c' b' ∧ i' ≠ i) :
    F'.Owns X o d true := by
  -- along the way to `o` the reference at `i` is never used
  have hgen : ∀ {o' c' b'}, F.Owns X o' c' b' →
      ¬ Relation.ReflTransGen (Parent F X) (.ref i) o' → F'.Owns X o' c' b' := by
    intro o' c' b' ho'
    induction ho' with
    | root hc => exact fun _ => .root hc
    | @ref o₁ d₁ c₁ b₁ l₁ j hd hm hr ih =>
      intro hbelow
      have hstep : Parent F X o₁ (.ref j) := ⟨_, _, _, _, _, hd, hm, hr, rfl⟩
      have hj : j ≠ i := fun heq => hbelow (heq ▸ .refl)
      obtain ⟨k, hk⟩ := h.chain hd
      obtain rfl := hm.unique hk.1
      refine .ref (ih fun hr' => hbelow (hr'.tail hstep))
        (hk.1.congr fun x hx => hnext x (hk.2 x hx)) ?_
      by_cases heq : o₁ = o
      · subst heq
        obtain ⟨rfl, -⟩ := h.owns_fun hd ho
        obtain rfl := hk.unique hl
        exact (hnew _ _ _).mpr ⟨hr, hj⟩
      · exact (hrefs hd hk heq _ _ _).mpr hr
  refine hgen ho fun hbelow => ?_
  have hparent : Parent F X o (.ref i) := ⟨_, _, _, _, _, ho, hl.1, hi, rfl⟩
  exact h.not_transGen_parent_self (.ref ho hl.1 hi) (.tail' hbelow hparent)

/-! ### Edits of the chains -/

/-- A chain of unused blocks becomes a root. -/
theorem alloc (h : F.Consistent X) (hn : ∀ x ∈ l, ¬ F.used x) (hl : Walk F'.next n l)
    (hX' : ∀ c b', X' c b' ↔ X c b' ∨ c = n ∧ b' = b)
    (hused : ∀ x, F'.used x ↔ F.used x ∨ x ∈ l) (hnext : ∀ x, F.used x → F'.next x = F.next x)
    (hrefs : ∀ {o d l}, F.Owns X o d true → F.Chain d l →
      ∀ i c b, F'.refs l i c b ↔ F.refs l i c b)
    (hempty : b = true → ∀ i c b, ¬ F'.refs l i c b) : F'.Consistent X' := by
  have hchain : ∀ {c l}, F.Chain c l → F'.Chain c l := fun hl =>
    hl.congr (fun x hx => (hused x).mpr (.inl (hl.2 x hx))) fun x hx => hnext x (hl.2 x hx)
  have hchainn : F'.Chain n l := ⟨hl, fun x hx => (hused x).mpr (.inr hx)⟩
  -- the new forest has the old owners and the new root
  have hle : ∀ {o c b'}, F'.Owns X' o c b' → F.Owns X o c b' ∨ o = .root n b ∧ c = n ∧ b' = b := by
    intro o c b' ho
    induction ho with
    | root hc =>
      rcases (hX' _ _).mp hc with hc | ⟨rfl, rfl⟩
      · exact .inl (.root hc)
      · exact .inr ⟨rfl, rfl, rfl⟩
    | ref _ hm hr ih =>
      rcases ih with ho | ⟨-, rfl, hb⟩
      · obtain ⟨k, hk⟩ := h.chain ho
        obtain rfl := hm.unique (hchain hk).1
        exact .inl (.ref ho hk.1 ((hrefs ho hk _ _ _).mp hr))
      · obtain rfl := hm.unique hl
        exact absurd hr (hempty hb.symm _ _ _)
  have hge : ∀ {o c b'}, F.Owns X o c b' → F'.Owns X' o c b' := fun ho =>
    h.owns_lift ho (fun c b' hc => (hX' c b').mpr (.inl hc)) fun hd hm =>
      ⟨_, (hchain hm).1, fun i c b => (hrefs hd hm i c b).mpr⟩
  have hback : ∀ {o c b m}, F.Owns X o c b → F'.Chain c m → F.Chain c m := fun ho hm => by
    obtain ⟨k, hk⟩ := h.chain ho
    rwa [← (hchain hk).unique hm]
  refine ⟨⟨fun ho => ?_, fun ho ho' hm hm' hx hx' => ?_⟩, fun hx => ?_⟩
  · rcases hle ho with ho | ⟨-, rfl, -⟩
    · exact (h.chain ho).imp fun l hl => hchain hl
    · exact ⟨_, hchainn⟩
  · rcases hle ho with ho | ⟨rfl, rfl, -⟩ <;> rcases hle ho' with ho' | ⟨rfl, rfl, -⟩
    · exact h.disjoint ho ho' (hback ho hm) (hback ho' hm') hx hx'
    · obtain rfl := hm'.unique hchainn
      exact absurd ((hback ho hm).2 _ hx) (hn _ hx')
    · obtain rfl := hm.unique hchainn
      exact absurd ((hback ho' hm').2 _ hx') (hn _ hx)
    · rfl
  · rcases (hused _).mp hx with hx | hx
    · obtain ⟨o, c, b', m, ho, hm, hxm⟩ := h.covered hx
      exact ⟨o, c, b', m, hge ho, hchain hm, hxm⟩
    · exact ⟨_, _, _, _, .root ((hX' _ _).mpr (.inr ⟨rfl, rfl⟩)), hchainn, hx⟩

/-- An unused block is linked to the end of an owned chain. -/
theorem extend (h : F.Consistent X) (ho : F.Owns X o c b) (hl : F.Chain c l) (hn : ¬ F.used n)
    (hused : ∀ x, F'.used x ↔ F.used x ∨ x = n)
    (hnext : ∀ x, F.used x → (x ∈ l → F.next x ≠ none) → F'.next x = F.next x)
    (hlink : ∀ x ∈ l, F.next x = none → F'.next x = some n) (hend : F'.next n = none)
    (hrefs : ∀ {o' d m}, F.Owns X o' d true → F.Chain d m → o' ≠ o →
      ∀ i c b, F'.refs m i c b ↔ F.refs m i c b)
    (hsame : b = true → ∀ i c b, F'.refs (l ++ [n]) i c b ↔ F.refs l i c b) :
    F'.Consistent X := by
  have hext : F'.Chain c (l ++ [n]) := by
    refine ⟨hl.1.append (.last hend) (fun x hx hne => hnext x (hl.2 x hx) fun _ => hne) hlink, ?_⟩
    intro x hx
    rcases List.mem_append.mp hx with hx | hx
    · exact (hused x).mpr (.inl (hl.2 x hx))
    · exact (hused x).mpr (.inr (List.mem_singleton.mp hx))
  -- the chains of the other owners do not meet `l`
  have hother : ∀ {o' c' b' m}, F.Owns X o' c' b' → o' ≠ o → F.Chain c' m → F'.Chain c' m := by
    intro o' c' b' m ho' hne hm
    refine hm.congr (fun x hx => (hused x).mpr (.inl (hm.2 x hx))) fun x hx => ?_
    exact hnext x (hm.2 x hx) fun hxl => absurd (h.disjoint ho' ho hm hl hx hxl) hne
  have hchain : ∀ {o' c' b'}, F.Owns X o' c' b' → ∃ m, F'.Chain c' m ∧
      ((o' = o ∧ c' = c ∧ b' = b ∧ m = l ++ [n]) ∨ (o' ≠ o ∧ F.Chain c' m)) := by
    intro o' c' b' ho'
    by_cases heq : o' = o
    · subst heq
      obtain ⟨rfl, rfl⟩ := h.owns_fun ho' ho
      exact ⟨_, hext, .inl ⟨rfl, rfl, rfl, rfl⟩⟩
    · obtain ⟨m, hm⟩ := h.chain ho'
      exact ⟨m, hother ho' heq hm, .inr ⟨heq, hm⟩⟩
  have hle : ∀ {o' c' b'}, F'.Owns X o' c' b' → F.Owns X o' c' b' := by
    refine fun ho' => ho'.lift (fun _ _ => id) fun _ hd hm hr => ?_
    obtain ⟨m, hm', hcase⟩ := hchain hd
    obtain rfl := hm.unique hm'.1
    rcases hcase with ⟨rfl, rfl, rfl, rfl⟩ | ⟨hne, hmF⟩
    · exact ⟨l, hl.1, (hsame rfl _ _ _).mp hr⟩
    · exact ⟨_, hmF.1, (hrefs hd hmF hne _ _ _).mp hr⟩
  have hge : ∀ {o' c' b'}, F.Owns X o' c' b' → F'.Owns X o' c' b' := by
    refine fun ho' => h.owns_lift ho' (fun _ _ => id) fun hd hm => ?_
    obtain ⟨m', hm', ⟨rfl, rfl, rfl, rfl⟩ | ⟨hne, hmF⟩⟩ := hchain hd
    · obtain rfl := hm.unique hl
      exact ⟨_, hm'.1, fun i c b => (hsame rfl i c b).mpr⟩
    · obtain rfl := hm.unique hmF
      exact ⟨_, hm'.1, fun i c b => (hrefs hd hm hne i c b).mpr⟩
  refine ⟨⟨fun ho' => (hchain (hle ho')).imp fun m hm => hm.1,
    fun {o₁ o₂ c₁ c₂ b₁ b₂ l₁ l₂ x} ho₁ ho₂ hl₁ hl₂ hx₁ hx₂ => ?_⟩, fun hx => ?_⟩
  · obtain ⟨m₁, hm₁, h₁⟩ := hchain (hle ho₁)
    obtain ⟨m₂, hm₂, h₂⟩ := hchain (hle ho₂)
    obtain rfl := hl₁.unique hm₁
    obtain rfl := hl₂.unique hm₂
    rcases h₁ with ⟨rfl, rfl, rfl, rfl⟩ | ⟨hne₁, hF₁⟩ <;>
      rcases h₂ with ⟨rfl, rfl, rfl, rfl⟩ | ⟨hne₂, hF₂⟩
    · rfl
    · rcases List.mem_append.mp hx₁ with hx₁ | hx₁
      · exact h.disjoint (hle ho₁) (hle ho₂) hl hF₂ hx₁ hx₂
      · obtain rfl := List.mem_singleton.mp hx₁
        exact absurd (hF₂.2 _ hx₂) hn
    · rcases List.mem_append.mp hx₂ with hx₂ | hx₂
      · exact h.disjoint (hle ho₁) (hle ho₂) hF₁ hl hx₁ hx₂
      · obtain rfl := List.mem_singleton.mp hx₂
        exact absurd (hF₁.2 _ hx₁) hn
    · exact h.disjoint (hle ho₁) (hle ho₂) hF₁ hF₂ hx₁ hx₂
  · rcases (hused _).mp hx with hx | rfl
    · obtain ⟨o', c', b', m, ho', hm, hxm⟩ := h.covered hx
      obtain ⟨m', hm', hcase⟩ := hchain ho'
      refine ⟨o', c', b', m', hge ho', hm', ?_⟩
      rcases hcase with ⟨rfl, rfl, rfl, rfl⟩ | ⟨hne, hmF⟩
      · rw [hm.unique hl] at hxm
        exact List.mem_append_left _ hxm
      · rwa [hmF.unique hm]
    · exact ⟨o, c, b, _, hge ho, hext, by simp⟩

/-- A root gives up its chain, which holds no reference. -/
theorem free (h : F.Consistent X) (hX : X c b) (hl : F.Chain c l)
    (hX' : ∀ c' b', X' c' b' ↔ X c' b' ∧ ¬ (c' = c ∧ b' = b))
    (hused : ∀ x, F'.used x ↔ F.used x ∧ x ∉ l)
    (hnext : ∀ x, F.used x → x ∉ l → F'.next x = F.next x)
    (hrefs : ∀ {o d m}, F.Owns X o d true → F.Chain d m → o ≠ .root c b →
      ∀ i c b, F'.refs m i c b ↔ F.refs m i c b)
    (hempty : b = true → ∀ i c b, ¬ F.refs l i c b) : F'.Consistent X' := by
  have hroot : F.Owns X (.root c b) c b := .root hX
  have hchain : ∀ {o c' b' m}, F.Owns X o c' b' → o ≠ .root c b → F.Chain c' m → F'.Chain c' m := by
    intro o c' b' m ho hne hm
    have hout : ∀ x ∈ m, x ∉ l := fun x hx hxl => hne (h.disjoint ho hroot hm hl hx hxl)
    exact hm.congr (fun x hx => (hused x).mpr ⟨hm.2 x hx, hout x hx⟩)
      fun x hx => hnext x (hm.2 x hx) (hout x hx)
  -- nobody owns what he did not own before, and the freed root owns nothing
  have hle : ∀ {o c' b'}, F'.Owns X' o c' b' → F.Owns X o c' b' ∧ o ≠ .root c b := by
    intro o c' b' ho
    induction ho with
    | root hc =>
      obtain ⟨hc, hne⟩ := (hX' _ _).mp hc
      exact ⟨.root hc, fun heq => hne (by injection heq; simp [*])⟩
    | ref _ hm hr ih =>
      obtain ⟨hd, hne⟩ := ih
      obtain ⟨k, hk⟩ := h.chain hd
      obtain rfl := hm.unique (hchain hd hne hk).1
      exact ⟨.ref hd hk.1 ((hrefs hd hk hne _ _ _).mp hr), nofun⟩
  -- by induction on the ownership: a reference out of the freed chain would be one that it does not
  -- hold
  have hge : ∀ {o c' b'}, F.Owns X o c' b' → o ≠ .root c b → F'.Owns X' o c' b' := by
    intro o c' b' ho
    induction ho with
    | root hc =>
      intro hne
      refine .root ((hX' _ _).mpr ⟨hc, ?_⟩)
      rintro ⟨rfl, rfl⟩
      exact hne rfl
    | @ref o d c₁ b₁ m j hd hm hr ih =>
      intro _
      obtain ⟨k, hk⟩ := h.chain hd
      obtain rfl := hm.unique hk.1
      have hne : o ≠ .root c b := by
        rintro rfl
        obtain ⟨rfl, rfl⟩ := h.owns_fun hd hroot
        obtain rfl := hk.unique hl
        exact hempty rfl _ _ _ hr
      exact .ref (ih hne) (hchain hd hne hk).1 ((hrefs hd hk hne _ _ _).mpr hr)
  have hback : ∀ {o c' b' m}, F.Owns X o c' b' → o ≠ .root c b → F'.Chain c' m → F.Chain c' m :=
    fun ho hne hm => by
      obtain ⟨k, hk⟩ := h.chain ho
      rwa [← (hchain ho hne hk).unique hm]
  refine ⟨⟨fun ho => ?_, fun ho ho' hm hm' hx hx' => ?_⟩, fun hx => ?_⟩
  · obtain ⟨ho, hne⟩ := hle ho
    exact (h.chain ho).imp fun m hm => hchain ho hne hm
  · obtain ⟨ho, hne⟩ := hle ho
    obtain ⟨ho', hne'⟩ := hle ho'
    exact h.disjoint ho ho' (hback ho hne hm) (hback ho' hne' hm') hx hx'
  · obtain ⟨hx, hxl⟩ := (hused _).mp hx
    obtain ⟨o, c', b', m, ho, hm, hxm⟩ := h.covered hx
    have hne : o ≠ .root c b := by
      rintro rfl
      obtain ⟨rfl, -⟩ := h.owns_fun ho hroot
      exact hxl (hm.unique hl ▸ hxm)
    exact ⟨o, c', b', m, hge ho hne, hchain ho hne hm, hxm⟩

end Consistent

end ChainForest

end PsychWard
