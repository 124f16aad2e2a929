import PsychWard.Fat32.Tree
import Mathlib.Data.List.Pairwise

/-!
# Checking a volume

A listing of a directory tree, with each chain's clusters written out, can be checked by evaluation.
`Volume.consistent_of_check` says that a volume with a checked listing is consistent.
-/

namespace PsychWard.Fat32

instance (e : Entry) (c : ℕ) (b : Bool) : Decidable (e.Refers c b) :=
  inferInstanceAs (Decidable (_ ∧ _ ∧ _ ∧ _ ∧ _))

instance (v : Volume) (c : ℕ) : Decidable (v.Used c) := inferInstanceAs (Decidable (_ ∧ _))

/-- A chain of the tree: the slot of the entry that names it, `none` for the root directory. -/
structure Listed where
  slot : Option DirCursor
  dir : Bool
  clusters : List ℕ

namespace Volume

variable (v : Volume)

/-- The clusters of the list are used, and each links to the next one. -/
def ChainOk : List ℕ → Prop
  | [] => False
  | [c] => v.Used c ∧ v.next c = none
  | c :: d :: t => v.Used c ∧ v.next c = some d ∧ ChainOk (d :: t)

instance decidableChainOk : (l : List ℕ) → Decidable (v.ChainOk l)
  | [] => inferInstanceAs (Decidable False)
  | [_] => inferInstanceAs (Decidable (_ ∧ _))
  | _ :: d :: t =>
    have := decidableChainOk (d :: t)
    inferInstanceAs (Decidable (_ ∧ _ ∧ _))

/-- Every row is named by an entry of a directory among the rows before it. -/
def RowsOk : List Listed → List Listed → Prop
  | _, [] => True
  | seen, r :: rest =>
    (∃ q ∈ seen, q.dir = true ∧ ∃ p ∈ v.beforeEnd q.clusters, r.slot = some p ∧
      (v.entry p).Refers (r.clusters.headD 0) r.dir) ∧ RowsOk (r :: seen) rest

instance decidableRowsOk : (seen rest : List Listed) → Decidable (v.RowsOk seen rest)
  | _, [] => inferInstanceAs (Decidable True)
  | seen, r :: rest =>
    have := decidableRowsOk (r :: seen) rest
    inferInstanceAs (Decidable (_ ∧ _))

/-- The listing of a tree: the chains end and are disjoint, they are all the used clusters, and every
directory's entries are listed. -/
structure Check (root : ℕ) (top : List ℕ) (rest : List Listed) : Prop where
  head : top.head? = some root
  chains : ∀ r ∈ ⟨none, true, top⟩ :: rest, v.ChainOk r.clusters
  disjoint : (⟨none, true, top⟩ :: rest).Pairwise fun r r' => ∀ x ∈ r.clusters, x ∉ r'.clusters
  rows : v.RowsOk [⟨none, true, top⟩] rest
  entries : ∀ r ∈ ⟨none, true, top⟩ :: rest, r.dir = true → ∀ p ∈ v.beforeEnd r.clusters,
    (v.entry p).Refers (v.entry p).clus (v.entry p).isDir → ∃ r' ∈ rest, r'.slot = some p
  covered : ∀ c < v.clusters, v.Used c → ∃ r ∈ ⟨none, true, top⟩ :: rest, c ∈ r.clusters

instance (root : ℕ) (top : List ℕ) (rest : List Listed) : Decidable (v.Check root top rest) :=
  decidable_of_iff (_ ∧ _ ∧ _ ∧ _ ∧ _ ∧ _)
    ⟨fun ⟨h1, h2, h3, h4, h5, h6⟩ => ⟨h1, h2, h3, h4, h5, h6⟩,
      fun ⟨h1, h2, h3, h4, h5, h6⟩ => ⟨h1, h2, h3, h4, h5, h6⟩⟩

variable {v}

theorem chain_of_chainOk {l : List ℕ} (h : v.ChainOk l) : v.forest.Chain (l.headD 0) l := by
  induction l with
  | nil => exact h.elim
  | cons c t ih =>
    cases t with
    | nil => exact ⟨.last h.2, fun x hx => List.mem_singleton.mp hx ▸ h.1⟩
    | cons d t =>
      obtain ⟨hw, hu⟩ := ih h.2.2
      exact ⟨.cons h.2.1 hw, fun x hx => (List.mem_cons.mp hx).elim (fun e => e ▸ h.1) (hu x)⟩

end Volume

namespace Listed

/-- Who owns a listed chain. -/
def owner (root : ℕ) (r : Listed) : Owner ℕ DirCursor :=
  match r.slot with
  | none => .root root true
  | some p => .ref p

/-- The listed chain is owned as listed. -/
def Owned (v : Volume) (root : ℕ) (r : Listed) : Prop :=
  v.forest.Owns (Volume.rootOnly root) (r.owner root) (r.clusters.headD 0) r.dir

end Listed

namespace Volume

variable {v : Volume} {root : ℕ}

theorem owned_of_rowsOk (root : ℕ) {seen rest : List Listed} (h : v.RowsOk seen rest)
    (hchain : ∀ r ∈ seen ++ rest, v.ChainOk r.clusters) (hseen : ∀ r ∈ seen, r.Owned v root) :
    ∀ r ∈ rest, r.Owned v root ∧ ∃ p, r.slot = some p ∧
      (v.entry p).Refers (r.clusters.headD 0) r.dir := by
  induction rest generalizing seen with
  | nil => simp
  | cons r rest ih =>
    obtain ⟨⟨q, hq, hdir, p, hp, hslot, href⟩, hrest⟩ := h
    have hown : r.Owned v root := by
      have hparent := hseen q hq
      rw [Listed.Owned, hdir] at hparent
      rw [Listed.Owned, Listed.owner, hslot]
      exact .ref hparent (chain_of_chainOk (hchain q (by simp [hq]))).1 ⟨hp, href⟩
    intro r' hr'
    rcases List.mem_cons.mp hr' with rfl | hr'
    · exact ⟨hown, p, hslot, href⟩
    · refine ih hrest (fun x hx => hchain x ?_) (fun x hx => ?_) r' hr'
      · simp only [List.mem_append, List.mem_cons] at hx ⊢
        tauto
      · rcases List.mem_cons.mp hx with rfl | hx
        · exact hown
        · exact hseen x hx

/-- The rows of a listing. -/
def listing (top : List ℕ) (rest : List Listed) : List Listed := ⟨none, true, top⟩ :: rest

/-- The listed chains are owned as listed. -/
theorem Check.owned {top : List ℕ} {rest : List Listed} (h : v.Check root top rest) :
    ∀ r ∈ listing top rest, r.Owned v root := by
  obtain ⟨t, rfl⟩ : ∃ t, top = root :: t := List.head?_eq_some_iff.mp h.head
  have htop : Listed.Owned v root ⟨none, true, root :: t⟩ := .root ⟨rfl, rfl⟩
  have hrest := owned_of_rowsOk root h.rows h.chains fun r hr => by
    rw [List.mem_singleton.mp hr]
    exact htop
  intro r hr
  rcases List.mem_cons.mp hr with rfl | hr
  · exact htop
  · exact (hrest r hr).1

/-- Every owned chain is listed. -/
theorem Check.listed {top : List ℕ} {rest : List Listed} (h : v.Check root top rest)
    {o : Owner ℕ DirCursor} {c : ℕ} {b : Bool} (ho : v.forest.Owns (rootOnly root) o c b) :
    ∃ r ∈ listing top rest, o = r.owner root ∧ b = r.dir ∧ c = r.clusters.headD 0 ∧
      v.forest.Chain c r.clusters := by
  have hchain : ∀ r ∈ listing top rest, v.forest.Chain (r.clusters.headD 0) r.clusters :=
    fun r hr => chain_of_chainOk (h.chains r hr)
  induction ho with
  | root hX =>
    obtain ⟨rfl, rfl⟩ := hX
    obtain ⟨t, rfl⟩ := List.head?_eq_some_iff.mp h.head
    exact ⟨_, List.mem_cons_self, rfl, rfl, rfl, hchain _ List.mem_cons_self⟩
  | @ref o d c b l p _ hl hr ih =>
    obtain ⟨r, hr', -, hdir, rfl, hrc⟩ := ih
    obtain rfl := hl.unique hrc.1
    have hself : (v.entry p).Refers (v.entry p).clus (v.entry p).isDir :=
      ⟨hr.2.1, hr.2.2.1, rfl, hr.2.2.2.1 ▸ hr.2.2.2.2.1, rfl⟩
    obtain ⟨r', hmem, hslot⟩ := h.entries r hr' hdir.symm p hr.1 hself
    have hmem' : r' ∈ listing top rest := List.mem_cons_of_mem _ hmem
    -- the row stands for the same entry
    have hown := h.owned r' hmem'
    rw [Listed.Owned, Listed.owner, hslot] at hown
    have href : (v.entry p).Refers (r'.clusters.headD 0) r'.dir := by
      cases hown with
      | ref _ _ hr' => exact hr'.2
    have hc : c = r'.clusters.headD 0 := hr.2.2.2.1.symm.trans href.2.2.1
    refine ⟨r', hmem', ?_, hr.2.2.2.2.2.symm.trans href.2.2.2.2, hc, hc ▸ hchain r' hmem'⟩
    rw [Listed.owner, hslot]

/-- A volume with a checked listing is consistent. -/
theorem consistent_of_check (top : List ℕ) (rest : List Listed) (h : v.Check root top rest) :
    v.Consistent root := by
  refine ⟨⟨fun ho => ?_, fun {o o' c c' b b' l l' x} ho ho' hl hl' hx hx' => ?_⟩, fun {x} hx => ?_⟩
  · obtain ⟨r, -, -, -, -, hr⟩ := h.listed ho
    exact ⟨_, hr⟩
  · obtain ⟨r, hr, rfl, -, -, hrc⟩ := h.listed ho
    obtain ⟨r', hr', rfl, -, -, hrc'⟩ := h.listed ho'
    obtain rfl := hl.unique hrc
    obtain rfl := hl'.unique hrc'
    by_cases heq : r = r'
    · rw [heq]
    · have : Std.Symm fun r r' : Listed => ∀ x ∈ r.clusters, x ∉ r'.clusters :=
        ⟨fun _ _ hdis x hx hx' => hdis x hx' hx⟩
      exact absurd hx' (h.disjoint.forall hr hr' heq x hx)
  · obtain ⟨r, hr, hxr⟩ := h.covered x hx.1.2 hx
    exact ⟨_, _, _, _, h.owned r hr, chain_of_chainOk (h.chains r hr), hxr⟩

end Volume

end PsychWard.Fat32
