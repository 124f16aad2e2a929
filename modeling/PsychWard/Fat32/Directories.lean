import PsychWard.Fat32.RemoveSpec

/-!
# The directories of a volume

The directory entries of the directories of a tree, `.` and `..` among them. `Upright` says what they
have to lead to so that a step into any of them stays in the tree, and `Evolves` is how an operation may
change them: directories come and go, the others keep their entries. Most operations reach the clusters
of one directory and free ones only (`Room`), and leave its directory entries as they are.
-/

namespace PsychWard.Fat32

/-- The entry is one of a directory, `.` or `..` when `up` holds, and leads to the cluster `c`. -/
structure Entry.Leads (e : Entry) (up : Bool) (c : ℕ) : Prop where
  named : e.IsNamed
  isDot : e.IsDot ↔ up = true
  dir : e.isDir = true
  clus : e.clus = c
  ne_zero : c ≠ 0

namespace Entry

variable {e e' : Entry} {c : ℕ} {up : Bool}

/-- An entry that leads down to a cluster refers to it. -/
theorem Leads.refers (h : e.Leads false c) (h2 : 2 ≤ c) : e.Refers c true :=
  ⟨h.named, fun hd => by simpa using h.isDot.mp hd, h.clus, h2, h.dir⟩

/-- A reference to a directory leads down. -/
theorem Refers.leads (h : e.Refers c true) : e.Leads false c :=
  ⟨h.1, by simpa using h.2.1, h.2.2.2.2, h.2.2.1, by have := h.2.2.2.1; omega⟩

/-- A file leads nowhere. -/
theorem not_leads_of_file (h : e.isDir = false) : ¬ e.Leads up c := fun hl =>
  Bool.false_ne_true (h.symm.trans hl.dir)

/-- A free slot leads nowhere. -/
theorem not_leads_of_free (h : e.IsFree) : ¬ e.Leads up c := fun hl => hl.named.1 h

/-- A long-name entry leads nowhere. -/
theorem not_leads_of_lfn (h : e.attr = 0x0F) : ¬ e.Leads up c := fun hl => hl.named.2.1 h

/-- An entry whose name alone changes leads where it led. -/
theorem leads_congr (hn : e.IsNamed) (hdir : e'.isDir = e.isDir) (hclus : e'.clus = e.clus)
    (h2 : 2 ≤ e.clus → ¬ e.IsDot ∧ e'.IsNamed ∧ ¬ e'.IsDot) (hle : ∀ up c, e.Leads up c → 2 ≤ c) :
    e'.Leads up c ↔ e.Leads up c := by
  constructor
  · intro h
    have hd : e.isDir = true := hdir.symm.trans h.dir
    have hc : e.clus = c := hclus.symm.trans h.clus
    have hc2 : 2 ≤ c := hle (decide e.IsDot) c ⟨hn, by simp, hd, hc, h.ne_zero⟩
    obtain ⟨hdot, -, hdot'⟩ := h2 (hc ▸ hc2)
    exact ⟨hn, (iff_of_false hdot hdot').trans h.isDot, hd, hc, h.ne_zero⟩
  · intro h
    obtain ⟨hdot, hn', hdot'⟩ := h2 (h.clus ▸ hle up c h)
    exact ⟨hn', (iff_of_false hdot' hdot).trans h.isDot, hdir.trans h.dir, hclus.trans h.clus,
      h.ne_zero⟩

end Entry

namespace Volume

variable {v v' v'' : Volume} {root D c d n : ℕ} {k l m : List ℕ} {q : DirCursor} {up : Bool}
  {A B R : List DirCursor}

/-- The directory at `d` has a live directory entry that leads to `c`. -/
def LeadsTo (v : Volume) (d : ℕ) (up : Bool) (c : ℕ) : Prop :=
  ∃ l, v.forest.Chain d l ∧ ∃ p ∈ v.beforeEnd l, (v.entry p).Leads up c

/-- `d` is the first cluster of a directory of the tree. -/
def InTree (v : Volume) (root d : ℕ) : Prop := ∃ o, v.forest.Owns (rootOnly root) o d true

/-- In every directory of the tree, `.` and `..` lead to the directory itself, to its parent or to the
root, and no entry of a directory has cluster 1. -/
structure Upright (v : Volume) (root : ℕ) : Prop where
  up : ∀ {d c}, v.InTree root d → v.LeadsTo d true c →
    c = root ∨ c = d ∨ v.InTree root c ∧ v.LeadsTo c false d
  down : ∀ {d c}, v.InTree root d → v.LeadsTo d false c → 2 ≤ c

/-- What a directory leads to, by its chain. -/
theorem leadsTo_iff (hl : v.forest.Chain d l) :
    v.LeadsTo d up c ↔ ∃ p ∈ v.beforeEnd l, (v.entry p).Leads up c := by
  constructor
  · rintro ⟨m, hm, h⟩
    rwa [hm.unique hl] at h
  · exact fun h => ⟨l, hl, h⟩

/-- The root is a directory of the tree. -/
theorem inTree_root : v.InTree root root := ⟨_, .root ⟨rfl, rfl⟩⟩

/-- A subdirectory of a directory of the tree is one, too. -/
theorem InTree.step (h : v.InTree root d) (hlead : v.LeadsTo d false c) (h2 : 2 ≤ c) :
    v.InTree root c := by
  obtain ⟨o, ho⟩ := h
  obtain ⟨l, hl, p, hp, he⟩ := hlead
  exact ⟨_, .ref ho hl.1 ⟨hp, he.refers h2⟩⟩

/-- A directory of the tree is the root or has an entry in another one. -/
theorem InTree.induction (hc : v.Consistent root) {P : ℕ → Prop} (hroot : P root)
    (hstep : ∀ d c, v.InTree root d → P d → v.LeadsTo d false c → 2 ≤ c → P c)
    (h : v.InTree root d) : P d := by
  obtain ⟨o, ho⟩ := h
  generalize hb : true = b at ho
  induction ho with
  | root hX =>
    obtain ⟨rfl, -⟩ := hX
    exact hroot
  | ref hd hl hr ih =>
    subst hb
    obtain ⟨m, hm⟩ := hc.chain hd
    obtain rfl := hl.unique hm.1
    exact hstep _ _ ⟨_, hd⟩ (ih rfl) ⟨_, hm, _, hr.1, hr.2.leads⟩ hr.2.2.2.2.1

/-- A directory of the tree has a chain. -/
theorem InTree.chain (hc : v.Consistent root) (h : v.InTree root d) : ∃ l, v.forest.Chain d l := by
  obtain ⟨o, ho⟩ := h
  exact hc.chain ho

/-- A directory of the tree starts at a data cluster. -/
theorem InTree.two_le (hc : v.Consistent root) (h : v.InTree root d) : 2 ≤ d := by
  obtain ⟨l, hl⟩ := h.chain hc
  exact (hl.2 d hl.1.mem_head : v.Used d).1.1

/-- What a directory entry leads to is a directory of the tree. -/
theorem Upright.inTree (hup : v.Upright root) (hd : v.InTree root d) (h : v.LeadsTo d up c) :
    v.InTree root c := by
  cases up with
  | false => exact hd.step h (hup.down hd h)
  | true =>
    rcases hup.up hd h with rfl | rfl | ⟨hc, -⟩
    · exact inTree_root
    · exact hd
    · exact hc

/-- Also what `..` leads to is a data cluster. -/
theorem Upright.two_le (hup : v.Upright root) (hc : v.Consistent root) (hd : v.InTree root d)
    (h : v.LeadsTo d up c) : 2 ≤ c := (hup.inTree hd h).two_le hc

/-! ## How the tree evolves -/

/-- The directories of the tree keep the directory entries they have, besides those of the directories
that are `gone`, and get entries of the `born` ones, which are new and hold `.` and `..` only. -/
structure Evolves (v v' : Volume) (root : ℕ) (born : ℕ → ℕ → Prop) (gone : ℕ → Prop) : Prop where
  chain : ∀ {d}, v.InTree root d → ¬ gone d → ∃ l, v'.forest.Chain d l
  leadsTo : ∀ {d up c}, v.InTree root d → ¬ gone d → (v'.LeadsTo d up c ↔
    v.LeadsTo d up c ∧ ¬ (up = false ∧ gone c) ∨ up = false ∧ born d c)
  parent : ∀ {d c}, born d c → v.InTree root d ∧ ¬ gone d ∧ 2 ≤ c
  child : ∀ {d c up x}, born d c → v'.LeadsTo c up x → up = true ∧ (x = c ∨ x = d)
  empty : ∀ {d c}, gone d → d ≠ root ∧ ¬ v.LeadsTo d false c

/-- No directory comes or goes. -/
abbrev Steadfast (v v' : Volume) (root : ℕ) : Prop :=
  Evolves v v' root (fun _ _ => False) fun _ => False

namespace Evolves

variable {born : ℕ → ℕ → Prop} {gone : ℕ → Prop} (h : Evolves v v' root born gone)

include h

/-- The directories of the tree that are not gone are directories of the tree. -/
theorem inTree (hc : v.Consistent root) (hd : v.InTree root d) (hgone : ¬ gone d) : v'.InTree root d := by
  refine hd.induction hc (P := fun d => ¬ gone d → v'.InTree root d) (fun _ => inTree_root)
    (fun e c he ih hlead h2 hgone => ?_) hgone
  have hgone' : ¬ gone e := fun hg => (h.empty hg).2 hlead
  exact (ih hgone').step ((h.leadsTo he hgone').mpr (.inl ⟨hlead, fun hh => hgone hh.2⟩)) h2

/-- All others are new. -/
theorem inTree_cases (hc' : v'.Consistent root) (hd : v'.InTree root d) :
    v.InTree root d ∧ ¬ gone d ∨ ∃ e, born e d := by
  refine hd.induction hc' (P := fun d => v.InTree root d ∧ ¬ gone d ∨ ∃ e, born e d)
    (.inl ⟨inTree_root, fun hg => (h.empty (c := 0) hg).1 rfl⟩) fun e c _ ih hlead h2 => ?_
  rcases ih with ⟨he, hgone⟩ | ⟨f, hborn⟩
  · rcases (h.leadsTo he hgone).mp hlead with ⟨hlead, hnot⟩ | ⟨-, hborn⟩
    · exact .inl ⟨he.step hlead h2, fun hg => hnot ⟨rfl, hg⟩⟩
    · exact .inr ⟨e, hborn⟩
  · exact absurd (h.child hborn hlead).1 (by simp)

/-- An evolution between consistent volumes keeps `..` in the tree. -/
theorem upright (hc : v.Consistent root) (hc' : v'.Consistent root) (hup : v.Upright root) :
    v'.Upright root := by
  refine ⟨fun {d c} hd hlead => ?_, fun {d c} hd hlead => ?_⟩
  · rcases h.inTree_cases hc' hd with ⟨he, hgone⟩ | ⟨e, hborn⟩
    · rcases (h.leadsTo he hgone).mp hlead with ⟨hlead, -⟩ | ⟨hf, -⟩
      · rcases hup.up he hlead with rfl | rfl | ⟨hcT, hback⟩
        · exact .inl rfl
        · exact .inr (.inl rfl)
        · have hgone' : ¬ gone c := fun hg => (h.empty hg).2 hback
          exact .inr (.inr ⟨h.inTree hc hcT hgone',
            (h.leadsTo hcT hgone').mpr (.inl ⟨hback, fun hh => hgone hh.2⟩)⟩)
      · exact absurd hf (by simp)
    · rcases (h.child hborn hlead).2 with rfl | rfl
      · exact .inr (.inl rfl)
      · obtain ⟨hcT, hgone', -⟩ := h.parent hborn
        exact .inr (.inr ⟨h.inTree hc hcT hgone',
          (h.leadsTo hcT hgone').mpr (.inr ⟨rfl, hborn⟩)⟩)
  · rcases h.inTree_cases hc' hd with ⟨he, hgone⟩ | ⟨e, hborn⟩
    · rcases (h.leadsTo he hgone).mp hlead with ⟨hlead, -⟩ | ⟨-, hborn⟩
      · exact hup.down he hlead
      · exact (h.parent hborn).2.2
    · exact absurd (h.child hborn hlead).1 (by simp)

end Evolves

/-! ## Directories out of reach -/

/-- `v'` is `v` outside the clusters `S`. -/
structure Outside (v v' : Volume) (S : ℕ → Prop) : Prop where
  clusters : v'.clusters = v.clusters
  sectorsPerCluster : v'.sectorsPerCluster = v.sectorsPerCluster
  fat : ∀ x, ¬ S x → v'.fat x = v.fat x
  data : ∀ x, ¬ S x → v'.data x = v.data x

namespace Outside

variable {S : ℕ → Prop}

theorem refl (v : Volume) (S : ℕ → Prop) : Outside v v S :=
  ⟨rfl, rfl, fun _ _ => rfl, fun _ _ => rfl⟩

theorem trans (h : Outside v v' S) (h' : Outside v' v'' S) : Outside v v'' S :=
  ⟨h'.clusters.trans h.clusters, h'.sectorsPerCluster.trans h.sectorsPerCluster,
    fun x hx => (h'.fat x hx).trans (h.fat x hx), fun x hx => (h'.data x hx).trans (h.data x hx)⟩

/-- More clusters may change. -/
theorem mono {S' : ℕ → Prop} (h : Outside v v' S) (hS : ∀ x, S x → S' x) : Outside v v' S' :=
  ⟨h.clusters, h.sectorsPerCluster, fun x hx => h.fat x fun hs => hx (hS x hs),
    fun x hx => h.data x fun hs => hx (hS x hs)⟩

/-- Outside of the clusters the same ones are used. -/
theorem used (h : Outside v v' S) {x : ℕ} (hx : ¬ S x) : v'.Used x ↔ v.Used x := by
  rw [Used, Used, InRange, InRange, h.clusters, h.fat x hx]

/-- A chain outside of the clusters stays. -/
theorem chain (h : Outside v v' S) (hl : v.forest.Chain d l) (hS : ∀ x ∈ l, ¬ S x) :
    v'.forest.Chain d l :=
  chain_congr hl h.clusters fun x hx => h.fat x (hS x hx)

/-- A directory outside of the clusters leads to what it led to. -/
theorem leadsTo (h : Outside v v' S) (hl : v.forest.Chain d l) (hS : ∀ x ∈ l, ¬ S x) :
    v'.LeadsTo d up c ↔ v.LeadsTo d up c := by
  have hslots : ∀ p ∈ v.slots l, v'.entry p = v.entry p := fun p hp => by
    rw [entry, entry, h.data _ (hS _ (mem_slots.mp hp).1)]
  rw [leadsTo_iff (h.chain hl hS), leadsTo_iff hl, beforeEnd_congr h.sectorsPerCluster hslots]
  refine exists_congr fun p => and_congr_right fun hp => ?_
  rw [hslots p (mem_slots_of_beforeEnd hp)]

end Outside

section Edits

variable {S : ℕ → Prop}

/-- Changes of entries stay in the clusters of their slots. -/
theorem Edit.outside (h : Edit v v' R) (hS : ∀ r ∈ R, S r.cluster) : Outside v v' S :=
  ⟨h.clusters, h.sectorsPerCluster, fun x _ => congrFun h.fat x, fun x hx =>
    h.data_eq x fun r hr heq => hx (heq ▸ hS r hr)⟩

/-- Growing changes the last cluster and the new one. -/
theorem Grown.outside (h : Grown v v' l n) (hl : ∀ x ∈ l, S x) (hn : S n) : Outside v v' S := by
  have hne : ∀ x, ¬ S x → x ≠ n := fun x hx heq => hx (heq ▸ hn)
  refine ⟨h.clusters, h.sectorsPerCluster, fun x hx => ?_, fun x hx => h.data_eq x (hne x hx)⟩
  exact h.fat_eq x (hne x hx) fun hlast => hx (hl x (List.mem_of_getLast? hlast))

/-- An allocation changes the new clusters. -/
theorem Allocated.outside (h : Allocated v v' m) (hm : ∀ x ∈ m, S x) : Outside v v' S :=
  ⟨h.clusters, h.sectorsPerCluster, fun x hx => h.fat_eq x fun hxm => hx (hm x hxm),
    fun x hx => h.data_eq x fun hxm => hx (hm x hxm)⟩

/-- Storing data changes the clusters of the data. -/
theorem DataOnly.outside (h : DataOnly v v' m) (hm : ∀ x ∈ m, S x) : Outside v v' S :=
  ⟨h.clusters, h.sectorsPerCluster, fun x _ => congrFun h.fat x,
    fun x hx => h.data_eq x fun hxm => hx (hm x hxm)⟩

/-- Clearing changes the clusters that are cleared. -/
theorem outside_clear (hm : ∀ x ∈ m, S x) : Outside v (v.clear m) S :=
  ⟨rfl, rfl, fun x hx => if_neg fun hxm => hx (hm x hxm), fun _ _ => rfl⟩

/-- A sector write changes its cluster. -/
theorem outside_setData (hn : S n) (i : ℕ) (b : Block) : Outside v (v.setData n i b) S :=
  ⟨rfl, rfl, fun _ _ => rfl, fun x hx => Function.update_of_ne (fun heq => hx (by rwa [heq])) _ _⟩

/-- A grown directory has the entries it had. -/
theorem Grown.leadsTo (h : Grown v v' l n) (hl : v.forest.Chain d l) :
    v'.LeadsTo d up c ↔ v.LeadsTo d up c := by
  rw [leadsTo_iff (h.chain hl), leadsTo_iff hl]
  refine exists_congr fun p => ?_
  rw [h.mem_beforeEnd hl]
  refine and_congr_right fun hp => ?_
  rw [h.entry_eq (h.ne_of_used (hl.2 _ (mem_slots.mp (mem_slots_of_beforeEnd hp)).1))]

/-- A directory after a run of its slots was stored over. -/
theorem Stored.leadsTo (h : Stored v v' l A R B) (hl : v.forest.Chain d l) :
    v'.LeadsTo d up c ↔ (∃ p ∈ v.beforeEnd l, p ∉ R ∧ (v.entry p).Leads up c) ∨
      ∃ p ∈ R, (v'.entry p).Leads up c := by
  rw [leadsTo_iff (h.edit.chain hl)]
  constructor
  · rintro ⟨p, hp, he⟩
    by_cases hR : p ∈ R
    · exact .inr ⟨p, hR, he⟩
    · have hp' := ((h.mem_beforeEnd hl.1.nodup).mp hp).resolve_right hR
      exact .inl ⟨p, hp', hR, h.entry_eq hp' hR ▸ he⟩
  · rintro (⟨p, hp, hR, he⟩ | ⟨p, hR, he⟩)
    · exact ⟨p, (h.mem_beforeEnd hl.1.nodup).mpr (.inl hp), (h.entry_eq hp hR).symm ▸ he⟩
    · exact ⟨p, (h.mem_beforeEnd hl.1.nodup).mpr (.inr hR), he⟩

/-- A free run holds no entry of the directory. -/
theorem FreeRun.not_leads (h : FreeRun v l A R B) (hl : l.Nodup) {p : DirCursor} (hp : p ∈ R)
    (hb : p ∈ v.beforeEnd l) : ¬ (v.entry p).Leads up c :=
  Entry.not_leads_of_free (.inr (h.deleted_of_mem hl hp hb))

/-- A directory after one of its slots was stored over. -/
theorem Place.leadsTo (h : Place v l A [q] B) (hE : Edit v v' [q]) (hl : v.forest.Chain d l)
    (h0 : v'.entry q 0 ≠ 0)
    (hsame : (v'.entry q).Leads up c ↔ q ∈ v.beforeEnd l ∧ (v.entry q).Leads up c) :
    v'.LeadsTo d up c ↔ v.LeadsTo d up c := by
  have hst := h.stored hE fun p hp => by rwa [List.mem_singleton.mp hp]
  rw [hst.leadsTo hl, leadsTo_iff hl]
  constructor
  · rintro (⟨p, hp, -, he⟩ | ⟨p, hp, he⟩)
    · exact ⟨p, hp, he⟩
    · rw [List.mem_singleton.mp hp] at he
      exact ⟨q, hsame.mp he⟩
  · rintro ⟨p, hp, he⟩
    by_cases hpq : p = q
    · subst hpq
      exact .inr ⟨p, by simp, hsame.mpr ⟨hp, he⟩⟩
    · exact .inl ⟨p, hp, by simpa using hpq, he⟩

/-- Marking entries changes their directory. -/
theorem Marked.outside (h : Marked v v' l A R B q) {S : ℕ → Prop} (hS : ∀ x ∈ l, S x) :
    Outside v v' S :=
  h.edit.outside fun r hr => hS _ (mem_slots.mp (show r ∈ v.slots l by
    rw [h.slots_eq]
    exact List.mem_append_right _ (List.mem_append_left _ hr))).1

/-- A directory after an entry of it was removed. -/
theorem Marked.leadsTo (h : Marked v v' l A R B q) (hl : v.forest.Chain d l) :
    v.LeadsTo d up c ↔ v'.LeadsTo d up c ∨ (v.entry q).Leads up c := by
  have hq : q ∈ v.beforeEnd l :=
    mem_beforeEnd_of_used (A := A ++ R) (B := B) (by simp [h.slots_eq]) h.before h.named
  rw [h.stored.leadsTo hl, leadsTo_iff hl]
  constructor
  · rintro ⟨p, hp, he⟩
    by_cases hR : p ∈ R ++ [q]
    · rcases List.mem_append.mp hR with hR | hR
      · exact absurd he (Entry.not_leads_of_lfn (h.lfn p hR))
      · exact .inr (List.mem_singleton.mp hR ▸ he)
    · exact .inl (.inl ⟨p, hp, hR, he⟩)
  · rintro ((⟨p, hp, -, he⟩ | ⟨p, hp, he⟩) | he)
    · exact ⟨p, hp, he⟩
    · rw [h.marked p hp] at he
      exact absurd he (Entry.not_leads_of_free (.inr (Entry.setByte_zero _ _)))
    · exact ⟨q, hq, he⟩

/-- A directory with new entries in a free run. -/
theorem FreeRun.leadsTo (h : FreeRun v l A R B) (hE : Edit v v' R) (hl : v.forest.Chain d l)
    (hne : ∀ p ∈ R, v'.entry p 0 ≠ 0) :
    v'.LeadsTo d up c ↔ v.LeadsTo d up c ∨ ∃ p ∈ R, (v'.entry p).Leads up c := by
  rw [(h.place.stored hE hne).leadsTo hl, leadsTo_iff hl]
  refine or_congr_left (exists_congr fun p => and_congr_right fun hp => ?_)
  exact ⟨fun hh => hh.2, fun hh => ⟨fun hR => h.not_leads hl.1.nodup hR hp hh, hh⟩⟩

end Edits

/-! ## One directory changes -/

/-- Chains with different first clusters are disjoint. -/
theorem notMem_chain (hc : v.Consistent root) {o o' : Owner ℕ DirCursor} {b b' : Bool}
    (ho : v.forest.Owns (rootOnly root) o c b) (ho' : v.forest.Owns (rootOnly root) o' d b')
    (hne : c ≠ d) (hl : v.forest.Chain c l) (hk : v.forest.Chain d k) {x : ℕ} (hx : x ∈ l) :
    x ∉ k := fun hxk => by
  obtain rfl := hc.disjoint ho ho' hl hk hx hxk
  exact hne (hc.owns_fun ho ho').1

/-- The clusters a change of the directory `l` may reach: its own and the free ones. -/
def Room (v : Volume) (l : List ℕ) (x : ℕ) : Prop := x ∈ l ∨ ¬ v.Used x

/-- What is unused afterwards was in the room. -/
theorem room_of_unused {S : ℕ → Prop} (hout : Outside v v' S) (hS : ∀ x, S x → v.Room l x) {x : ℕ}
    (hx : ¬ v'.Used x) : v.Room l x := by
  by_cases hs : S x
  · exact hS x hs
  · exact .inr fun hu => hx ((hout.used hs).mpr hu)

/-- No other directory lies in the room of a directory. -/
theorem not_room (hc : v.Consistent root) (hD : v.InTree root D) (hd : v.InTree root d) (hne : d ≠ D)
    (hl : v.forest.Chain D l) (hk : v.forest.Chain d k) {x : ℕ} (hx : x ∈ k) : ¬ v.Room l x := by
  obtain ⟨o, ho⟩ := hD
  obtain ⟨o', ho'⟩ := hd
  rintro (hxl | hu)
  · exact notMem_chain hc ho' ho hne hk hl hx hxl
  · exact hu (hk.2 x hx)

/-- Nothing comes or goes when the directory at `D` keeps its directory entries and no other one is
reached. -/
theorem steadfast_of {S : ℕ → Prop} (hout : Outside v v' S) (hD : ∃ l, v'.forest.Chain D l)
    (hlead : ∀ up c, v'.LeadsTo D up c ↔ v.LeadsTo D up c)
    (hc : v.Consistent root)
    (hS : ∀ {d k}, v.InTree root d → d ≠ D → v.forest.Chain d k → ∀ x ∈ k, ¬ S x) :
    Steadfast v v' root := by
  refine ⟨fun {d} hd _ => ?_, fun {d up c} hd _ => ?_, False.elim, False.elim, False.elim⟩
  · obtain ⟨k, hk⟩ := hd.chain hc
    by_cases heq : d = D
    · rw [heq]
      exact hD
    · exact ⟨k, hout.chain hk (hS hd heq hk)⟩
  · obtain ⟨k, hk⟩ := hd.chain hc
    simp only [and_false, not_false_eq_true, and_true, or_false]
    by_cases heq : d = D
    · rw [heq]
      exact hlead up c
    · exact hout.leadsTo hk (hS hd heq hk)

theorem Steadfast.refl (hc : v.Consistent root) : Steadfast v v root :=
  steadfast_of (D := root) (.refl v fun _ => False) (inTree_root.chain hc) (fun _ _ => Iff.rfl) hc
    fun _ _ _ _ _ => id

/-- The directory at `D` has taken a slot: it is as it was, or it has grown. -/
theorem taken_cases (v' : Volume) (hl : v.forest.Chain D l) {l' : List ℕ}
    (h : v' = v ∧ l' = l ∨ ∃ n, Grown v v' l n ∧ l' = l ++ [n]) :
    v'.forest.Chain D l' ∧ Outside v v' (v.Room l) ∧ (∀ x ∈ l', v.Room l x) ∧
      ∀ up c, v'.LeadsTo D up c ↔ v.LeadsTo D up c := by
  rcases h with ⟨rfl, rfl⟩ | ⟨n, hgr, rfl⟩
  · exact ⟨hl, .refl _ _, fun _ => .inl, fun _ _ => Iff.rfl⟩
  · have hn : ¬ v.Used n := not_used_of_free hgr.free
    refine ⟨hgr.chain hl, hgr.outside (fun _ => .inl) (.inr hn), fun x hx => ?_,
      fun _ _ => hgr.leadsTo hl⟩
    rcases List.mem_append.mp hx with hx | hx
    · exact .inl hx
    · exact .inr (List.mem_singleton.mp hx ▸ hn)

/-- The entries of a new directory. -/
theorem newDirSector_slots (hz : ∀ k < v.sectorsPerCluster, v.data n k = Block.zero) (p : ℕ)
    {s : DirCursor}
    (hs : s ∈ v.slots [n]) : (v.setData n 0 (newDirSector n p)).entry s = Entry.zero ∨
      (v.setData n 0 (newDirSector n p)).entry s = shortEntry (padBlank 11 [dot]) 0x10 n 0 ∨
      (v.setData n 0 (newDirSector n p)).entry s = shortEntry (padBlank 11 [dot, dot]) 0x10 p 0 := by
  obtain ⟨e₀, e₁, e₂⟩ := Geometry.newDirSector_entry n p
  obtain ⟨sc, ss, so⟩ := s
  obtain ⟨hsn, hss, k, hk, hso⟩ := mem_slots.mp hs
  simp only at hss hso
  obtain rfl : sc = n := List.mem_singleton.mp hsn
  subst hso
  rw [setData_entry]
  by_cases h0 : ss = 0
  · rw [if_pos ⟨rfl, h0⟩]
    by_cases hk0 : k = 0
    · exact .inr (.inl (hk0 ▸ e₀))
    · by_cases hk1 : k = 1
      · exact .inr (.inr (hk1 ▸ e₁))
      · exact .inl (e₂ k (by omega))
  · rw [if_neg fun hh => h0 hh.2, entry, hz ss hss, Block.entry_zero]
    exact .inl rfl

/-- A new directory leads to itself and to its parent. -/
theorem leadsTo_newDir (hz : ∀ k < v.sectorsPerCluster, v.data n k = Block.zero) {p : ℕ} (hn : n < 2 ^ 32)
    (hp : p < 2 ^ 32) (hl : v.forest.Chain n [n])
    (h : (v.setData n 0 (newDirSector n p)).LeadsTo n up c) : up = true ∧ (c = n ∨ c = p) := by
  have hl' : (v.setData n 0 (newDirSector n p)).forest.Chain n [n] :=
    chain_congr hl rfl fun _ _ => rfl
  have hdot : ∀ {name : List UInt8} {x : ℕ}, x < 2 ^ 32 →
      name = padBlank 11 [dot] ∨ name = padBlank 11 [dot, dot] →
        (shortEntry name 0x10 x 0).Leads up c → up = true ∧ c = x := by
    intro name x hx hname he
    have hlen : name.length = 11 := by rcases hname with rfl | rfl <;> rfl
    have hd : (shortEntry name 0x10 x 0).IsDot := by rwa [Entry.IsDot, shortEntry_name _ _ _ _ hlen]
    exact ⟨he.isDot.mp hd, he.clus.symm.trans (shortEntry_clus _ _ _ _ hx)⟩
  obtain ⟨s, hs, he⟩ := (leadsTo_iff hl').mp h
  have hs' : s ∈ (v.setData n 0 (newDirSector n p)).slots [n] := mem_slots_of_beforeEnd hs
  rcases newDirSector_slots hz p hs' with h1 | h1 | h1
  · rw [h1] at he
    exact absurd he (Entry.not_leads_of_free (.inl rfl))
  · rw [h1] at he
    exact (hdot hn (.inl rfl) he).imp id .inl
  · rw [h1] at he
    exact (hdot hp (.inr rfl) he).imp id .inr

/-- A directory is allocated, named in the directory at `p`, and filled. -/
theorem evolves_newDir (hc : v.Consistent root) {p : ℕ} (hp : v.InTree root p)
    (hl : v.forest.Chain p l) {v₁ v₂ : Volume} {l' : List ℕ} (hout : Outside v v₁ (v.Room l))
    (hl' : v₁.forest.Chain p l') (hroom : ∀ x ∈ l', v.Room l x)
    (hlead : ∀ up c, v₁.LeadsTo p up c ↔ v.LeadsTo p up c) (hrun : FreeRun v₁ l' A [q] B)
    (hal : Allocated v₁ v₂ [n]) (hn : n ∈ v₁.freeClusters) (hn32 : n < 2 ^ 32) (hp32 : p < 2 ^ 32)
    {e : Entry} (he : e.Leads false n) :
    Evolves v ((v₂.setEntry q e).setData n 0 (newDirSector n p)) root (fun x c => x = p ∧ c = n)
      fun _ => False := by
  have hin := (mem_freeClusters.mp hn).1
  have hn' : ¬ v₁.Used n := not_used_of_free hn
  have hroomn : ∀ x ∈ [n], v.Room l x := fun x hx =>
    List.mem_singleton.mp hx ▸ room_of_unused hout (fun _ => id) hn'
  have hl'n : ∀ x ∈ l', ¬ x ∈ [n] := fun x hx hxn => hn' (List.mem_singleton.mp hxn ▸ hl'.2 x hx)
  have hq : q ∈ v₂.slots l' := by
    rw [slots_congr hal.sectorsPerCluster]
    exact hrun.place.mem_slots
  have hql : q.cluster ∈ l' := (mem_slots.mp hq).1
  have hqn : q.cluster ≠ n := fun heq => hl'n _ hql (by simp [heq])
  have hout₂ := hal.outside (S := (· ∈ [n])) fun _ => id
  have hl₂ := hout₂.chain hl' hl'n
  have hrun₂ : FreeRun v₂ l' A [q] B := hrun.congr hal.sectorsPerCluster fun s hs => by
    rw [entry, entry, hal.data_eq _ (hl'n _ (mem_slots.mp hs).1)]
  obtain ⟨hE, hent⟩ := setEntry_edit (v := v₂) (aligned_of_slots hq) e
  have hl₃ := hE.chain hl₂
  set v₃ := v₂.setEntry q e with hv₃
  have hout₄ : Outside v₃ (v₃.setData n 0 (newDirSector n p)) (· ∈ [n]) :=
    outside_setData (by simp) 0 _
  -- no change leaves the room of the directory at `p`, where no other directory lies
  have hall : Outside v (v₃.setData n 0 (newDirSector n p)) (v.Room l) := by
    refine ((hout.trans (hout₂.mono hroomn)).trans (hE.outside fun s hs => ?_)).trans
      (hout₄.mono hroomn)
    exact List.mem_singleton.mp hs ▸ hroom _ hql
  have hother : ∀ {x k}, v.InTree root x → x ≠ p → v.forest.Chain x k → ∀ y ∈ k, ¬ v.Room l y :=
    fun hd hne hk y hy => not_room hc hp hd hne hl hk hy
  -- the other directories are as they were; the one at `p` leads to `n` as well
  refine ⟨fun {x} hx _ => ?_, fun {x up c} hx _ => ?_, ?_, ?_, False.elim⟩
  · obtain ⟨k, hk⟩ := hx.chain hc
    by_cases hxp : x = p
    · rw [hxp]
      exact ⟨l', hout₄.chain hl₃ hl'n⟩
    · exact ⟨k, hall.chain hk (hother hx hxp hk)⟩
  · obtain ⟨k, hk⟩ := hx.chain hc
    rw [and_false, not_false_eq_true, and_true]
    by_cases hxp : x = p
    · subst hxp
      rw [hout₄.leadsTo hl₃ hl'n, hrun₂.leadsTo hE hl₂ fun s hs => ?_, hout₂.leadsTo hl' hl'n, hlead]
      · refine or_congr_right ⟨?_, ?_⟩
        · rintro ⟨s, hs, hsl⟩
          rw [List.mem_singleton.mp hs, hent] at hsl
          refine ⟨Bool.eq_false_iff.mpr fun hu => ?_, rfl, hsl.clus.symm.trans he.clus⟩
          exact absurd (he.isDot.mp (hsl.isDot.mpr hu)) (by simp)
        · rintro ⟨rfl, -, rfl⟩
          exact ⟨q, by simp, hent ▸ he⟩
      · rw [List.mem_singleton.mp hs, hent]
        exact fun hz => he.named.1 (.inl hz)
    · rw [hall.leadsTo hk (hother hx hxp hk), or_iff_left fun hh => hxp hh.2.1]
  · rintro x c ⟨rfl, rfl⟩
    exact ⟨hp, id, hin.1⟩
  · rintro x c up y ⟨rfl, rfl⟩ hy
    have hchain : v₂.forest.Chain c [c] :=
      Geometry.allocated_chain hal (fun x hx => List.mem_singleton.mp hx ▸ hin) rfl
    refine leadsTo_newDir (fun k hk => ?_) hn32 hp32 (hE.chain hchain) hy
    rw [hv₃, setEntry, setData_data, if_neg (fun h => hqn h.1.symm)]
    exact hal.data_zero c (List.mem_singleton_self c) k (hal.sectorsPerCluster ▸ hk)

/-- An entry is removed and its chain, no directory with entries, is cleared. -/
theorem Marked.evolves_clear (h : Marked v v' l A R B q) (hc : v.Consistent root)
    (hup : v.Upright root) {o : Owner ℕ DirCursor} (ho : v.forest.Owns (rootOnly root) o D true)
    (hl : v.forest.Chain D l) {b : Bool} (hq : v.forest.refs l q c b) (hk : v.forest.Chain c k)
    (hempty : b = true → ∀ r c b, ¬ v.forest.refs k r c b) :
    ∃ gone, Evolves v (v'.clear k) root (fun _ _ => False) gone ∧ ∀ x, gone x → b = true ∧ x = c := by
  have hoq := ChainForest.Owns.ref ho hl.1 hq
  have hl' := h.edit.chain hl
  have hql : q.cluster ∈ l := (mem_slots.mp (mem_slots_of_beforeEnd hq.1)).1
  have hout₂ : Outside v' (v'.clear k) (· ∈ k) := outside_clear fun _ => id
  have hout : Outside v (v'.clear k) fun x => v.Room l x ∨ x ∈ k :=
    (h.outside fun _ hx => .inl (.inl hx)).trans (hout₂.mono fun _ => .inr)
  -- the chain is apart from those of the directories that stay
  have hDk : ∀ {x j}, v.InTree root x → v.forest.Chain x j → (b = true → x ≠ c) →
      ∀ y ∈ j, ¬ y ∈ k := by
    rintro x j ⟨o', ho'⟩ hj hne y hy hyk
    obtain rfl := hc.disjoint ho' hoq hj hk hy hyk
    obtain ⟨hx, hb⟩ := hc.owns_fun ho' hoq
    exact hne hb.symm hx
  have hDne : b = true → D ≠ c := fun hb heq => by
    obtain rfl := hl.unique (heq ▸ hk)
    exact hempty hb _ _ _ hq
  have hlk := hDk ⟨o, ho⟩ hl hDne
  have hrest : ∀ {x j}, v.InTree root x → (b = true → x ≠ c) → x ≠ D → v.forest.Chain x j →
      ∀ y ∈ j, ¬ (v.Room l y ∨ y ∈ k) := fun hx hgone hne hj y hy =>
    not_or.mpr ⟨not_room hc ⟨o, ho⟩ hx hne hl hj hy, hDk hx hj hgone y hy⟩
  rcases b with _ | _
  · refine ⟨_, steadfast_of (D := D) hout ⟨_, hout₂.chain hl' hlk⟩ (fun up c => ?_) hc
      fun hx hne hj => hrest hx (by simp) hne hj, fun _ => False.elim⟩
    rw [hout₂.leadsTo hl' hlk, h.leadsTo hl, or_iff_left (Entry.not_leads_of_file hq.2.2.2.2.2)]
  · have hlead : ∀ {up x}, (v.entry q).Leads up x ↔ up = false ∧ x = c := fun {up x} =>
      ⟨fun hh => ⟨Bool.eq_false_iff.mpr fun hu => hq.2.2.1 (hh.isDot.mpr hu),
        hh.clus.symm.trans hq.2.2.2.1⟩, by
        rintro ⟨rfl, rfl⟩
        exact hq.2.leads⟩
    -- no other entry names the directory
    have huniq : ∀ {x j r}, v.InTree root x → v.forest.Chain x j → r ∈ v.beforeEnd j →
        (v.entry r).Leads false c → r = q := by
      rintro x j r ⟨o', ho'⟩ hj hr hlead
      have heq := hc.owner_unique (.ref ho' hj.1 ⟨hr, hlead.refers hq.2.2.2.2.1⟩) hoq
      injection heq
    have hnot : ¬ v'.LeadsTo D false c := by
      rw [h.stored.leadsTo hl]
      rintro (⟨r, hr, hR, hlead⟩ | ⟨r, hr, hlead⟩)
      · exact hR (by simp [huniq ⟨o, ho⟩ hl hr hlead])
      · rw [h.marked r hr] at hlead
        exact Entry.not_leads_of_free (.inr (Entry.setByte_zero _ _)) hlead
    refine ⟨fun x => x = c, ⟨fun {x} hx hgone => ?_, fun {x up y} hx hgone => ?_, False.elim,
      False.elim, fun {x y} hgone => ?_⟩, fun x hx => ⟨rfl, hx⟩⟩
    · obtain ⟨j, hj⟩ := hx.chain hc
      by_cases hxD : x = D
      · rw [hxD]
        exact ⟨l, hout₂.chain hl' hlk⟩
      · exact ⟨j, hout.chain hj (hrest hx (fun _ => hgone) hxD hj)⟩
    · obtain ⟨j, hj⟩ := hx.chain hc
      rw [and_false, or_false]
      by_cases hxD : x = D
      · subst hxD
        rw [hout₂.leadsTo hl' hlk, h.leadsTo hl, hlead]
        constructor
        · intro hh
          refine ⟨.inl hh, ?_⟩
          rintro ⟨rfl, rfl⟩
          exact hnot hh
        · exact fun ⟨hh, hne⟩ => hh.resolve_right hne
      · rw [hout.leadsTo hj (hrest hx (fun _ => hgone) hxD hj), iff_self_and]
        rintro hh ⟨rfl, rfl⟩
        obtain ⟨r, hr, hlead⟩ := (leadsTo_iff hj).mp hh
        obtain rfl := huniq hx hj hr hlead
        exact not_room hc ⟨o, ho⟩ hx hxD hl hj (mem_slots.mp (mem_slots_of_beforeEnd hr)).1 (.inl hql)
    · obtain rfl : x = c := hgone
      refine ⟨fun hroot => not_root_of_ref hc hoq ⟨hroot, rfl⟩, fun hh => ?_⟩
      have hy2 := hup.down ⟨_, hoq⟩ hh
      obtain ⟨r, hr, hlead⟩ := (leadsTo_iff hk).mp hh
      exact hempty rfl _ _ _ ⟨hr, hlead.refers hy2⟩

end Volume

end PsychWard.Fat32
