import PsychWard.Fat32.CdSpec
import PsychWard.Fat32.NamedEntry

/-!
# Down into new directories and back up

`mkdir` writes the cluster of the parent into the second entry of the new directory, and `cd ..` reads
it there. `LeadsUp` says that a directory has that entry. A later `mkdir` stores over free slots and
free clusters only, so it keeps all of them (`Kept`), and as many `cd ..` as there were descents come
back through the same clusters (`ascend_of_descend`).
-/

namespace PsychWard.Fat32

namespace Volume

variable {v v' v'' : Volume} {root c n p : ℕ} {k l m : List ℕ} {q s : DirCursor}

/-! ## What storing over free places keeps -/

/-- Nothing that is in use in `v` is stored over in `v'`, and every chain still ends. -/
structure Kept (v v' : Volume) : Prop where
  used : ∀ {c}, v.Used c → v'.Used c
  chain : ∀ {c l}, v.forest.Chain c l → ∃ l', v'.forest.Chain c l'
  entry : ∀ {s : DirCursor}, v.Used s.cluster → (∃ k < 16, s.offsetInSector = 32 * k) →
    ¬ (v.entry s).IsFree → v'.entry s = v.entry s

namespace Kept

theorem refl (v : Volume) : Kept v v := ⟨id, fun h => ⟨_, h⟩, fun _ _ _ => rfl⟩

theorem trans (h : Kept v v') (h' : Kept v' v'') : Kept v v'' where
  used hu := h'.used (h.used hu)
  chain hl := by
    obtain ⟨l', hl'⟩ := h.chain hl
    exact h'.chain hl'
  entry hu hs hfree := by
    have heq := h.entry hu hs hfree
    rw [h'.entry (h.used hu) hs (heq ▸ hfree), heq]

end Kept

/-- An entry in a free slot. -/
theorem Edit.kept (h : Edit v v' [q]) (hq : (v.entry q).IsFree) : Kept v v' where
  used hu := (h.used _).mpr hu
  chain hl := ⟨_, h.chain hl⟩
  entry _ hs hfree := h.entry_eq _ hs fun hmem => hfree (List.mem_singleton.mp hmem ▸ hq)

theorem Allocated.kept (h : Allocated v v' m) (hm : m ⊆ v.freeClusters) : Kept v v' := by
  have hout : ∀ {x}, v.Used x → x ∉ m := fun hu hx => not_used_of_free (hm hx) hu
  refine ⟨fun {c} hu => ?_, fun hl => ⟨_, h.chain hm hl⟩, fun hu _ _ => ?_⟩
  · rw [Used, InRange, h.clusters, h.fat_eq c (hout hu)]
    exact hu
  · rw [entry, entry, h.data_eq _ (hout hu)]

/-- A chain whose last cluster is that of `k` before the directory grows. -/
theorem Grown.chain_prefix (h : Grown v v' k n) (hl : v.forest.Chain c (k ++ m)) (hk : k ≠ []) :
    v'.forest.Chain c (k ++ [n]) := by
  have hin := (mem_freeClusters.mp h.free).1
  have hused : ∀ x ∈ k, v.Used x := fun x hx => hl.2 x (List.mem_append_left _ hx)
  refine ⟨Walk.redirect (show Walk v.next c (k ++ m) from hl.1) hk (fun x hx hlast => ?_)
    (fun x hlast => h.next_last hlast) h.next_new, fun x hx => ?_⟩
  · show v'.next x = v.next x
    rw [next, next, h.fat_eq x (h.ne_of_used (hused x hx)) hlast]
  · show v'.Used x
    rw [Used, InRange, h.clusters]
    rcases List.mem_append.mp hx with hx | hx
    · by_cases hlast : k.getLast? = some x
      · have h2 := h.two_le
        rw [h.fat_last x hlast]
        exact ⟨(hused x hx).1, by omega⟩
      · rw [h.fat_eq x (h.ne_of_used (hused x hx)) hlast]
        exact hused x hx
    · rw [List.mem_singleton.mp hx]
      exact ⟨hin, h.fat_new⟩

theorem Grown.kept (h : Grown v v' k n) : Kept v v' := by
  refine ⟨fun {x} hu => ?_, fun {c l} hl => ?_, fun {s} hu _ _ => h.entry_eq (h.ne_of_used hu)⟩
  · rw [Used, InRange, h.clusters]
    by_cases hlast : k.getLast? = some x
    · have h2 := h.two_le
      rw [h.fat_last x hlast]
      exact ⟨hu.1, by omega⟩
    · rw [h.fat_eq x (h.ne_of_used hu) hlast]
      exact hu
  · by_cases hlast : ∃ x ∈ l, k.getLast? = some x
    · -- the chain ends with the cluster that got a successor, or it is cut off there
      obtain ⟨x, hx, hlast⟩ := hlast
      obtain ⟨A, B, rfl⟩ := List.append_of_mem hx
      have hgl : (A ++ [x]).getLast? = k.getLast? := by rw [List.getLast?_concat, hlast]
      have hg : Grown v v' (A ++ [x]) n :=
        ⟨h.clusters, h.sectorsPerCluster, h.free, h.small, fun y hy hne => h.fat_eq y hy (hgl ▸ hne),
          fun y hy => h.fat_last y (hgl ▸ hy), h.fat_new, h.next_new, h.data_eq, h.data_zero⟩
      exact ⟨_, hg.chain_prefix (m := B) (by simpa using hl) (by simp)⟩
    · refine ⟨l, chain_congr hl h.clusters fun x hx => ?_⟩
      exact h.fat_eq x (h.ne_of_used (hl.2 x hx)) fun hx' => hlast ⟨x, hx, hx'⟩

/-- A sector of a cluster that was free. -/
theorem Kept.setData (h : Kept v v') (hn : ¬ v.Used n) (i : ℕ) (b : Block) :
    Kept v (v'.setData n i b) := by
  refine ⟨fun hu => h.used hu, fun hl => ?_, fun {r} hu hr hfree => ?_⟩
  · obtain ⟨l', hl'⟩ := h.chain hl
    exact ⟨l', chain_congr hl' rfl fun _ _ => rfl⟩
  · rw [setData_entry, if_neg, h.entry hu hr hfree]
    rintro ⟨rfl, -⟩
    exact hn hu

/-! ## The entry of the parent -/

/-- The first two slots of a cluster. -/
theorem slots_cons (hspc : 0 < v.sectorsPerCluster) (c : ℕ) (l : List ℕ) :
    ∃ T, v.slots (c :: l) = ⟨c, 0, 32 * 0⟩ :: ⟨c, 0, 32 * 1⟩ :: T := by
  obtain ⟨j, hj⟩ : ∃ j, v.sectorsPerCluster = j + 1 :=
    ⟨v.sectorsPerCluster - 1, (Nat.sub_add_cancel hspc).symm⟩
  rw [slots, List.flatMap_cons, hj, clusterSlots, List.range_succ_eq_map (n := j),
    List.flatMap_cons, List.range_succ_eq_map (n := 15), List.range_succ_eq_map (n := 14)]
  exact ⟨_, rfl⟩

/-- The directory at `c`, not the root, whose second entry is that of the parent `p`. -/
structure LeadsUp (v : Volume) (root c p : ℕ) : Prop where
  ne_root : c ≠ root
  chain : ∃ l, v.forest.Chain c l
  self : v.entry ⟨c, 0, 32 * 0⟩ = shortEntry (padBlank 11 [dot]) 0x10 c 0
  parent : v.entry ⟨c, 0, 32 * 1⟩ = shortEntry (padBlank 11 [dot, dot]) 0x10 p 0

theorem not_isFree_dot {name : List UInt8} (h : name.getD 0 0 = dot) (c : ℕ) :
    ¬ (shortEntry name 0x10 c 0).IsFree := by
  rw [Entry.IsFree, shortEntry_zero, h]
  decide

theorem LeadsUp.kept (h : LeadsUp v root c p) (hk : Kept v v') : LeadsUp v' root c p := by
  obtain ⟨l, hl⟩ := h.chain
  have hu : v.Used c := hl.2 c hl.1.mem_head
  refine ⟨h.ne_root, hk.chain hl, ?_, ?_⟩
  · rw [hk.entry hu ⟨0, by decide, rfl⟩ (by rw [h.self]; exact not_isFree_dot rfl c), h.self]
  · rw [hk.entry hu ⟨1, by decide, rfl⟩ (by rw [h.parent]; exact not_isFree_dot rfl p), h.parent]

/-! ## Searches after a store -/

/-- Behind named entries no long name is pending. -/
theorem lfnAfter_of_named {A : List DirCursor} (hA : ∀ a ∈ A, (v.entry a).IsNamed) :
    v.lfnAfter A = .clear := by
  induction A using List.reverseRecOn with
  | nil => rfl
  | append_singleton A a ih =>
    have hrest := ih fun b hb => hA b (List.mem_append_left _ hb)
    exact lfnAfter_named (hA a (by simp)) (.inr hrest)

/-- Where the slot `q` was free, a search that found nothing finds nothing but what is stored
there. -/
theorem firstCarrier_store {A B : List DirCursor} {t : CString} (hA : ∀ a ∈ A, v.entry a 0 ≠ 0)
    (hclear : v.lfnAfter A = .clear) (hfree : (v.entry q).IsFree)
    (hzero : v.entry q 0 = 0 → ∀ b ∈ B, v.entry b 0 = 0)
    (hnone : v.firstCarrier lfnStep t .clear (A ++ q :: B) = none)
    (hattr : (v'.entry q).attr ≠ 0x0F) (hsame : ∀ s ∈ A ++ B, v'.entry s = v.entry s) {r : DirCursor}
    (hr : v'.firstCarrier lfnStep t .clear (A ++ q :: B) = some r) : r = q := by
  have hsameA : ∀ a ∈ A, v'.entry a = v.entry a := fun a ha => hsame a (List.mem_append_left _ ha)
  have hsameB : ∀ b ∈ B, v'.entry b = v.entry b := fun b hb => hsame b (List.mem_append_right _ hb)
  have hbuf' : A.foldl (fun buf a => lfnStep buf (v'.entry a)) .clear = .clear :=
    (bufferAfter_congr hsameA).trans hclear
  have hbuf : A.foldl (fun buf a => lfnStep buf (v.entry a)) .clear = .clear := hclear
  have hgo : v.firstCarrier lfnStep t .clear (q :: B) = v.firstCarrier lfnStep t .clear B :=
    firstCarrier_free (R := [q]) (fun x hx => List.mem_singleton.mp hx ▸ hfree)
      fun ⟨x, hx, h0⟩ => hzero (List.mem_singleton.mp hx ▸ h0)
  rw [firstCarrier_append_or hA, hbuf, hgo, Option.or_eq_none_iff] at hnone
  have hA' : ∀ a ∈ A, v'.entry a 0 ≠ 0 := fun a ha => by
    rw [hsameA a ha]
    exact hA a ha
  rw [firstCarrier_append_or hA', firstCarrier_congr hsameA, hnone.1, hbuf', Option.none_or,
    firstCarrier] at hr
  split at hr
  · cases hr
  · split at hr
    · exact (Option.some.inj hr).symm
    · -- the entry leaves the buffer empty
      have hstep : lfnStep .clear (v'.entry q) = .clear := by
        rw [lfnStep, if_neg hattr]
        split
        · rfl
        · split
          · rfl
          · exact ite_self _
      rw [hstep, firstCarrier_congr hsameB, hnone.2] at hr
      cases hr

end Volume

open Volume

/-! ## `mkdir` -/

/-- `w` is `v` with the slot `q` of the directory at `c`, now of the clusters `l`, ready for the entry
of a name that searches do not find. -/
structure SlotTaken (v w : Volume) (c : ℕ) (l : List ℕ) (q : DirCursor) (name : CString) : Prop where
  kept : Kept v w
  chain : w.forest.Chain c l
  mem : q ∈ w.slots l
  free : (w.entry q).IsFree
  search : ∀ v' : Volume, v'.sectorsPerCluster = w.sectorsPerCluster →
    (∀ s ∈ w.slots l, s ≠ q → v'.entry s = w.entry s) → (v'.entry q).attr ≠ 0x0F →
      ∀ {r}, v'.firstCarrier lfnStep name .clear (v'.walked l) = some r → r = q

namespace Geometry

variable {fs : Fat32Instance} (g : Geometry fs) {d d₀ d' : Disk} {l : List ℕ} {c p : ℕ}
  {path name : CString} {q : DirCursor} {slot : DirSlot}

include g

/-- The slot of the walked part, or the first one of a new cluster behind it. -/
theorem takeSlot_taken (hl : (volume fs d).forest.Chain c l) (hok : (volume fs d).SlotsOk l)
    (hr : ScanResult fs (volume fs d) name l slot) (hnone : slot.found = none)
    (hsearch : (volume fs d).firstCarrier lfnStep name .clear ((volume fs d).walked l) = none)
    {pos : ℕ × ℕ} (htake : takeSlot fs d slot = (some pos, d₀)) :
    ∃ q l', pos = (dirCursorSector fs q, q.offsetInSector) ∧
      SlotTaken (volume fs d) (volume fs d₀) c l' q name := by
  rw [takeSlot] at htake
  rcases free_cases hr hnone with ⟨A, q, B, hw, hA, hq, hfree⟩ | ⟨hfree, hall, hlast⟩
  · rw [hfree] at htake
    obtain ⟨hpos, rfl⟩ := Prod.mk.inj htake
    have hslots : (volume fs d).slots l =
        A ++ q :: (B ++ (volume fs d).slots (l.drop walkLimit)) := by
      rw [slots_eq_walked_append, hw]
      simp
    have hA0 : ∀ a ∈ A, (volume fs d).entry a 0 ≠ 0 := fun a ha h0 => hA a ha (.inl h0)
    have hclear : (volume fs d).lfnAfter A = .clear := by
      refine hok.lfn A _ hslots hA0 fun x hx => ?_
      obtain rfl := Option.some.inj hx
      exact hq
    have hzero : (volume fs d).entry q 0 = 0 → ∀ b ∈ B, (volume fs d).entry b 0 = 0 := by
      intro h0 b hb
      rw [hok.zero A q _ hslots h0 b (List.mem_append_left _ hb)]
      rfl
    have hnd : ((volume fs d).walked l).Nodup := nodup_walked hl.1.nodup
    rw [hw, List.nodup_append, List.nodup_cons] at hnd
    refine ⟨q, l, (Option.some.inj hpos).symm, .refl _, hl, by rw [hslots]; simp, hq, ?_⟩
    intro v' hspc hsame hattr r hr
    have hwalked : v'.walked l = A ++ q :: B := by
      rw [walked, slots_congr hspc, ← walked, hw]
    rw [hwalked] at hr
    refine firstCarrier_store hA0 hclear hq hzero (hw ▸ hsearch) hattr (fun s hs => ?_) hr
    have hmem : s ∈ (volume fs d).slots l := by
      rw [hslots]
      rcases List.mem_append.mp hs with hs | hs <;> simp [hs]
    refine hsame s hmem ?_
    rintro rfl
    rcases List.mem_append.mp hs with hs | hs
    · exact hnd.2.2 s hs s List.mem_cons_self rfl
    · exact hnd.2.1.1 hs
  · rw [hfree, hlast] at htake
    set k := l.take walkLimit with hk
    have hne : k ≠ [] := by
      rw [hk, Ne, List.take_eq_nil_iff, not_or]
      exact ⟨by decide, hl.1.ne_nil⟩
    have hused : ∀ x ∈ k, (volume fs d).Used x := fun x hx => hl.2 x (List.mem_of_mem_take hx)
    obtain ⟨r, d₁, hgrow, -, ⟨-, rfl, -⟩ | ⟨n, rest, hfr, rfl, hgr⟩⟩ :=
      g.dirGrow_of_used hused hne 0
    · simp only [hgrow] at htake
      cases htake
    simp only [hgrow] at htake
    obtain ⟨hpos, rfl⟩ := Prod.mk.inj htake
    have hin : 2 ≤ n ∧ n < fs.clusters := (mem_freeClusters.mp hgr.free).1
    have hsec : (clusterToSector fs n, 0) = (dirCursorSector fs ⟨n, 0, 0⟩, 0) := by
      rw [dirCursorSector, g.sector_eq hin g.sectors_pos, g.clusterToSector_eq hin]
    obtain ⟨T, hT⟩ := hgr.slot_new g.sectors_pos
    have hnew : (volume fs d₁).slots [n] = ⟨n, 0, 0⟩ :: T := by
      rw [slots_append, slots_congr hgr.sectorsPerCluster] at hT
      exact List.append_cancel_left hT
    have hentry : ∀ s ∈ (volume fs d).slots k, (volume fs d₁).entry s = (volume fs d).entry s ∧
        s ≠ ⟨n, 0, 0⟩ := by
      intro s hs
      have hsn := hgr.ne_of_used (hused _ (mem_slots.mp hs).1)
      exact ⟨hgr.entry_eq hsn, fun h => hsn (by rw [h])⟩
    have hzero : ∀ s ∈ (⟨n, 0, 0⟩ : DirCursor) :: T, (volume fs d₁).entry s = Entry.zero :=
      fun s hs => hgr.entry_new (hnew ▸ hs)
    have hchain : (volume fs d₁).forest.Chain c (k ++ [n]) :=
      hgr.chain_prefix (m := l.drop walkLimit) (by rw [hk, List.take_append_drop]; exact hl) hne
    refine ⟨⟨n, 0, 0⟩, k ++ [n], (Option.some.inj hpos).symm.trans hsec, hgr.kept, hchain, ?_, ?_, ?_⟩
    · rw [hT]
      simp
    · rw [hzero _ List.mem_cons_self]
      exact .inl rfl
    intro v' hspc hsame hattr r hr
    have hwk : v'.walked k = (volume fs d).slots k := by
      rw [walked, hk, List.take_take, Nat.min_self, ← hk,
        slots_congr (hspc.trans hgr.sectorsPerCluster)]
    have hkeep : ∀ a ∈ (volume fs d).slots k, v'.entry a = (volume fs d₁).entry a := fun a ha =>
      hsame a (by rw [hT]; exact List.mem_append_left _ ha) (hentry a ha).2
    have hsearch₁ : (volume fs d₁).firstCarrier lfnStep name .clear ((volume fs d).slots k) = none :=
      (firstCarrier_congr (fun a ha => (hentry a ha).1) _).trans hsearch
    rw [walked_append, hwk] at hr
    by_cases hfar : walkLimit - k.length = 0
    · -- the walks do not get to the new cluster
      rw [hfar, List.take_zero, show v'.slots [] = [] from rfl, List.append_nil,
        firstCarrier_congr hkeep, hsearch₁] at hr
      cases hr
    · have hlk : l = k := by
        rw [hk, List.length_take] at hfar
        rw [hk, List.take_of_length_le (by omega)]
      have hfull := firstFree_eq_none.mp hall
      have hused₁ : ∀ a ∈ (volume fs d).slots k, (volume fs d₁).entry a 0 ≠ 0 := fun a ha h0 => by
        rw [(hentry a ha).1] at h0
        exact hfull a ha (.inl h0)
      have hclear : (volume fs d₁).lfnAfter ((volume fs d).slots k) = .clear := by
        refine (bufferAfter_congr fun a ha => (hentry a ha).1).trans ?_
        refine hok.lfn _ [] (by rw [List.append_nil, hlk]) (fun a ha h0 => ?_) (by simp)
        exact hfull a ha (.inl h0)
      rw [List.take_of_length_le (by rw [List.length_singleton]; omega),
        slots_congr hspc, hnew] at hr
      refine firstCarrier_store hused₁ hclear (hzero _ List.mem_cons_self ▸ .inl rfl)
        (fun _ b hb => ?_) ?_ hattr (fun s hs => ?_) hr
      · rw [hzero b (List.mem_cons_of_mem _ hb)]
        rfl
      · rw [firstCarrier_append_zero fun b hb => by rw [hzero b hb]; rfl]
        exact hsearch₁
      · rcases List.mem_append.mp hs with hs | hs
        · exact hkeep s hs
        · refine hsame s (by rw [hT]; simp [hs]) ?_
          rintro rfl
          have hnd := (volume fs d₁).nodup_slots (List.nodup_singleton n)
          rw [hnew] at hnd
          exact (List.nodup_cons.mp hnd).1 hs

end Geometry

/-- `d'` is `d` with the directory at `e` created under a name in the directory at `p`. -/
structure NewDir (fs : Fat32Instance) (d d' : Disk) (p : ℕ) (name : CString) (e : ℕ) : Prop where
  kept : Kept (volume fs d) (volume fs d')
  unused : ¬ (volume fs d).Used e
  chain : (volume fs d').forest.Chain e [e]
  self : (volume fs d').entry ⟨e, 0, 32 * 0⟩ = shortEntry (padBlank 11 [dot]) 0x10 e 0
  parent : (volume fs d').entry ⟨e, 0, 32 * 1⟩ = shortEntry (padBlank 11 [dot, dot]) 0x10 p 0
  slotsOk : (volume fs d').SlotsOk [e]
  enter : ∀ c, enter fs d' p name = some c → c = e

/-- The first entries of a new directory are in order. -/
theorem slotsOk_newDir {v : Volume} {e p : ℕ} (hspc : 0 < v.sectorsPerCluster)
    (hself : v.entry ⟨e, 0, 32 * 0⟩ = shortEntry (padBlank 11 [dot]) 0x10 e 0)
    (hparent : v.entry ⟨e, 0, 32 * 1⟩ = shortEntry (padBlank 11 [dot, dot]) 0x10 p 0)
    (hrest : ∀ s ∈ v.slots [e], s ≠ ⟨e, 0, 32 * 0⟩ → s ≠ ⟨e, 0, 32 * 1⟩ → v.entry s = Entry.zero) :
    v.SlotsOk [e] := by
  obtain ⟨T, hT⟩ := slots_cons hspc e []
  have hnd := v.nodup_slots (List.nodup_singleton e)
  rw [hT, List.nodup_cons, List.nodup_cons, List.mem_cons, not_or] at hnd
  have hnamed : ∀ a ∈ [(⟨e, 0, 32 * 0⟩ : DirCursor), ⟨e, 0, 32 * 1⟩], (v.entry a).IsNamed := by
    intro a ha
    rcases List.mem_pair.mp ha with rfl | rfl
    · rw [hself]
      exact ⟨not_isFree_dot rfl e, by rw [shortEntry_attr]; decide⟩
    · rw [hparent]
      exact ⟨not_isFree_dot rfl p, by rw [shortEntry_attr]; decide⟩
  refine slotsOk_of_used [⟨e, 0, 32 * 0⟩, ⟨e, 0, 32 * 1⟩] T (by rw [hT]; rfl)
    (fun a ha h0 => (hnamed a ha).1 (.inl h0)) (fun s hs => ?_) fun A B hAB _ => ?_
  · refine hrest s (by rw [hT]; simp [hs]) ?_ ?_
    · rintro rfl
      exact hnd.1.2 hs
    · rintro rfl
      exact hnd.2.1 hs
  · exact lfnAfter_of_named fun a ha => hnamed a (by rw [hAB]; exact List.mem_append_left _ ha)

namespace Geometry

variable {fs : Fat32Instance} (g : Geometry fs) {d d₀ d₁ d' : Disk} {l : List ℕ} {c e p : ℕ}
  {path name : CString} {q : DirCursor} {slot : DirSlot}

include g

/-- The writes of `mkdir` behind the choice of the slot. -/
theorem newDir_of_taken (hroot : 2 ≤ fs.rootCluster) (hdots : name ≠ [dot, dot])
    (h0 : 0 ∉ name) (htaken : SlotTaken (volume fs d) (volume fs d₀) (dirHead fs p) l q name)
    (hal : Allocated (volume fs d₀) (volume fs d₁) [e]) (he : e ∈ (volume fs d₀).freeClusters)
    (hd' : volume fs d' = ((volume fs d₁).setEntry q
      (shortEntry (formatFat32Name name) 0x10 e 0)).setData e 0 (newDirSector e p)) :
    NewDir fs d d' p name e := by
  set ent := shortEntry (formatFat32Name name) 0x10 e 0 with hent
  have hsub : [e] ⊆ (volume fs d₀).freeClusters := by simpa using he
  have hin := (mem_freeClusters.mp he).1
  have hfree₀ : ¬ (volume fs d₀).Used e := not_used_of_free he
  have hne : ∀ s ∈ (volume fs d₀).slots l, s.cluster ≠ e := by
    rintro s hs rfl
    exact hfree₀ (htaken.chain.2 _ (mem_slots.mp hs).1)
  have hqe := hne q htaken.mem
  have hal' := aligned_of_slots htaken.mem
  obtain ⟨hedit, hself⟩ := setEntry_edit (v := volume fs d₁) hal' ent
  have hentry₁ : ∀ s ∈ (volume fs d₀).slots l, (volume fs d₁).entry s = (volume fs d₀).entry s := by
    intro s hs
    rw [Volume.entry, Volume.entry, hal.data_eq _ (by simpa using hne s hs)]
  have hfree₁ : ((volume fs d₁).entry q).IsFree := by
    rw [hentry₁ q htaken.mem]
    exact htaken.free
  have hl₁ : (volume fs d₁).forest.Chain (dirHead fs p) l := hal.chain hsub htaken.chain
  have hkept : Kept (volume fs d₀) (volume fs d') := by
    rw [hd']
    exact ((hal.kept hsub).trans (hedit.kept hfree₁)).setData hfree₀ 0 _
  obtain ⟨e₀, e₁, e₂⟩ := newDirSector_entry e p
  have hfirst : (volume fs d').entry ⟨e, 0, 32 * 0⟩ = shortEntry (padBlank 11 [dot]) 0x10 e 0 := by
    rw [hd', setData_entry, if_pos ⟨rfl, rfl⟩, e₀]
  have hsecond : (volume fs d').entry ⟨e, 0, 32 * 1⟩ =
      shortEntry (padBlank 11 [dot, dot]) 0x10 p 0 := by
    rw [hd', setData_entry, if_pos ⟨rfl, rfl⟩, e₁]
  refine ⟨htaken.kept.trans hkept, fun hu => hfree₀ (htaken.kept.used hu), ?_, hfirst, hsecond, ?_, ?_⟩
  · have hchain : (volume fs d₁).forest.Chain e [e] :=
      allocated_chain hal (fun x hx => List.mem_singleton.mp hx ▸ hin) rfl
    rw [hd']
    exact chain_congr hchain rfl fun _ _ => rfl
  -- every other slot of the new cluster is zero: those of the first sector by what was written, the
  -- rest because the allocation cleared the cluster
  · refine slotsOk_newDir g.sectors_pos hfirst hsecond fun s hs hs₀ hs₁ => ?_
    obtain ⟨sc, ss, so⟩ := s
    obtain ⟨hse, hss, k, hk, hso⟩ := mem_slots.mp hs
    simp only at hss hso
    obtain rfl : sc = e := List.mem_singleton.mp hse
    subst hso
    rw [hd', setData_entry]
    split
    · rename_i hsector
      obtain rfl : ss = 0 := hsector.2
      refine e₂ k ?_
      by_contra hle
      obtain rfl | rfl : k = 0 ∨ k = 1 := by omega
      · exact hs₀ rfl
      · exact hs₁ rfl
    · have hsq : (⟨sc, ss, 32 * k⟩ : DirCursor) ∉ [q] := fun h =>
        hqe (congrArg DirCursor.cluster (List.mem_singleton.mp h)).symm
      rw [hedit.entry_eq _ ⟨k, hk, rfl⟩ hsq, Volume.entry,
        hal.data_zero sc List.mem_cons_self ss hss, Block.entry_zero]
  · intro a ha
    obtain ⟨hfind, rfl⟩ := enter_eq_some ha
    have hno : ¬ RootDots fs p name := fun h => hdots ((myStrcmp_eq_zero h0 (by decide)).mp h.1)
    have hl' : (volume fs d').forest.Chain (dirHead fs p) l := by
      rw [hd']
      exact chain_congr (hedit.chain hl₁) rfl fun _ _ => rfl
    have hentry : ∀ s ∈ (volume fs d₀).slots l, (volume fs d').entry s =
        ((volume fs d₁).setEntry q ent).entry s := by
      intro s hs
      rw [hd', setData_entry, if_neg fun h => hne s hs h.1]
    have hstored : (volume fs d').entry q = ent := (hentry q htaken.mem).trans hself
    -- the search finds the slot that was taken, since it was the first free one and carries the
    -- name
    rw [fat32FindInDir_eq hroot hno, g.lookup_eq_firstCarrier hl'] at hfind ⊢
    rcases hr : (volume fs d').firstCarrier lfnStep name .clear ((volume fs d').walked l) with _ | r
    · rw [hr] at hfind
      exact absurd rfl hfind
    · obtain rfl : r = q := by
        refine htaken.search (volume fs d') rfl (fun s hs hsq => ?_) ?_ hr
        · rw [hentry s hs, hedit.entry_eq s (aligned_of_slots hs) (by simpa using hsq), hentry₁ s hs]
        · rw [hstored, hent, shortEntry_attr]
          decide
      have he32 : e < 2 ^ 32 := lt_trans (g.lt_two_pow hin.2) (by decide)
      simp only [Option.map_some, Option.getD_some]
      rw [hstored, hent, shortEntry_clus _ _ _ _ he32, orRoot, if_neg (by have := hin.1; omega)]

/-- A `mkdir` that succeeds has created a directory. -/
theorem newDir_of_mkdir (hroot : 2 ≤ fs.rootCluster)
    (hl : (volume fs d).forest.Chain (dirHead fs p) l) (hok : (volume fs d).SlotsOk l)
    (hdots : name ≠ [dot, dot]) (h0 : 0 ∉ name) (hres : resolveTarget fs d path = some (p, name))
    (hmk : (fat32Mkdir fs d path).1 = true) :
    ∃ e, NewDir fs d (fat32Mkdir fs d path).2 p name e := by
  obtain ⟨slot, hscan, hr⟩ := g.dirScan_spec (p := orRoot fs p) rfl hl name
  have hlook : lookup fs d p name = slot.found := by
    rw [lookup, hscan, Option.bind_some]
  rw [fat32Mkdir, hres] at hmk ⊢
  simp only [hscan] at hmk ⊢
  rcases hf : slot.found with _ | found
  · have hsearch : (volume fs d).firstCarrier lfnStep name .clear ((volume fs d).walked l) = none := by
      rw [hf, g.lookup_eq_firstCarrier hl] at hlook
      exact Option.map_eq_none_iff.mp hlook
    rcases htake : takeSlot fs d slot with ⟨_ | pos, d₀⟩
    · simp only [hf, htake] at hmk
      cases hmk
    obtain ⟨q, l', rfl, htaken⟩ := g.takeSlot_taken hl hok hr hf hsearch htake
    obtain ⟨e, d₁, halloc, -, hsome, hfew⟩ := g.fatAllocChain_spec 1 d₀
    simp only [hf, htake, halloc, Option.isSome_none, Bool.false_eq_true, if_false, g.read,
      g.write] at hmk ⊢
    by_cases he : e = 0
    · rw [if_pos he] at hmk
      cases hmk
    rw [if_neg he]
    rcases hfree : (volume fs d₀).freeClusters with _ | ⟨n, rest⟩
    · exact absurd (hfew (by simp [hfree])).1 he
    obtain ⟨heq, hal⟩ := hsome (by simp [hfree])
    rw [hfree] at heq hal
    obtain rfl : e = n := by simpa using heq
    have hmem : e ∈ (volume fs d₀).freeClusters := by simp [hfree]
    have hin := (mem_freeClusters.mp hmem).1
    have hl₁ : (volume fs d₁).forest.Chain (dirHead fs p) l' :=
      hal.chain (by simpa using hmem) htaken.chain
    have hq₁ : q ∈ (volume fs d₁).slots l' := by
      rw [slots_congr hal.sectorsPerCluster]
      exact htaken.mem
    refine ⟨e, g.newDir_of_taken hroot hdots h0 htaken hal hmem ?_⟩
    rw [g.clusterToSector_eq hin, g.volume_write_data hin g.sectors_pos,
      g.volume_write_slot hl₁.2 hq₁, g.block_eq hl₁.2 hq₁]
    rfl
  · simp only [hf, Option.isSome_some, if_true] at hmk
    cases hmk

/-- The parent's entry is the one that `..` finds. -/
theorem enter_parent (hroot : 2 ≤ fs.rootCluster)
    (h : LeadsUp (volume fs d) fs.rootCluster c p) (hp : 2 ≤ p ∧ p < fs.clusters) :
    enter fs d c [dot, dot] = some p := by
  obtain ⟨l, hl⟩ := h.chain
  have hc : (volume fs d).Used c := hl.2 c hl.1.mem_head
  have hc2 : 2 ≤ c := hc.1.1
  have hp28 := g.lt_two_pow hp.2
  have hhead : dirHead fs c = c := dirHead_of_two_le hc2
  have hno : ¬ RootDots fs c [dot, dot] := by
    rintro ⟨-, h' | h'⟩
    · exact h.ne_root h'
    · omega
  obtain ⟨t, rfl⟩ := hl.1.eq_cons
  obtain ⟨T, hT⟩ := slots_cons (v := volume fs d) g.sectors_pos c (t.take (walkLimit - 1))
  have hw : (volume fs d).walked (c :: t) = ⟨c, 0, 32 * 0⟩ :: ⟨c, 0, 32 * 1⟩ :: T := hT
  have hself := h.self
  have hparent := h.parent
  have hnamed : ∀ (name : List UInt8) (e : ℕ), name.getD 0 0 = dot →
      (shortEntry name 0x10 e 0).IsNamed := fun name e hname =>
    ⟨not_isFree_dot hname e, by rw [shortEntry_attr]; decide⟩
  -- `.` and `..` come first, and only the second one is called so
  have hsearch : (volume fs d).firstCarrier lfnStep [dot, dot] .clear
      ((volume fs d).walked (c :: t)) = some ⟨c, 0, 32 * 1⟩ := by
    have hmiss : ¬ entryMatches .clear (shortEntry (padBlank 11 [dot]) 0x10 c 0) [dot, dot] = true := by
      rw [entryMatches, if_neg (by simp [LfnBuf.clear]), shortEntry_name _ _ _ _ rfl]
      decide
    have hhit : entryMatches .clear (shortEntry (padBlank 11 [dot, dot]) 0x10 p 0) [dot, dot] = true := by
      rw [entryMatches, if_neg (by simp [LfnBuf.clear]), shortEntry_name _ _ _ _ rfl]
      decide
    have hdot := hnamed (padBlank 11 [dot]) c rfl
    have hdots := hnamed (padBlank 11 [dot, dot]) p rfl
    rw [hw, firstCarrier, hself, if_neg fun h0 => hdot.1 (.inl h0), if_neg fun hm => hmiss hm.2,
      lfnStep_of_named _ hdot, ite_self, firstCarrier, hparent,
      if_neg fun h0 => hdots.1 (.inl h0), if_pos ⟨hdots, hhit⟩]
  have hfind : fat32FindInDir fs d c [dot, dot] = p := by
    have hl' : (volume fs d).forest.Chain (dirHead fs c) (c :: t) := by
      rw [hhead]
      exact hl
    rw [fat32FindInDir_eq hroot hno, g.lookup_eq_firstCarrier hl', hsearch]
    simp only [Option.map_some, Option.getD_some, hparent]
    exact shortEntry_clus _ _ _ _ (lt_trans hp28 (by decide))
  have hnot : p ≠ notFound := by
    rw [notFound]
    omega
  rw [enter, hfind]
  simp only [hnot, if_false, orRoot, if_neg (show ¬ p = 0 by omega)]

end Geometry

/-! ## Down and up -/

/-- A name for a directory: 1 to 63 bytes without a slash, and neither `.` nor `..`. -/
def DirName :=
  { t : CString // t ≠ [] ∧ t.length ≤ 63 ∧ 0 ∉ t ∧ slash ∉ t ∧ t ≠ [dot] ∧ t ≠ [dot, dot] }

/-- The name as a path. -/
def DirName.path (t : DirName) : Path := ⟨t.1, t.2.2.1, t.2.2.2.1⟩

/-- The path `..`. -/
def upPath : Path := ⟨[dot, dot], by decide⟩

namespace Mounted

/-- `mkdir` and `cd` of each name: the directories that are left, and the state at the end. -/
def descend (s : Mounted) : List DirName → Option (List ℕ × Mounted)
  | [] => some ([], s)
  | t :: ts =>
    match s.call (.mkdir t.path) with
    | (false, _) => none
    | (true, s₁) =>
      match s₁.call (.cd t.path) with
      | (false, _) => none
      | (true, s₂) => (descend s₂ ts).map fun r => (s.fs.currentDirCluster :: r.1, r.2)

/-- `cd ..` a number of times: the directories that are reached, and the state at the end. -/
def ascend (s : Mounted) : ℕ → Option (List ℕ × Mounted)
  | 0 => some ([], s)
  | k + 1 =>
    match s.call (.cd upPath) with
    | (false, _) => none
    | (true, s₁) => (ascend s₁ k).map fun r => (s₁.fs.currentDirCluster :: r.1, r.2)

/-- The current directory is one of the tree. -/
def InTree (s : Mounted) : Prop :=
  ∃ o, (volume s.fs s.disk).forest.Owns (rootOnly s.fs.rootCluster) o s.fs.currentDirCluster true

/-- One more `cd ..` at the end. -/
theorem ascend_succ {s t u : Mounted} {k : ℕ} {cs : List ℕ} (h : s.ascend k = some (cs, t))
    (hup : t.call (.cd upPath) = (true, u)) :
    s.ascend (k + 1) = some (cs ++ [u.fs.currentDirCluster], u) := by
  induction k generalizing s cs with
  | zero =>
    obtain ⟨rfl, rfl⟩ := Prod.mk.inj (Option.some.inj h)
    rw [ascend, hup]
    rfl
  | succ k ih =>
    rw [ascend] at h ⊢
    rcases hcall : s.call (.cd upPath) with ⟨_ | _, s₁⟩
    · simp only [hcall] at h
      cases h
    · simp only [hcall] at h ⊢
      obtain ⟨⟨cs₁, t₁⟩, hrest, heq⟩ := Option.map_eq_some_iff.mp h
      obtain ⟨rfl, rfl⟩ := Prod.mk.inj heq
      rw [ih hrest]
      rfl

end Mounted

/-- A path of one name leads through the current directory only. -/
theorem parent_of_name (fs : Fat32Instance) (d : Disk) {t : CString} (hne : t ≠ [])
    (hlen : t.length ≤ 63) (hslash : slash ∉ t) (hcur : 2 ≤ fs.currentDirCluster) :
    pathStart fs t = fs.currentDirCluster ∧ pathComponents t = [t] ∧
      fat32ResolveParent fs d t = (fs.currentDirCluster, t) := by
  have hstart : pathStart fs t = fs.currentDirCluster := by
    rw [pathStart, if_neg fun h : t.head? = some slash => hslash (List.mem_of_mem_head? h), orRoot,
      if_neg (by omega)]
  have hcomp : pathComponents t = [t] := components_single hne hslash hlen
  refine ⟨hstart, hcomp, ?_⟩
  rw [fat32ResolveParent_eq, hstart, hcomp]
  rfl

/-- The root directory and the current one are in use. -/
structure Mounted.Here (s : Mounted) : Prop where
  geometry : Geometry s.fs
  root : (volume s.fs s.disk).Used s.fs.rootCluster
  current : (volume s.fs s.disk).Used s.fs.currentDirCluster

/-- The current directory is in order. -/
def Mounted.InOrder (s : Mounted) : Prop :=
  ∃ l, (volume s.fs s.disk).forest.Chain s.fs.currentDirCluster l ∧ (volume s.fs s.disk).SlotsOk l

namespace Mounted.Here

variable {s t : Mounted} {cs : List ℕ}

/-- The clusters of the two directories are no special numbers. -/
theorem lt_notFound (h : s.Here) : 2 ≤ s.fs.rootCluster ∧ s.fs.rootCluster ≠ notFound ∧
    (2 ≤ s.fs.currentDirCluster ∧ s.fs.currentDirCluster < s.fs.clusters) ∧
      s.fs.currentDirCluster ≠ notFound := by
  have hr := h.geometry.lt_two_pow h.root.1.2
  have hc := h.geometry.lt_two_pow h.current.1.2
  refine ⟨h.root.1.1, ?_, ⟨h.current.1.1, h.current.1.2⟩, ?_⟩
  · rw [notFound]
    omega
  · rw [notFound]
    omega

/-- `cd` into a directory under the current one. -/
theorem call_cd (h : s.Here) {p : Path} (hne : p.1 ≠ []) (hslash : slash ∉ p.1) :
    s.call (.cd p) = match enter s.fs s.disk s.fs.currentDirCluster p.1 with
      | none => (false, s)
      | some e => (true, ⟨{ s.fs with currentDirCluster := e }, s.disk⟩) := by
  obtain ⟨hroot, hroot', hcur, hcur'⟩ := h.lt_notFound
  obtain ⟨hstart, hcomp, -⟩ := parent_of_name s.fs s.disk hne p.2.1 hslash hcur.1
  have hpath : myStrcmp p.1 [slash] ≠ 0 := fun h0 => by
    have heq := (myStrcmp_eq_zero p.2.2 (by decide)).mp h0
    exact hslash (by rw [heq]; exact List.mem_singleton_self _)
  rw [call, fat32Cd_eq_follow ⟨hroot', by omega⟩ hcur' hpath (by rw [hcomp]; simp), hcomp, hstart,
    follow_single]
  cases enter s.fs s.disk s.fs.currentDirCluster p.1 <;> rfl

/-- One level down: the new directory leads up to the one that is left. -/
theorem down (h : s.Here) (hord : s.InOrder) {n : DirName} {s₁ s₂ : Mounted}
    (hmk : s.call (.mkdir n.path) = (true, s₁)) (hcd : s₁.call (.cd n.path) = (true, s₂)) :
    ∃ e, s₂ = ⟨{ s.fs with currentDirCluster := e }, s₁.disk⟩ ∧ s₂.Here ∧ s₂.InOrder ∧
      Kept (volume s.fs s.disk) (volume s.fs s₁.disk) ∧
      LeadsUp (volume s.fs s₁.disk) s.fs.rootCluster e s.fs.currentDirCluster := by
  obtain ⟨l, hl, hok⟩ := hord
  obtain ⟨hroot, hroot', ⟨hcur, -⟩, hcur'⟩ := h.lt_notFound
  obtain ⟨hne, hlen, h0, hslash, -, hdots⟩ := n.2
  obtain ⟨-, -, hres⟩ := parent_of_name s.fs s.disk hne hlen hslash hcur
  have htarget : resolveTarget s.fs s.disk n.1 = some (s.fs.currentDirCluster, n.1) := by
    rw [resolveTarget, hres]
    exact if_neg (not_or.mpr ⟨hcur', hne⟩)
  have hhead : dirHead s.fs s.fs.currentDirCluster = s.fs.currentDirCluster :=
    dirHead_of_two_le hcur
  obtain ⟨hmade, rfl⟩ := Prod.mk.inj hmk
  obtain ⟨e, hnew⟩ := h.geometry.newDir_of_mkdir hroot (hhead.symm ▸ hl) hok hdots h0 htarget hmade
  have hroot₁ := hnew.kept.used h.root
  have hhere₁ : Here ⟨s.fs, (fat32Mkdir s.fs s.disk n.1).2⟩ :=
    ⟨h.geometry, hroot₁, hnew.kept.used h.current⟩
  have hcd' : Mounted.call ⟨s.fs, (fat32Mkdir s.fs s.disk n.1).2⟩ (.cd n.path) = (true, s₂) := hcd
  rw [hhere₁.call_cd hne hslash] at hcd'
  rcases henter : enter s.fs (fat32Mkdir s.fs s.disk n.1).2 s.fs.currentDirCluster n.1 with _ | e'
  · rw [show n.path.1 = n.1 from rfl, henter] at hcd'
    cases hcd'
  · obtain rfl := hnew.enter e' henter
    rw [show n.path.1 = n.1 from rfl, henter] at hcd'
    obtain ⟨-, rfl⟩ := Prod.mk.inj hcd'
    have hused := hnew.chain.2 e' List.mem_cons_self
    have hne_root : e' ≠ s.fs.rootCluster := fun heq => hnew.unused (heq ▸ h.root)
    exact ⟨e', rfl, ⟨h.geometry.cd e', hroot₁, hused⟩, ⟨[e'], hnew.chain, hnew.slotsOk⟩, hnew.kept,
      hne_root, ⟨[e'], hnew.chain⟩, hnew.self, hnew.parent⟩

/-- One level up. -/
theorem up {c : ℕ} (h : s.Here)
    (hup : LeadsUp (volume s.fs s.disk) s.fs.rootCluster s.fs.currentDirCluster c)
    (hc : 2 ≤ c ∧ c < s.fs.clusters) :
    s.call (.cd upPath) = (true, ⟨{ s.fs with currentDirCluster := c }, s.disk⟩) := by
  rw [h.call_cd (p := upPath) (by decide) (by decide)]
  have henter := h.geometry.enter_parent h.lt_notFound.1 hup hc
  rw [show upPath.1 = [dot, dot] from rfl, henter]

end Mounted.Here

/-- A descent keeps what is in use, and as many `cd ..` lead back. -/
theorem Mounted.kept_of_descend {s t : Mounted} {names : List DirName} {trail : List ℕ}
    (hs : s.Here) (hord : s.InOrder) (h : s.descend names = some (trail, t)) :
    Kept (volume s.fs s.disk) (volume s.fs t.disk) ∧
      t.ascend names.length = some (trail.reverse, ⟨s.fs, t.disk⟩) := by
  induction names generalizing s trail with
  | nil =>
    obtain ⟨rfl, rfl⟩ := Prod.mk.inj (Option.some.inj h)
    exact ⟨.refl _, rfl⟩
  | cons n names ih =>
    rw [descend] at h
    rcases hmk : s.call (.mkdir n.path) with ⟨_ | _, s₁⟩
    · simp only [hmk] at h
      cases h
    simp only [hmk] at h
    rcases hcd : s₁.call (.cd n.path) with ⟨_ | _, s₂⟩
    · simp only [hcd] at h
      cases h
    simp only [hcd] at h
    obtain ⟨⟨trail₂, t'⟩, hrest, heq⟩ := Option.map_eq_some_iff.mp h
    obtain ⟨rfl, rfl⟩ := Prod.mk.inj heq
    obtain ⟨e, rfl, hhere, hord₂, hkept, hup⟩ := hs.down hord hmk hcd
    obtain ⟨hkept₂, hback⟩ := ih hhere hord₂ hrest
    refine ⟨hkept.trans hkept₂, ?_⟩
    -- the state after the way back from further down
    have hhere' : Mounted.Here ⟨{ s.fs with currentDirCluster := e }, t'.disk⟩ :=
      ⟨hhere.geometry, hkept₂.used hhere.root, hkept₂.used hhere.current⟩
    rw [List.reverse_cons]
    exact ascend_succ hback (hhere'.up (hup.kept hkept₂) hs.lt_notFound.2.2.1)

/-- On a well-formed volume, `mkdir` and `cd` of any names one below the other, if all of them
succeed, are undone by as many `cd ..`: these succeed, and come through the same clusters back to the
directory from which the descent started. -/
theorem ascend_of_descend {s t : Mounted} {names : List DirName} {trail : List ℕ}
    (g : Geometry s.fs) (hwf : (volume s.fs s.disk).WellFormed s.fs.rootCluster) (hcur : s.InTree)
    (h : s.descend names = some (trail, t)) :
    t.ascend names.length = some (trail.reverse, ⟨s.fs, t.disk⟩) := by
  obtain ⟨o, ho⟩ := hcur
  obtain ⟨l, hl⟩ := hwf.separated.chain ho
  have hroot := hwf.separated.used_of_owns (.root ⟨rfl, rfl⟩)
  exact (Mounted.kept_of_descend ⟨g, hroot, hl.2 _ hl.1.mem_head⟩ ⟨l, hl, hwf.slotsOk ho hl⟩ h).2

theorem emptyVolume_wellFormed :
    (volume emptyVolume.fs emptyVolume.disk).WellFormed emptyVolume.fs.rootCluster := by
  refine Volume.wellFormed_of_check [2] [] (by decide +kernel) fun r hr _ => ?_
  obtain rfl := List.mem_singleton.mp hr
  refine slotsOk_of_used [] _ rfl (by simp) (by decide +kernel) fun A B hAB _ => ?_
  obtain ⟨rfl, -⟩ := List.append_eq_nil_iff.mp hAB.symm
  rfl

/-- The directory `D`. -/
def nameD : DirName := ⟨[68], by decide⟩

/-- `D` and `D/D` in an empty volume, and back. -/
theorem ascend_of_descend_twice : ∃ t, emptyVolume.descend [nameD, nameD] = some ([2, 3], t) ∧
    t.ascend 2 = some ([3, 2], ⟨emptyVolume.fs, t.disk⟩) := by
  have htrail : (emptyVolume.descend [nameD, nameD]).map Prod.fst = some [2, 3] := by decide +kernel
  obtain ⟨⟨trail, t⟩, hdown, rfl⟩ := Option.map_eq_some_iff.mp htrail
  exact ⟨t, hdown, ascend_of_descend tinyFs_geometry emptyVolume_wellFormed ⟨_, .root ⟨rfl, rfl⟩⟩ hdown⟩

end PsychWard.Fat32
