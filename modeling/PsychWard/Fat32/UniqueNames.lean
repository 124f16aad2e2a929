import PsychWard.Fat32.ShortNames
import PsychWard.Fat32.Aliases
import PsychWard.Common.Run

/-!
# Distinct short names

Whether a name is taken is asked in three ways: a search compares the long name of an entry that has
one and the short name of any other, an alias is compared with all short names, and a rename in
place does not ask. So the operations can store a short name that a directory already has.
`distinctNames_of_run` says that they do so in no run in which no step stores the 8.3 form of a name
that an entry has.
-/

namespace PsychWard.Fat32

namespace Volume

variable {v v' v'' : Volume} {l l' l'' : List ℕ} {X Y A R B : List DirCursor} {q s : DirCursor}
  {c n : ℕ}

/-- The entry of a file or a directory, in front of the end mark. -/
def Shown (v : Volume) (l : List ℕ) (s : DirCursor) : Prop :=
  s ∈ v.beforeEnd l ∧ (v.entry s).IsNamed

/-- No two entries of a directory have the same short name. -/
def DistinctNames (v : Volume) (l : List ℕ) : Prop :=
  ∀ s t, v.Shown l s → v.Shown l t → (v.entry s).name = (v.entry t).name → s = t

/-- The slots of a directory are used ones, then end marks. -/
def Ended (v : Volume) (l : List ℕ) : Prop :=
  ∃ A B, v.slots l = A ++ B ∧ (∀ s ∈ A, v.entry s 0 ≠ 0) ∧ ∀ s ∈ B, v.entry s 0 = 0

/-- The chain from `a` is none of the directory's. -/
def ChainApart (v : Volume) (l : List ℕ) (a : ℕ) : Prop :=
  2 ≤ a → ∃ m, v.forest.Chain a m ∧ ∀ x ∈ m, x ∉ l

theorem Ended.shown_iff (h : v.Ended l) :
    v.Shown l s ↔ s ∈ v.slots l ∧ (v.entry s).IsNamed := by
  obtain ⟨A, B, hs, hA, hB⟩ := h
  have hbefore : v.beforeEnd l = A := by
    rw [beforeEnd, hs, List.takeWhile_append_of_pos fun p hp => by simpa using hA p hp]
    rcases B with _ | ⟨b, B⟩
    · simp
    · rw [List.takeWhile_cons_of_neg (by simpa using hB b List.mem_cons_self), List.append_nil]
  rw [Shown, hbefore, hs]
  refine ⟨fun h => ⟨List.mem_append_left _ h.1, h.2⟩, fun h => ⟨?_, h.2⟩⟩
  exact (List.mem_append.mp h.1).resolve_right fun hb => h.2.1 (.inl (hB s hb))

/-- Behind an end mark there are end marks. -/
theorem Ended.zero_of_mem {P Q : List DirCursor} {e : DirCursor} (h : v.Ended l)
    (hs : v.slots l = P ++ e :: Q) (h0 : v.entry e 0 = 0) (hq : s ∈ Q) : v.entry s 0 = 0 := by
  obtain ⟨A, B, hAB, hA, hB⟩ := h
  rw [hs] at hAB
  rcases List.append_eq_append_iff.mp hAB with ⟨S, rfl, hQ⟩ | ⟨S, rfl, rfl⟩
  · rcases S with _ | ⟨x, S⟩
    · exact hB s (by rw [← List.nil_append B, ← hQ]; exact List.mem_cons_of_mem _ hq)
    · obtain ⟨rfl, -⟩ := List.cons.inj hQ
      exact absurd h0 (hA e (by simp))
  · exact hB s (by simp [hq])

/-- Other entries in used slots. -/
theorem Ended.congr (h : v.Ended l) (hspc : v'.sectorsPerCluster = v.sectorsPerCluster)
    (heq : ∀ s ∈ v.slots l, v'.entry s 0 = 0 ↔ v.entry s 0 = 0) : v'.Ended l := by
  obtain ⟨A, B, hs, hA, hB⟩ := h
  refine ⟨A, B, (slots_congr hspc l).trans hs, fun s hsA => ?_, fun s hsB => ?_⟩
  · exact fun h0 => hA s hsA ((heq s (by simp [hs, hsA])).mp h0)
  · exact (heq s (by simp [hs, hsB])).mpr (hB s hsB)

/-- New entries in a place of a directory. -/
theorem Ended.stored (h : v.Ended l) (hl : l.Nodup) (hs : v.slots l = A ++ (R ++ B))
    (hA : ∀ s ∈ A, v.entry s 0 ≠ 0) (hspc : v'.sectorsPerCluster = v.sectorsPerCluster)
    (heq : ∀ s ∈ v.slots l, s ∉ R → v'.entry s = v.entry s) (hR : ∀ s ∈ R, v'.entry s 0 ≠ 0) :
    v'.Ended l := by
  by_cases hzero : ∃ e ∈ R, v.entry e 0 = 0
  · -- the end mark was taken, and only end marks follow
    obtain ⟨e, he, h0⟩ := hzero
    obtain ⟨R₁, R₂, rfl⟩ := List.append_of_mem he
    refine ⟨A ++ (R₁ ++ e :: R₂), B, ?_, fun s hsA => ?_, fun s hsB => ?_⟩
    · rw [slots_congr hspc, hs]
      simp only [List.append_assoc]
    · by_cases hsR : s ∈ R₁ ++ e :: R₂
      · exact hR s hsR
      · have hsA := (List.mem_append.mp hsA).resolve_right hsR
        rw [heq s (by simp [hs, hsA]) hsR]
        exact hA s hsA
    · have hnd := v.nodup_slots hl
      rw [hs, List.nodup_append, List.nodup_append] at hnd
      rw [heq s (by simp [hs, hsB]) fun hsR => hnd.2.1.2.2 s hsR s hsB rfl]
      exact h.zero_of_mem (P := A ++ R₁) (Q := R₂ ++ B) (by rw [hs]; simp) h0 (by simp [hsB])
  · refine h.congr hspc fun s hsl => ?_
    by_cases hsR : s ∈ R
    · exact iff_of_false (hR s hsR) fun h0 => hzero ⟨s, hsR, h0⟩
    · rw [heq s hsl hsR]

/-- A grown directory ends with end marks. -/
theorem Ended.grown (h : v.Ended l) (hl : v.forest.Chain c l) (hg : Grown v v' l n) :
    v'.Ended (l ++ [n]) := by
  obtain ⟨A, B, hs, hA, hB⟩ := h
  have hold : ∀ s ∈ v.slots l, v'.entry s = v.entry s := fun s hsl =>
    hg.entry_eq (hg.ne_of_used (hl.2 _ (mem_slots.mp hsl).1))
  refine ⟨A, B ++ v'.slots [n], ?_, fun s hsA => ?_, fun s hsB => ?_⟩
  · rw [slots_append, slots_congr hg.sectorsPerCluster, hs, List.append_assoc]
  · rw [hold s (by simp [hs, hsA])]
    exact hA s hsA
  · rcases List.mem_append.mp hsB with hsB | hnew
    · rw [hold s (by simp [hs, hsB])]
      exact hB s hsB
    · rw [hg.entry_new hnew]
      rfl

/-- `v'` has the directory of `v`, and outside `X` no name that was not there. -/
structure Keeps (v v' : Volume) (c : ℕ) (l l' : List ℕ) (X : List DirCursor) : Prop where
  chain : v'.forest.Chain c l'
  ended : v'.Ended l'
  shown : ∀ s ∈ v'.slots l', s ∉ X → (v'.entry s).IsNamed →
    s ∈ v.slots l ∧ (v.entry s).IsNamed ∧ (v'.entry s).name = (v.entry s).name

namespace Keeps

theorem refl (hl : v.forest.Chain c l) (he : v.Ended l) : Keeps v v c l l [] :=
  ⟨hl, he, fun _ hs _ hn => ⟨hs, hn, rfl⟩⟩

theorem trans (h : Keeps v v' c l l' X) (h' : Keeps v' v'' c l' l'' Y) :
    Keeps v v'' c l l'' (X ++ Y) := by
  refine ⟨h'.chain, h'.ended, fun s hs hX hn => ?_⟩
  rw [List.mem_append, not_or] at hX
  obtain ⟨hs', hn', hname'⟩ := h'.shown s hs hX.2 hn
  obtain ⟨hs, hn, hname⟩ := h.shown s hs' hX.1 hn'
  exact ⟨hs, hn, hname'.trans hname⟩

/-- Entries of the same first byte kind in the slots outside `X`. -/
theorem of_entries (hl' : v'.forest.Chain c l)
    (hspc : v'.sectorsPerCluster = v.sectorsPerCluster) (he : v'.Ended l)
    (h : ∀ s ∈ v.slots l, s ∉ X → (v'.entry s).IsNamed →
      (v.entry s).IsNamed ∧ (v'.entry s).name = (v.entry s).name) : Keeps v v' c l l X :=
  ⟨hl', he, fun s hs hX hn => by
    rw [slots_congr hspc] at hs
    exact ⟨hs, h s hs hX hn⟩⟩

theorem grown (hl : v.forest.Chain c l) (he : v.Ended l) (hg : Grown v v' l n) :
    Keeps v v' c l (l ++ [n]) [] := by
  refine ⟨hg.chain hl, he.grown hl hg, fun s hs _ hn => ?_⟩
  rw [slots_append, List.mem_append, slots_congr hg.sectorsPerCluster] at hs
  rcases hs with hs | hs
  · rw [hg.entry_eq (hg.ne_of_used (hl.2 _ (mem_slots.mp hs).1))] at hn ⊢
    exact ⟨hs, hn, rfl⟩
  · rw [hg.entry_new hs] at hn
    exact absurd (.inl rfl) hn.1

/-- Clearing clusters of other chains. -/
theorem clear (hl : v.forest.Chain c l) (he : v.Ended l) {m : List ℕ} (hm : ∀ x ∈ l, x ∉ m) :
    Keeps v (v.clear m) c l l [] := by
  refine of_entries (clear_chain hl hm) rfl (he.congr rfl fun s _ => ?_) fun s _ _ hn => ?_
  · rw [clear_entry]
  · rw [clear_entry] at hn ⊢
    exact ⟨hn, rfl⟩

/-- The names stay distinct when no new one is stored. -/
theorem distinct (h : Keeps v v' c l l' []) (he : v.Ended l) (hd : v.DistinctNames l) :
    v'.DistinctNames l' := by
  intro s t hs ht hst
  rw [h.ended.shown_iff] at hs ht
  obtain ⟨hs, hns, hs'⟩ := h.shown s hs.1 (by simp) hs.2
  obtain ⟨ht, hnt, ht'⟩ := h.shown t ht.1 (by simp) ht.2
  rw [hs', ht'] at hst
  exact hd s t (he.shown_iff.mpr ⟨hs, hns⟩) (he.shown_iff.mpr ⟨ht, hnt⟩) hst

/-- The names stay distinct when the new one is not there. -/
theorem distinct_of_new (h : Keeps v v' c l l' [q]) (he : v.Ended l) (hd : v.DistinctNames l)
    (hnew : ∀ s, v.Shown l s → s ≠ q → (v.entry s).name ≠ (v'.entry q).name) :
    v'.DistinctNames l' := by
  intro s t hs ht hst
  rw [h.ended.shown_iff] at hs ht
  have hold : ∀ s ∈ v'.slots l', s ≠ q → (v'.entry s).IsNamed →
      v.Shown l s ∧ (v'.entry s).name = (v.entry s).name := by
    intro s hs hq hn
    obtain ⟨hs, hn, hname⟩ := h.shown s hs (by simpa using hq) hn
    exact ⟨he.shown_iff.mpr ⟨hs, hn⟩, hname⟩
  by_cases hsq : s = q
  · by_cases htq : t = q
    · rw [hsq, htq]
    · obtain ⟨hsh, hname⟩ := hold t ht.1 htq ht.2
      exact absurd (hname.symm.trans (hst.symm.trans (by rw [hsq]))) (hnew t hsh htq)
  · obtain ⟨hsh, hname⟩ := hold s hs.1 hsq hs.2
    by_cases htq : t = q
    · exact absurd (hname.symm.trans (hst.trans (by rw [htq]))) (hnew s hsh hsq)
    · obtain ⟨hth, htname⟩ := hold t ht.1 htq ht.2
      rw [hname, htname] at hst
      exact hd s t hsh hth hst

end Keeps

end Volume

open Volume

/-! ## Aliases -/

/-- An alias was not found in the directory. -/
theorem dirHasRaw83_of_alias {fs : Fat32Instance} {d : Disk} {p : ℕ} {name : CString}
    {cand : List UInt8} (h : generateShortAlias fs d p name = some cand) :
    dirHasRaw83 fs d p cand = false ∧ cand.length = 11 := by
  obtain ⟨k, h1, hk, hcand, hfree⟩ := generateShortAliasFrom_some h
  obtain ⟨base, hparts, heq⟩ := aliasCandidate_eq name h1 (show k ≤ 999999 by omega)
  rw [hcand] at heq
  rw [Option.some.inj heq] at hfree ⊢
  exact ⟨hfree, hparts.length_aliasBytes⟩

namespace Geometry

variable {fs : Fat32Instance} (g : Geometry fs) {d d' : Disk} {l : List ℕ} {p c : ℕ}
  {path name : CString} {q : DirCursor}

include g

/-- `dir_has_raw_83` finds the short names of the live entries that it walks over. -/
theorem dirHasRaw83_eq (hl : (volume fs d).forest.Chain (dirHead fs p) l) (raw : List UInt8) :
    dirHasRaw83 fs d (orRoot fs p) raw = true ↔
      ∃ s ∈ (volume fs d).beforeEnd (l.take walkLimit), ((volume fs d).entry s 0 ≠ deleted ∧
        ((volume fs d).entry s).attr ≠ 0x0F) ∧ ((volume fs d).entry s).name = raw := by
  have hc : 2 ≤ dirHead fs p := (hl.2 _ hl.1.mem_head).1.1
  rw [dirHasRaw83_iff (c := dirHead fs p) (g.noFault.read d) rfl hc (g.walk_fatNext hl),
    g.live_diskVolume fun x hx => hl.2 x (List.mem_of_mem_take hx), List.mem_map]
  simp only [mem_live]
  constructor
  · rintro ⟨e, ⟨s, hs, hlive, rfl⟩, hraw⟩
    exact ⟨s, hs, hlive, hraw⟩
  · rintro ⟨s, hs, hlive, hraw⟩
    exact ⟨_, ⟨s, hs, hlive, rfl⟩, hraw⟩

/-- A short name that `dir_has_raw_83` does not find is not in the directory. -/
theorem name_ne_of_not_raw83 (hl : (volume fs d).forest.Chain (dirHead fs p) l)
    (hlen : l.length ≤ walkLimit) {raw : List UInt8}
    (hraw : dirHasRaw83 fs d (orRoot fs p) raw = false) {s : DirCursor}
    (hs : (volume fs d).Shown l s) : ((volume fs d).entry s).name ≠ raw := by
  intro heq
  have hlive : (volume fs d).entry s 0 ≠ deleted ∧ ((volume fs d).entry s).attr ≠ 0x0F :=
    ⟨fun hd => hs.2.1 (.inr hd), hs.2.2.1⟩
  have hhas := (g.dirHasRaw83_eq hl raw).mpr
    ⟨s, by rw [List.take_of_length_le hlen]; exact hs.1, hlive, heq⟩
  rw [hraw] at hhas
  cases hhas

/-- A short name that no entry of a directory has is not found. -/
theorem dirHasRaw83_eq_false {raw : List UInt8}
    (hl : (volume fs d).forest.Chain (dirHead fs p) l)
    (hraw : ∀ s ∈ (volume fs d).slots l, ((volume fs d).entry s).name ≠ raw) :
    dirHasRaw83 fs d (orRoot fs p) raw = false := by
  refine Bool.eq_false_iff.mpr fun hhas => ?_
  obtain ⟨s, hs, -, hname⟩ := (g.dirHasRaw83_eq hl raw).mp hhas
  exact hraw s (mem_slots_of_walked ((List.takeWhile_sublist _).subset hs)) hname

/-- In a directory of a used part and end marks, a run of free slots may be stored over. -/
theorem runSafe_of_ended (hl : (volume fs d).forest.Chain (dirHead fs p) l)
    (he : (volume fs d).Ended l) (hlen : l.length ≤ walkLimit) {need : ℕ} (hn : 0 < need) :
    RunSafe fs d (orRoot fs p) need l := by
  refine ⟨fun st last hfind hpast A R B hs hhead hR q hq => ?_, fun _ _ _ => hlen⟩
  obtain ⟨A', R', B', hs', hhead', hR', hzero⟩ :=
    g.findRun_found (c := dirHead fs p) rfl hl hn hfind
  obtain ⟨x, T, rfl⟩ := List.exists_cons_of_length_pos (hR ▸ hn)
  obtain ⟨x', T', rfl⟩ := List.exists_cons_of_length_pos (hR' ▸ hn)
  -- both runs start at the same slot
  have hx : x = x' := Option.some.inj (hhead.trans hhead'.symm)
  subst hx
  have hnd := (volume fs d).nodup_slots hl.1.nodup
  rw [hs, List.cons_append] at hnd
  obtain ⟨rfl, hTB⟩ := split_unique hnd (hs.symm.trans hs')
  obtain ⟨rfl, rfl⟩ := List.append_inj hTB (by simpa using hR.trans hR'.symm)
  obtain ⟨e, hmem, h0⟩ := hzero.mp hpast
  obtain ⟨R₁, R₂, hR₁⟩ := List.append_of_mem hmem
  refine he.zero_of_mem (P := A ++ R₁) (Q := R₂ ++ B) ?_ h0 ?_
  · rw [hs, hR₁]
    simp
  · exact List.mem_append_right _ (List.mem_of_mem_head? hq)

/-! ## The calls -/

omit g in
/-- Marking entries as deleted. -/
theorem keeps_marked {A R B : List DirCursor} (hl : (volume fs d).forest.Chain c l)
    (he : (volume fs d).Ended l) (h : Marked (volume fs d) (volume fs d') l A R B q) :
    Keeps (volume fs d) (volume fs d') c l l [] := by
  have hslots : ∀ s ∈ R ++ [q], (volume fs d).entry s 0 ≠ 0 := fun s hs => by
    rcases List.mem_append.mp hs with hR | hq
    · exact h.before s (List.mem_append_right _ hR)
    · rw [List.mem_singleton.mp hq]
      exact h.named
  refine .of_entries (h.edit.chain hl) h.edit.sectorsPerCluster
    (he.congr h.edit.sectorsPerCluster fun s hs => ?_) fun s hs _ hn => ?_
  · by_cases hR : s ∈ R ++ [q]
    · rw [h.marked s hR, Entry.setByte_zero]
      exact iff_of_false (by decide) (hslots s hR)
    · rw [h.edit.entry_eq s (aligned_of_slots hs) hR]
  · by_cases hR : s ∈ R ++ [q]
    · rw [h.marked s hR] at hn
      exact absurd (.inr (Entry.setByte_zero _ _)) hn.1
    · rw [h.edit.entry_eq s (aligned_of_slots hs) hR] at hn ⊢
      exact ⟨hn, rfl⟩

/-- Freeing a chain that is none of the directory's. -/
theorem keeps_free (hl : (volume fs d).forest.Chain c l) (he : (volume fs d).Ended l) {a : ℕ}
    {m : List ℕ} (hm : (volume fs d).forest.Chain a m) (hdis : ∀ x ∈ m, x ∉ l) :
    Keeps (volume fs d) (volume fs (fatFreeChain fs d a).2) c l l [] := by
  obtain ⟨d₁, hfree, hv, -⟩ := g.fatFreeChain_spec hm
  rw [hfree]
  simp only
  rw [hv]
  exact .clear hl he fun x hx hxm => hdis x (List.mem_of_mem_take hxm) hx

/-- Storing an entry in the slot that `takeSlot` gave. -/
theorem keeps_make {op : Creation} {slot : DirSlot} (h0 : 0 ∉ path)
    (hl : (volume fs d).forest.Chain (dirHead fs p) l) (he : (volume fs d).Ended l)
    (hlen : l.length ≤ walkLimit) (hres : resolveTarget fs d path = some (p, name))
    (hscan : dirScan fs d (orRoot fs p) name = some slot) (hnone : slot.found = none)
    (hr : ScanResult fs (volume fs d) name l slot) (hok : (op.run fs d path).1 = true) :
    ∃ l' q, Keeps (volume fs d) (volume fs (op.run fs d path).2) (dirHead fs p) l l' [q] ∧
      ((volume fs (op.run fs d path).2).entry q).name = formatFat32Name name := by
  have hsafe : (volume fs d).SlotSafe l := by
    refine ⟨fun A q B hs _ h0 s hs' => ?_, fun _ => hlen⟩
    exact he.zero_of_mem hs h0 (List.mem_of_mem_head? hs')
  obtain ⟨r, d₀, htake, -, ⟨rfl, -⟩ | ⟨A, q, B, l', rfl, hfree, -, hcase⟩⟩ :=
    g.takeSlot_spec hl hr hnone hsafe
  · rw [run_eq_false hres hscan hnone htake] at hok
    cases hok
  have hk : Keeps (volume fs d) (volume fs d₀) (dirHead fs p) l l' [] := by
    rcases hcase with ⟨rfl, rfl, -⟩ | ⟨x, hgr, rfl, -⟩
    · exact .refl hl he
    · exact .grown hl he hgr
  have hst := g.entryStored_run hres hscan hnone htake hk.chain hfree hok
  have hne : (volume fs (op.run fs d path).2).entry q 0 ≠ 0 := by
    rw [hst.zero]
    exact formatFat32Name_ne_zero fun h => h0 ((name_subset hres).1 h)
  refine ⟨l', q, hk.trans (.of_entries hst.chain rfl ?_ fun s hs hq hn => ?_), hst.name⟩
  · refine hk.ended.stored hk.chain.1.nodup hfree.slots_eq hfree.before rfl
      (fun s hs hq => hst.entry_eq s hs (by simpa using hq)) fun s hs => ?_
    rwa [List.mem_singleton.mp hs]
  · rw [hst.entry_eq s hs (by simpa using hq)] at hn ⊢
    exact ⟨hn, rfl⟩

/-- A write to an entry of the directory changes none of its names. -/
theorem keeps_write {text : List UInt8} {A B : List DirCursor}
    (hl : (volume fs d).forest.Chain (dirHead fs p) l) (he : (volume fs d).Ended l)
    (hres : resolveTarget fs d path = some (p, name))
    (hw : (volume fs d).walked l = A ++ q :: B) (hA : (volume fs d).Passed name A)
    (hm : (volume fs d).Matches name A q)
    (hapart : (volume fs d).ChainApart l ((volume fs d).entry q).clus)
    (hok : (fat32WriteFile fs d path text).1 = true) :
    Keeps (volume fs d) (volume fs (fat32WriteFile fs d path text).2) (dirHead fs p) l l [] := by
  have hq := (place_of_found hw hA hm).1.mem_slots
  rw [g.fat32WriteFile_found text hres hl hw hA hm] at hok ⊢
  -- from a disk with the same entries, where nothing is left to free
  have hrest : ∀ d₁, Keeps (volume fs d) (volume fs d₁) (dirHead fs p) l l [] →
      (volume fs d₁).data = (volume fs d).data →
      (writeEntryAndData fs d₁ (dirCursorSector fs q) q.offsetInSector 0 ((volume fs d).block q)
        ((volume fs d).entry q) text).1 = true →
      Keeps (volume fs d) (volume fs (writeEntryAndData fs d₁ (dirCursorSector fs q)
        q.offsetInSector 0 ((volume fs d).block q) ((volume fs d).entry q) text).2)
        (dirHead fs p) l l [] := by
    intro d₁ hk hdata hok
    have hent : ∀ s, (volume fs d₁).entry s = (volume fs d).entry s := fun s => by
      rw [Volume.entry, Volume.entry, hdata]
    have hblock : (volume fs d₁).block q = (volume fs d).block q := by
      rw [Volume.block, Volume.block, hdata]
    have hq₁ : q ∈ (volume fs d₁).slots l := by
      rw [slots_disk d]
      exact hq
    obtain ⟨r, d', hrun, ⟨m, n, e₁, e₂, hst⟩ | ⟨rfl, -⟩⟩ :=
      g.writeEntryAndData_spec hk.chain.2 hq₁ ((volume fs d).entry q) text
    · rw [← hblock, hrun]
      simp only
      have hself := hst.entry_self hk.chain hq₁
      have hother : ∀ s ∈ (volume fs d₁).slots l, s ≠ q →
          (volume fs d').entry s = (volume fs d₁).entry s :=
        fun s hs hne => hst.entry_eq hq₁ hk.chain hs hne
      refine hk.trans (.of_entries (X := []) (hst.chain hk.chain) rfl
        (hk.ended.congr rfl fun s hs => ?_) fun s hs _ hn => ?_)
      · by_cases hsq : s = q
        · rw [hsq, hself, hent]
          exact Iff.rfl
        · rw [hother s hs hsq]
      · by_cases hsq : s = q
        · rw [hsq, hself, hent, Entry.name_setClus_setSize]
          exact ⟨hm.1, rfl⟩
        · rw [hother s hs hsq] at hn ⊢
          exact ⟨hn, rfl⟩
    · rw [← hblock, hrun] at hok
      cases hok
  by_cases h2 : 2 ≤ ((volume fs d).entry q).clus
  · obtain ⟨m, hm, hdis⟩ := hapart h2
    rw [writeEntryAndData_of_le h2] at hok ⊢
    refine hrest _ (g.keeps_free hl he hm hdis) ?_ hok
    obtain ⟨d₁, hfree, hv, -⟩ := g.fatFreeChain_spec hm
    rw [hfree]
    simp only
    rw [hv, clear_data]
  · rw [writeEntryAndData_of_lt (by omega)] at hok ⊢
    exact hrest d (.refl hl he) rfl hok

/-- `rm` takes an entry away. -/
theorem keeps_delete (hl : (volume fs d).forest.Chain (dirHead fs p) l)
    (he : (volume fs d).Ended l) (hres : resolveTarget fs d path = some (p, name))
    (hapart : ∀ q buf start, deleteSearch fs d (orRoot fs p) name = some (q, buf, start) →
      (volume fs d).ChainApart l (buf.entry q.offsetInSector).clus) :
    Keeps (volume fs d) (volume fs (fat32DeleteFile fs d path).2) (dirHead fs p) l l [] := by
  rw [fat32DeleteFile, hres]
  rcases hsearch : deleteSearch fs d (orRoot fs p) name with _ | ⟨q, buf, start⟩
  · simp only [hsearch]
    exact .refl hl he
  simp only [hsearch, g.write]
  have hapart := hapart q buf start hsearch
  obtain ⟨A, B, i, m, hs, hA, hn, rfl, hi, hi16, rfl, hm, hattr⟩ := g.deleteSearch_spec hl hsearch
  obtain ⟨A', R, hmk⟩ := g.marked_of_block hl
    (markDeleted (((volume fs d).block q).put q.offsetInSector deleted) (32 * m)
      ((q.offsetInSector - 32 * m) / 32)) hs hA (fun h => hn.1 (.inl h)) hi hm hattr fun j => by
        rw [hi]
        exact markDeleted_run _ hm hi16 j
  have hk := keeps_marked hl he hmk
  by_cases h2 : 2 ≤ (((volume fs d).block q).entry q.offsetInSector).clus
  · obtain ⟨k, hk', hdis⟩ := hapart h2
    rw [if_pos h2]
    exact hk.trans (g.keeps_free hk.chain hk.ended (hmk.edit.chain hk') hdis)
  · rw [if_neg h2]
    exact hk

/-- A rename in place stores the 8.3 form of the new name. -/
theorem keeps_setName {A B : List DirCursor} {new : CString}
    (hl : (volume fs d).forest.Chain c l) (he : (volume fs d).Ended l)
    (hp : Place (volume fs d) l A [q] B) (h0 : 0 ∉ new) :
    Keeps (volume fs d) (volume fs (d.write (dirCursorSector fs q)
      (((volume fs d).block q).setEntry q.offsetInSector
        (((volume fs d).entry q).setName (formatFat32Name new))))) c l l [q] ∧
    ((volume fs (d.write (dirCursorSector fs q) (((volume fs d).block q).setEntry q.offsetInSector
      (((volume fs d).entry q).setName (formatFat32Name new))))).entry q).name =
        formatFat32Name new := by
  have hq := hp.mem_slots
  have hset : (volume fs d).setData q.cluster q.sectorInCluster
      (((volume fs d).block q).setEntry q.offsetInSector
        (((volume fs d).entry q).setName (formatFat32Name new))) =
      (volume fs d).setEntry q (((volume fs d).entry q).setName (formatFat32Name new)) := rfl
  rw [g.volume_write_slot hl.2 hq, hset]
  obtain ⟨hedit, hself⟩ := setEntry_edit (v := volume fs d) (aligned_of_slots hq)
    (((volume fs d).entry q).setName (formatFat32Name new))
  refine ⟨.of_entries (hedit.chain hl) rfl ?_ fun s hs hsq hn => ?_, ?_⟩
  · refine he.stored hl.1.nodup hp.slots_eq hp.before rfl
      (fun s hs hsq => hedit.entry_eq s (aligned_of_slots hs) hsq) fun s hs => ?_
    rw [List.mem_singleton.mp hs, hself, Entry.setName_zero]
    exact formatFat32Name_ne_zero h0
  · rw [hedit.entry_eq s (aligned_of_slots hs) hsq] at hn ⊢
    exact ⟨hn, rfl⟩
  · rw [hself, Entry.name_setName _ (length_formatFat32Name new)]

/-- The entries of a long name bring an alias that the directory did not have. -/
theorem keeps_named (clus size : ℕ) (attr : UInt8) {new : CString} (hlen63 : new.length ≤ 63)
    (hneeds : nameNeedsLfn new = true) (hl : (volume fs d).forest.Chain (dirHead fs p) l)
    (he : (volume fs d).Ended l) (hlen : l.length ≤ walkLimit) :
    ∃ l', Keeps (volume fs d)
        (volume fs (dirWriteNamedEntry fs d (orRoot fs p) new clus size attr).2)
        (dirHead fs p) l l' [] ∨
      ∃ q, Keeps (volume fs d)
          (volume fs (dirWriteNamedEntry fs d (orRoot fs p) new clus size attr).2)
          (dirHead fs p) l l' [q] ∧
        ∀ s, (volume fs d).Shown l s → ((volume fs d).entry s).name ≠ ((volume fs
          (dirWriteNamedEntry fs d (orRoot fs p) new clus size attr).2).entry q).name := by
  obtain ⟨r, d', hw, ⟨-, hv, -⟩ |
    ⟨-, v₁, l', A, R, B, q, cand, hgrown, hfr, hE, hent, halias, hmap⟩⟩ :=
    g.dirWriteNamedEntry_spec clus size attr hlen63 hneeds hl
      (g.runSafe_of_ended hl he hlen (Nat.succ_pos _))
  · refine ⟨l, .inl ?_⟩
    rw [hw]
    simp only
    rw [hv]
    exact .refl hl he
  rw [hw]
  simp only
  obtain ⟨hraw, hcand⟩ := dirHasRaw83_of_alias halias
  have hk : Keeps (volume fs d) v₁ (dirHead fs p) l l' [] := by
    rcases hgrown with ⟨rfl, rfl, -⟩ | ⟨x, hgr, rfl, -⟩
    · exact .refl hl he
    · exact .grown hl he hgr
  -- the slots of the run other than the last one hold long-name entries, which show no name
  have hlfn : ∀ s ∈ R ++ [q], s ≠ q →
      ((volume fs d').entry s).attr = 0x0F ∧ (volume fs d').entry s 0 ≠ 0 := fun s hs hsq =>
    lfn_of_map hmap (by omega) ((List.mem_append.mp hs).resolve_right (by simpa using hsq))
  have hR : ∀ s ∈ R ++ [q], (volume fs d').entry s 0 ≠ 0 := fun s hs => by
    by_cases hsq : s = q
    · rw [hsq, hent, shortEntry_zero]
      exact (generateShortAlias_getD halias).1
    · exact (hlfn s hs hsq).2
  refine ⟨l', .inr ⟨q, hk.trans (.of_entries (hE.chain hk.chain) hE.sectorsPerCluster ?_
    fun s hs hsq hn => ?_), fun s hs => ?_⟩⟩
  · exact hk.ended.stored hk.chain.1.nodup hfr.slots_eq hfr.before hE.sectorsPerCluster
      (fun s hs hsR => hE.entry_eq s (aligned_of_slots hs) hsR) hR
  · by_cases hsR : s ∈ R ++ [q]
    · exact absurd (hlfn s hsR (by simpa using hsq)).1 hn.2.1
    · rw [hE.entry_eq s (aligned_of_slots hs) hsR] at hn ⊢
      exact ⟨hn, rfl⟩
  · rw [hent, shortEntry_name _ _ _ _ hcand]
    exact g.name_ne_of_not_raw83 hl hlen hraw hs

end Geometry

/-! ## Runs of calls -/

/-- A call that edits a directory. -/
inductive DirCall
  | make (op : Creation) (path : CString)
  | delete (path : CString)
  | rename (oldPath newPath : CString)

namespace DirCall

/-- The paths of the call, the one of the entry it is about first. -/
def paths : DirCall → List CString
  | make _ path => [path]
  | delete path => [path]
  | rename oldPath newPath => [oldPath, newPath]

def run (fs : Fat32Instance) (d : Disk) : DirCall → Bool × Disk
  | make op path => op.run fs d path
  | delete path => fat32DeleteFile fs d path
  | rename oldPath newPath => fat32RenameFile fs d oldPath newPath

/-- The paths of the call lead to the directory that starts at the cluster `c`. -/
def In (fs : Fat32Instance) (c : ℕ) (d : Disk) (call : DirCall) : Prop :=
  ∀ path ∈ call.paths, 0 ∉ path ∧ ∃ p name, resolveTarget fs d path = some (p, name) ∧
    dirHead fs p = c

/-- The call stores no name that another entry of the directory `l` has, and frees none of its
clusters. An entry with a long name gets a new alias, so a rename to one always does. -/
def Fresh (fs : Fat32Instance) (d : Disk) (l : List ℕ) : DirCall → Prop
  | make op path => ∀ p name, resolveTarget fs d path = some (p, name) →
      (lookup fs d p name = none → ∀ s, (volume fs d).Shown l s →
        ((volume fs d).entry s).name ≠ formatFat32Name name) ∧
      ∀ f text, lookup fs d p name = some f → op = .write text →
        (volume fs d).ChainApart l f.clus
  | delete path => ∀ p name, resolveTarget fs d path = some (p, name) →
      ∀ q buf start, deleteSearch fs d (orRoot fs p) name = some (q, buf, start) →
        (volume fs d).ChainApart l (buf.entry q.offsetInSector).clus
  | rename oldPath newPath => ∀ p old new f, resolveTarget fs d oldPath = some (p, old) →
      resolveTarget fs d newPath = some (p, new) → lookup fs d p old = some f →
      nameNeedsLfn new = false → ∀ s, (volume fs d).Shown l s →
        (dirCursorSector fs s, s.offsetInSector) ≠ (f.sector, f.offset) →
        ((volume fs d).entry s).name ≠ formatFat32Name new

/-- A call that succeeds on the directory that starts at the cluster `c`. -/
def Step (fs : Fat32Instance) (c : ℕ) (d : Disk) (call : DirCall) (d' : Disk) : Prop :=
  call.In fs c d ∧ call.run fs d = (true, d')

/-- The call is fresh in the directory that starts at the cluster `c`, which is not over-long. -/
def Safe (fs : Fat32Instance) (c : ℕ) (d : Disk) (call : DirCall) : Prop :=
  ∀ l, (volume fs d).forest.Chain c l →
    ((volume fs d).slots l).length ≤ maxDirSlots ∧ call.Fresh fs d l

end DirCall

/-- The directory that starts at the cluster `c` is in order and has distinct names. -/
def Distinct (fs : Fat32Instance) (c : ℕ) (d : Disk) : Prop :=
  ∃ l, (volume fs d).forest.Chain c l ∧ (volume fs d).Ended l ∧ (volume fs d).DistinctNames l

namespace Geometry

variable {fs : Fat32Instance} (g : Geometry fs) {d d' : Disk} {l : List ℕ} {p c : ℕ}
  {path name : CString} {q : DirCursor}

omit g in
theorem distinct_of_keeps {l' : List ℕ} (h : Keeps (volume fs d) (volume fs d') c l l' [])
    (he : (volume fs d).Ended l) (hd : (volume fs d).DistinctNames l) : Distinct fs c d' :=
  ⟨l', h.chain, h.ended, h.distinct he hd⟩

omit g in
theorem distinct_of_new {l' : List ℕ} (h : Keeps (volume fs d) (volume fs d') c l l' [q])
    (he : (volume fs d).Ended l) (hd : (volume fs d).DistinctNames l)
    (hnew : ∀ s, (volume fs d).Shown l s → s ≠ q →
      ((volume fs d).entry s).name ≠ ((volume fs d').entry q).name) : Distinct fs c d' :=
  ⟨l', h.chain, h.ended, h.distinct_of_new he hd hnew⟩

include g

/-- `touch`, `mkdir` and `echo` keep the names distinct. -/
theorem distinct_make {op : Creation} (h0 : 0 ∉ path)
    (hl : (volume fs d).forest.Chain (dirHead fs p) l) (he : (volume fs d).Ended l)
    (hd : (volume fs d).DistinctNames l) (hlen : l.length ≤ walkLimit)
    (hres : resolveTarget fs d path = some (p, name))
    (hfresh : (DirCall.make op path).Fresh fs d l) (hok : (op.run fs d path).1 = true) :
    Distinct fs (dirHead fs p) (op.run fs d path).2 := by
  obtain ⟨hnew, hwrite⟩ := hfresh p name hres
  obtain ⟨slot, hscan, hr⟩ := g.dirScan_spec rfl hl name
  have hscan' : dirScan fs d (orRoot fs p) name = some slot := hscan
  have hlook : lookup fs d p name = slot.found := by
    rw [lookup, hscan', Option.bind_some]
  rcases hf : slot.found with _ | f
  · obtain ⟨l', q, hk, hname⟩ := g.keeps_make h0 hl he hlen hres hscan hf hr hok
    refine distinct_of_new hk he hd fun s hs _ => ?_
    rw [hname]
    exact hnew (hlook.trans hf) s hs
  · cases op with
    | create =>
      have hrun : Creation.create.run fs d path = (true, d) := by
        rw [Creation.run, fat32CreateFile, hres]
        simp only [hscan', hf, Option.isSome_some, if_true]
      rw [hrun]
      exact ⟨l, hl, he, hd⟩
    | mkdir =>
      have hrun : Creation.mkdir.run fs d path = (false, d) := by
        rw [Creation.run, fat32Mkdir, hres]
        simp only [hscan', hf, Option.isSome_some, if_true]
      rw [hrun] at hok
      cases hok
    | write text =>
      obtain ⟨A, B, q, hw, hA, hm, rfl⟩ := hr.of_found hf
      exact distinct_of_keeps (g.keeps_write hl he hres hw hA hm
        (hwrite _ text (hlook.trans hf) rfl) hok) he hd

/-- `mv` keeps the names distinct. -/
theorem distinct_rename {oldPath newPath : CString} {old : CString} (h0 : 0 ∉ newPath)
    (hl : (volume fs d).forest.Chain (dirHead fs p) l) (he : (volume fs d).Ended l)
    (hd : (volume fs d).DistinctNames l) (hlen : l.length ≤ walkLimit)
    (hold : resolveTarget fs d oldPath = some (p, old))
    (hfresh : (DirCall.rename oldPath newPath).Fresh fs d l)
    (hok : (fat32RenameFile fs d oldPath newPath).1 = true) :
    Distinct fs (dirHead fs p) (fat32RenameFile fs d oldPath newPath).2 := by
  rw [fat32RenameFile, hold] at hok ⊢
  rcases hnew : resolveTarget fs d newPath with _ | ⟨p', new⟩
  · exact ⟨l, hl, he, hd⟩
  simp only [hnew] at hok ⊢
  by_cases hpp : p = p'
  · subst hpp
    rw [if_neg (not_not.mpr rfl)] at hok ⊢
    obtain ⟨slot, hscan, hr⟩ := g.dirScan_spec rfl hl old
    have hscan' : dirScan fs d (orRoot fs p) old = some slot := hscan
    have hlook : lookup fs d p old = slot.found := by
      rw [lookup, hscan', Option.bind_some]
    simp only [hscan', Option.bind_some] at hok ⊢
    rcases hf : slot.found with _ | f
    · exact ⟨l, hl, he, hd⟩
    have hfresh := hfresh p old new f hold hnew (hlook.trans hf)
    obtain ⟨A, B, q, hw, hA, hm, rfl⟩ := hr.of_found hf
    obtain ⟨hp, -⟩ := place_of_found hw hA hm
    have hall : (volume fs d).walked l = (volume fs d).slots l := by
      rw [walked, List.take_of_length_le hlen]
    simp only [g.read, g.block_eq hl.2 hp.mem_slots]
    -- in place only the renamed entry shows another name; else the old one is marked, and one is
    -- added
    rcases hneeds : nameNeedsLfn new with _ | _
    · simp only [Bool.false_eq_true, if_false, g.write]
      obtain ⟨hk, hname⟩ := g.keeps_setName hl he hp fun h => h0 ((name_subset hnew).1 h)
      refine distinct_of_new hk he hd fun s hs hsq => ?_
      have hne := hfresh hneeds s hs fun hpos => hsq
        (g.slot_inj hl (hall ▸ (he.shown_iff.mp hs).1) (hall ▸ hp.mem_slots) hpos)
      exact fun heq => hne (heq.trans hname)
    · simp only [if_true, g.write]
      obtain ⟨A', R, hmk⟩ := g.unlinked_marked hl hp.slots_eq hp.before
        (fun h => hm.1.1 (.inl h)) ((volume fs d).entry q).clus ((volume fs d).entry q).size
      rw [unlinked] at hmk
      simp only [g.block_eq hl.2 hp.mem_slots] at hmk
      have hk := keeps_marked hl he hmk
      have hd₁ := hk.distinct he hd
      obtain ⟨l', hk' | ⟨q', hk', hcand⟩⟩ := g.keeps_named ((volume fs d).entry q).clus
        ((volume fs d).entry q).size ((volume fs d).entry q).attr (name_subset hnew).2 hneeds
        hk.chain hk.ended hlen
      · exact distinct_of_keeps hk' hk.ended hd₁
      · exact distinct_of_new hk' hk.ended hd₁ fun s hs _ => hcand s hs
  · rw [if_pos hpp] at hok
    cases hok

/-- A call keeps the names distinct. -/
theorem distinct_step {call : DirCall} (h : Distinct fs c d) (hsafe : call.Safe fs c d)
    (hstep : call.Step fs c d d') : Distinct fs c d' := by
  obtain ⟨l, hl, he, hd⟩ := h
  obtain ⟨hsize, hfresh⟩ := hsafe l hl
  have hlen := length_le_walkLimit (v := volume fs d) g.sectors_pos hsize
  obtain ⟨hin, hrun⟩ := hstep
  have hok : (call.run fs d).1 = true := by rw [hrun]
  have hd' : (call.run fs d).2 = d' := by rw [hrun]
  subst hd'
  cases call with
  | make op path =>
    obtain ⟨h0, p, name, hres, rfl⟩ := hin path List.mem_cons_self
    exact g.distinct_make h0 hl he hd hlen hres hfresh hok
  | delete path =>
    obtain ⟨-, p, name, hres, rfl⟩ := hin path List.mem_cons_self
    exact distinct_of_keeps (g.keeps_delete hl he hres (hfresh p name hres)) he hd
  | rename oldPath newPath =>
    obtain ⟨-, p, old, hold, rfl⟩ := hin oldPath List.mem_cons_self
    have h0 := (hin newPath (List.mem_cons_of_mem _ List.mem_cons_self)).1
    exact g.distinct_rename h0 hl he hd hlen hold hfresh hok

/-- In every run of successful calls in which no call stores a name that another entry has, the live
entries of the directory have distinct short names. -/
theorem distinctNames_of_run {calls : List DirCall}
    (hl : (volume fs d).forest.Chain c l) (he : (volume fs d).Ended l)
    (hd : (volume fs d).DistinctNames l)
    (h : Run (guarded (DirCall.Step fs c) (DirCall.Safe fs c)) d calls d') :
    ∃ l', (volume fs d').forest.Chain c l' ∧ (volume fs d').DistinctNames l' := by
  obtain ⟨l', hl', -, hd'⟩ := h.invariant (I := Distinct fs c)
    (fun _ _ _ hI hs => g.distinct_step hI hs.1 hs.2) ⟨l, hl, he, hd⟩
  exact ⟨l', hl', hd'⟩

end Geometry

/-! ## Runs of a small system -/

theorem distinctNames_of_slots {v : Volume} {l : List ℕ}
    (h : ∀ s ∈ v.slots l, ∀ t ∈ v.slots l, (v.entry s).IsNamed → (v.entry t).IsNamed →
      (v.entry s).name = (v.entry t).name → s = t) : v.DistinctNames l := by
  have hmem : ∀ {s}, v.Shown l s → s ∈ v.slots l := fun hs => (List.takeWhile_sublist _).subset hs.1
  exact fun s t hs ht => h s (hmem hs) t (hmem ht) hs.2 ht.2

instance (v : Volume) (l : List ℕ) (s : DirCursor) : Decidable (v.Shown l s) :=
  inferInstanceAs (Decidable (_ ∧ _))

/-- A directory with the files `A` and `B`. -/
def twoFiles : Disk :=
  (fat32CreateFile tinyFs (fat32CreateFile tinyFs emptyVolume.disk [65]).2 [66]).2

/-- `touch` of a name that no entry of the root has. -/
theorem step_touch {d : Disk} {c : UInt8} (hpath : 0 ∉ [c])
    (hchain : (volume tinyFs d).forest.Chain 2 [2])
    (hslots : ((volume tinyFs d).slots [2]).length ≤ maxDirSlots)
    (hfresh : ∀ s ∈ (volume tinyFs d).slots [2], ((volume tinyFs d).entry s).IsNamed →
      ((volume tinyFs d).entry s).name ≠ formatFat32Name [c])
    (hres : resolveTarget tinyFs d [c] = some (2, [c])) (hhead : dirHead tinyFs 2 = 2)
    (hok : (fat32CreateFile tinyFs d [c]).1 = true) :
    guarded (DirCall.Step tinyFs 2) (DirCall.Safe tinyFs 2) d (.make .create [c])
      (fat32CreateFile tinyFs d [c]).2 := by
  refine ⟨fun l hl => ?_, fun path hmem => ?_, Prod.ext hok rfl⟩
  · obtain rfl := hchain.unique hl
    refine ⟨hslots, fun p name hname => ⟨fun _ s hs => ?_, fun f text _ hop => (by cases hop)⟩⟩
    obtain ⟨-, rfl⟩ := Prod.mk.inj (Option.some.inj (hres.symm.trans hname))
    exact hfresh s ((List.takeWhile_sublist _).subset hs.1) hs.2
  · obtain rfl := List.mem_singleton.mp hmem
    exact ⟨hpath, 2, [c], hres, hhead⟩

/-- `touch A` and `touch B` in an empty directory: it has two entries then, with different names. -/
theorem distinctNames_twoFiles :
    ((volume tinyFs twoFiles).Shown [2] ⟨2, 0, 0⟩ ∧ (volume tinyFs twoFiles).Shown [2] ⟨2, 0, 32⟩) ∧
      ∃ l', (volume tinyFs twoFiles).forest.Chain 2 l' ∧
        (volume tinyFs twoFiles).DistinctNames l' := by
  have hchain : (volume tinyFs emptyVolume.disk).forest.Chain 2 [2] :=
    Volume.chain_of_chainOk (show (volume tinyFs emptyVolume.disk).ChainOk [2] by decide +kernel)
  have hzero : ∀ s ∈ (volume tinyFs emptyVolume.disk).slots [2],
      (volume tinyFs emptyVolume.disk).entry s = Entry.zero := by decide +kernel
  have hnone : ∀ s ∈ (volume tinyFs emptyVolume.disk).slots [2],
      ¬ ((volume tinyFs emptyVolume.disk).entry s).IsNamed := fun s hs hn => by
    rw [hzero s hs] at hn
    exact hn.1 (.inl rfl)
  have hended : (volume tinyFs emptyVolume.disk).Ended [2] :=
    ⟨[], _, rfl, by simp, fun s hs => by rw [hzero s hs]; rfl⟩
  have hfirst := step_touch (c := 65) (by decide) hchain (by decide +kernel)
    (fun s hs hn => absurd hn (hnone s hs)) (by decide +kernel) rfl (by decide +kernel)
  have hsecond := step_touch (d := (fat32CreateFile tinyFs emptyVolume.disk [65]).2) (c := 66)
    (by decide) (Volume.chain_of_chainOk (show Volume.ChainOk _ [2] by decide +kernel))
    (by decide +kernel) (by decide +kernel) (by decide +kernel) rfl (by decide +kernel)
  refine ⟨⟨by decide +kernel, by decide +kernel⟩, ?_⟩
  exact tinyFs_geometry.distinctNames_of_run hchain hended
    (distinctNames_of_slots fun s hs _ _ hn => absurd hn (hnone s hs))
    ((Run.single hfirst).snoc hsecond)

/-- `mv A B` leaves two entries with the name of `B`. -/
theorem not_distinctNames_rename :
    (volume tinyFs twoFiles).forest.Chain 2 [2] ∧ (volume tinyFs twoFiles).DistinctNames [2] ∧
    DirCall.Step tinyFs 2 twoFiles (.rename [65] [66])
      (fat32RenameFile tinyFs twoFiles [65] [66]).2 ∧
    (volume tinyFs (fat32RenameFile tinyFs twoFiles [65] [66]).2).forest.Chain 2 [2] ∧
    ¬ (volume tinyFs (fat32RenameFile tinyFs twoFiles [65] [66]).2).DistinctNames [2] := by
  refine ⟨Volume.chain_of_chainOk (show (volume tinyFs twoFiles).ChainOk [2] by decide +kernel),
    distinctNames_of_slots (by decide +kernel), ⟨fun path hpath => ?_, Prod.ext
      (show (fat32RenameFile tinyFs twoFiles [65] [66]).1 = true by decide +kernel) rfl⟩,
    Volume.chain_of_chainOk (show (volume tinyFs
      (fat32RenameFile tinyFs twoFiles [65] [66]).2).ChainOk [2] by decide +kernel), fun h => ?_⟩
  · have hA : resolveTarget tinyFs twoFiles [65] = some (2, [65]) := by decide +kernel
    have hB : resolveTarget tinyFs twoFiles [66] = some (2, [66]) := by decide +kernel
    rcases List.mem_cons.mp hpath with rfl | hpath
    · exact ⟨by decide, 2, [65], hA, by decide +kernel⟩
    · obtain rfl := List.mem_singleton.mp hpath
      exact ⟨by decide, 2, [66], hB, by decide +kernel⟩
  · have hst := h ⟨2, 0, 0⟩ ⟨2, 0, 32⟩ (by decide +kernel) (by decide +kernel) (by decide +kernel)
    cases hst

end PsychWard.Fat32
