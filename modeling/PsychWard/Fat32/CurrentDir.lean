import PsychWard.Fat32.Directories
import PsychWard.Fat32.Overwrite
import PsychWard.Fat32.Descent

/-!
# Where the driver stands

`fat32_cd` and `fat32_resolve_parent` step into any entry that a name finds, also into a regular file.
Every call that keeps the tree consistent evolves its directories, so the current directory stays one
of the tree as long as no path steps into a file and no `rm` removes the directory the driver stands in
(`inTree_of_run`).
-/

namespace PsychWard.Fat32

open Volume

/-- The entry that `rm` removes. -/
def removedEntry (fs : Fat32Instance) (d : Disk) (path : CString) : Option Entry :=
  match resolveTarget fs d path with
  | none => none
  | some (parentClus, basename) =>
    (deleteSearch fs d (orRoot fs parentClus) basename).map fun (c, buf, _) =>
      buf.entry c.offsetInSector

namespace Geometry

variable {fs : Fat32Instance} (g : Geometry fs) {d d' : Disk} {l : List ℕ} {c p : ℕ}
  {path : CString}

include g

omit g in
/-- The directory at `c` has taken a slot of `takeSlot_spec`. -/
theorem taken_slot (hl : (volume fs d).forest.Chain c l) {l' : List ℕ} {inside last : Prop}
    (h : d' = d ∧ l' = l ∧ inside ∨
      ∃ n, Grown (volume fs d) (volume fs d') l n ∧ l' = l ++ [n] ∧ last) :
    (volume fs d').forest.Chain c l' ∧ Outside (volume fs d) (volume fs d') ((volume fs d).Room l) ∧
      (∀ x ∈ l', (volume fs d).Room l x) ∧
      ∀ up x, (volume fs d').LeadsTo c up x ↔ (volume fs d).LeadsTo c up x := by
  refine taken_cases _ hl ?_
  rcases h with ⟨rfl, hl', -⟩ | ⟨n, hgr, hl', -⟩
  · exact .inl ⟨rfl, hl'⟩
  · exact .inr ⟨n, hgr, hl'⟩

theorem fat32CreateFile_steadfast (h0 : 0 ∉ path) (hc : (volume fs d).Consistent fs.rootCluster)
    (hsafe : CreateSafe fs d path) :
    Steadfast (volume fs d) (volume fs (fat32CreateFile fs d path).2) fs.rootCluster := by
  rw [fat32CreateFile]
  rcases hres : resolveTarget fs d path with _ | ⟨p, name⟩
  · exact .refl hc
  obtain ⟨l, hdir, hslot⟩ := hsafe p name hres
  obtain ⟨slot, hscan, hlook, hr⟩ := g.dirScan_at hdir name
  rw [hlook] at hslot
  simp only [hscan]
  rcases hf : slot.found with _ | found
  · obtain ⟨r, d', htake, -, ⟨rfl, hv, -⟩ | ⟨A, q, B, l', rfl, hrun, -, hcase⟩⟩ :=
      g.takeSlot_spec hdir.chain hr hf (hslot hf)
    · simp only [htake, Option.isSome_none, Bool.false_eq_true, if_false, hv]
      exact .refl hc
    · simp only [htake, Option.isSome_none, Bool.false_eq_true, if_false, g.read, g.write]
      obtain ⟨hl', hout, hroom, hlead⟩ := taken_slot hdir.chain hcase
      have hq := hrun.place.mem_slots
      rw [g.block_eq hl'.2 hq, g.volume_write_slot hl'.2 hq]
      set e := shortEntry (formatFat32Name name) 0x20 0 0 with he
      have hz : e 0 ≠ 0 := formatFat32Name_ne_zero fun h => h0 ((name_subset hres).1 h)
      -- the new entry is a file, so it leads nowhere
      have hfile : e.isDir = false := by
        rw [he, Entry.isDir, shortEntry_attr]
        decide
      obtain ⟨hE, hent⟩ := setEntry_edit (v := volume fs d') (aligned_of_slots hq) e
      have hqr : (volume fs d).Room l q.cluster := hroom _ (mem_slots.mp hq).1
      refine steadfast_of (D := dirHead fs p) (hout.trans (hE.outside fun r hr => ?_))
        ⟨_, hE.chain hl'⟩ (fun up c => ?_) hc fun hd hne hk x hx =>
          not_room hc hdir.owner hd hne hdir.chain hk hx
      · rwa [List.mem_singleton.mp hr]
      · refine (hrun.leadsTo hE hl' fun r hr => ?_).trans ?_
        · rwa [List.mem_singleton.mp hr, hent]
        · rw [hlead, or_iff_left]
          rintro ⟨r, hr, hlead⟩
          rw [List.mem_singleton.mp hr, hent] at hlead
          exact Entry.not_leads_of_file hfile hlead
  · exact .refl hc

/-- A write behind the choice of the slot changes no directory entry. -/
theorem writeEntryAndData_leadsTo (hl : (volume fs d).forest.Chain c l) {A B : List DirCursor}
    {q : DirCursor} (hp : Place (volume fs d) l A [q] B)
    (hold : q ∈ (volume fs d).beforeEnd l → ∀ up x, ¬ ((volume fs d).entry q).Leads up x) {e : Entry}
    (h0 : e 0 ≠ 0) (hfile : e.isDir = false) (text : List UInt8) {d' : Disk}
    (hd' : (writeEntryAndData fs d (dirCursorSector fs q) q.offsetInSector 0
      ((volume fs d).block q) e text).2 = d') :
    Outside (volume fs d) (volume fs d') ((volume fs d).Room l) ∧ (volume fs d').forest.Chain c l ∧
      ∀ up x, (volume fs d').LeadsTo c up x ↔ (volume fs d).LeadsTo c up x := by
  have hqs := hp.mem_slots
  have hql : q.cluster ∈ l := (mem_slots.mp hqs).1
  obtain ⟨r, d₃, hres, ⟨m, n, d₁, d₂, hst⟩ | ⟨-, -, -, -, hback, -⟩⟩ :=
    g.writeEntryAndData_spec hl.2 hqs e text
  · rw [hres] at hd'
    obtain rfl : d₃ = d' := hd'
    -- the new chain consists of free clusters, so it touches no directory
    have hm : ∀ x ∈ m, ¬ (volume fs d).Used x := fun x hx => not_used_of_free (hst.sub hx)
    have hlm : ∀ x ∈ l, ¬ x ∈ m := fun x hx hxm => hm x hxm (hl.2 x hx)
    have hout₁ := hst.allocated.outside (S := (· ∈ m)) fun _ => id
    have hl₁ := hout₁.chain hl hlm
    set e' := (e.setClus n).setSize text.length with he'
    obtain ⟨hE, hent⟩ := setEntry_edit (v := volume fs d₁) (aligned_of_slots hqs) e'
    have hz : e' 0 ≠ 0 := by
      rw [he', e.setClus_setSize_of_lt n _ (by decide)]
      exact h0
    have hfile' : e'.isDir = false := by
      rw [he', Entry.isDir_congr (e.attr_setClus_setSize n _)]
      exact hfile
    have hslots : ∀ p ∈ (volume fs d).slots l, (volume fs d₁).entry p = (volume fs d).entry p :=
      fun p hp => by
        rw [Volume.entry, Volume.entry, hst.allocated.data_eq _ (hlm _ (mem_slots.mp hp).1)]
    have hbefore := beforeEnd_congr hst.allocated.sectorsPerCluster hslots
    have hp₁ := hp.congr hst.allocated.sectorsPerCluster hslots
    have hl₂ : (volume fs d₂).forest.Chain c l := hst.volume_entry ▸ hE.chain hl₁
    have hout₂ := hst.dataOnly.outside (S := (· ∈ m)) fun _ => id
    refine ⟨(hst.allocated.outside fun x hx => .inr (hm x hx)).trans (.trans ?_
      (hst.dataOnly.outside fun x hx => .inr (hm x hx))), hout₂.chain hl₂ hlm, fun up x => ?_⟩
    · rw [hst.volume_entry]
      exact hE.outside fun p hp => .inl (List.mem_singleton.mp hp ▸ hql)
    · rw [hout₂.leadsTo hl₂ hlm, hst.volume_entry, hp₁.leadsTo hE hl₁ (by rwa [hent]),
        hout₁.leadsTo hl hlm]
      rw [hent, hbefore, hslots q hqs]
      exact iff_of_false (Entry.not_leads_of_file hfile') fun hh => hold hh.1 up x hh.2
  · rw [hres] at hd'
    obtain rfl : d₃ = d' := hd'
    -- the disk was full: what had been taken was given back
    have hout : Outside (volume fs d) (volume fs d₃) (· ∈ (volume fs d).freeClusters) :=
      ⟨rfl, rfl, hback.fat_eq, hback.data_eq⟩
    have hlf : ∀ x ∈ l, ¬ x ∈ (volume fs d).freeClusters := fun x hx hxf =>
      not_used_of_free hxf (hl.2 x hx)
    exact ⟨hout.mono fun x hx => .inr (not_used_of_free hx), hout.chain hl hlf,
      fun up x => hout.leadsTo hl hlf⟩

theorem fat32WriteFile_steadfast {text : List UInt8} (h0 : 0 ∉ path)
    (hc : (volume fs d).Consistent fs.rootCluster) (hsafe : WriteSafe fs d path text) :
    Steadfast (volume fs d) (volume fs (fat32WriteFile fs d path text).2) fs.rootCluster := by
  rw [fat32WriteFile]
  rcases hres : resolveTarget fs d path with _ | ⟨p, name⟩
  · exact .refl hc
  obtain ⟨l, hdir, hover, hslot⟩ := hsafe p name hres
  obtain ⟨slot, hscan, hlook, hr⟩ := g.dirScan_at hdir name
  obtain ⟨o, ho⟩ := hdir.owner
  rw [hlook] at hover hslot
  simp only [hscan]
  rcases hf : slot.found with _ | f
  -- a new file takes a slot first, and then a chain
  · obtain ⟨r, d', htake, -, ⟨rfl, hv, -⟩ | ⟨A, q, B, l', rfl, hrun, -, hcase⟩⟩ :=
      g.takeSlot_spec hdir.chain hr hf (hslot hf).1
    · simp only [writeSlot, hf, htake, hv]
      exact .refl hc
    · obtain ⟨hl', hout, hroom, hlead⟩ := taken_slot hdir.chain hcase
      simp only [writeSlot, hf, htake, g.read, g.block_eq hl'.2 hrun.place.mem_slots]
      obtain ⟨hout', hl'', hlead'⟩ := g.writeEntryAndData_leadsTo hl' hrun.place
        (fun hb up x => hrun.not_leads hl'.1.nodup (List.mem_singleton_self q) hb)
        (e := shortEntry (formatFat32Name name) 0x20 0 0)
        (formatFat32Name_ne_zero fun h => h0 ((name_subset hres).1 h))
        (by rw [Entry.isDir, shortEntry_attr]; decide) text rfl
      refine steadfast_of (D := dirHead fs p) (hout.trans (hout'.mono fun x hx => ?_)) ⟨_, hl''⟩
        (fun up c => (hlead' up c).trans (hlead up c)) hc fun hd hne hk x hx =>
          not_room hc hdir.owner hd hne hdir.chain hk hx
      rcases hx with hx | hx
      · exact hroom x hx
      · exact room_of_unused hout (fun _ => id) hx
  · obtain ⟨A, B, q, hw, hA, hm, rfl⟩ := hr.of_found hf
    obtain ⟨hp, hrefs⟩ := place_of_found hw hA hm
    have hblock := g.block_eq hdir.chain.2 hp.mem_slots
    have hsafe' := hover _ hf
    rw [FoundEntry.entry, hblock] at hsafe'
    have hfile : ((volume fs d).entry q).isDir = false := hsafe'.file
    have hz : (volume fs d).entry q 0 ≠ 0 := fun h => hm.1.1 (.inl h)
    have hent : ((volume fs d).block q).entry q.offsetInSector = (volume fs d).entry q := rfl
    simp only [writeSlot, hf, g.read, hblock, hent]
    -- a file of its own is overwritten: its old chain, if it has one, is freed before the new one
    -- is allocated
    by_cases hclus : ((volume fs d).entry q).clus < 2
    · rw [writeEntryAndData_of_lt hclus]
      obtain ⟨hout, hl', hlead⟩ := g.writeEntryAndData_leadsTo hdir.chain hp
        (fun _ up x => Entry.not_leads_of_file hfile) hz hfile text rfl
      exact steadfast_of hout ⟨_, hl'⟩ hlead hc fun hd hne hk x hx =>
        not_room hc hdir.owner hd hne hdir.chain hk hx
    · have h2 : 2 ≤ ((volume fs d).entry q).clus := by omega
      have href := (hrefs _ false).mpr ⟨hm.1, hsafe'.notDot, rfl, h2, hfile⟩
      have hoq := ChainForest.Owns.ref ho hdir.chain.1 href
      obtain ⟨k, hk⟩ := hc.chain hoq
      obtain ⟨d₁, hfree, hv₁, -⟩ := g.fatFreeChain_spec hk
      rw [List.take_of_length_le (hsafe'.freed h2 k hk).1] at hv₁
      -- no cluster of the directory is in the chain of the file
      have hlk : ∀ x ∈ l, ¬ x ∈ k := fun x hx hxk => by
        obtain rfl := hc.disjoint ho hoq hdir.chain hk hx hxk
        exact absurd (hc.owns_fun ho hoq).2 (by simp)
      have hout₁ : Outside (volume fs d) (volume fs d₁) (· ∈ k) := hv₁ ▸ outside_clear fun _ => id
      have hl₁ := hout₁.chain hdir.chain hlk
      have hslots : ∀ p ∈ (volume fs d).slots l, (volume fs d₁).entry p = (volume fs d).entry p :=
        fun p _ => by
          rw [hv₁]
          rfl
      have hblock₁ : (volume fs d).block q = (volume fs d₁).block q := by
        rw [hv₁]
        rfl
      rw [writeEntryAndData_of_le h2, hfree, hblock₁]
      obtain ⟨hout, hl', hlead⟩ := g.writeEntryAndData_leadsTo hl₁
        (hp.congr hout₁.sectorsPerCluster hslots)
        (fun _ up x => by
          rw [hslots q hp.mem_slots]
          exact Entry.not_leads_of_file hfile) hz hfile text rfl
      refine steadfast_of (S := fun x => (volume fs d).Room l x ∨ x ∈ k)
        ((hout₁.mono fun _ => .inr).trans (hout.mono fun x hx => ?_)) ⟨_, hl'⟩
        (fun up c => (hlead up c).trans (hout₁.leadsTo hdir.chain hlk)) hc
        fun {e j} hd hne hj x hx => ?_
      · by_cases hxk : x ∈ k
        · exact .inr hxk
        · exact .inl (hx.imp id fun hu hu' => hu ((hout₁.used hxk).mpr hu'))
      · rintro (hroom | hxk)
        · exact not_room hc hdir.owner hd hne hdir.chain hj hx hroom
        · obtain ⟨o', ho'⟩ := hd
          obtain rfl := hc.disjoint ho' hoq hj hk hx hxk
          exact absurd (hc.owns_fun ho' hoq).2 (by simp)

omit g in
/-- Renaming an entry in place. -/
theorem renameInPlace_steadfast (hc : (volume fs d).Consistent fs.rootCluster)
    (hD : (volume fs d).InTree fs.rootCluster c) (hl : (volume fs d).forest.Chain c l)
    {A B : List DirCursor} {q : DirCursor} {new : CString} (h0 : 0 ∉ new)
    (hp : Place (volume fs d) l A [q] B) (hn : ((volume fs d).entry q).IsNamed)
    (hle : ∀ up x, ((volume fs d).entry q).Leads up x → 2 ≤ x)
    (hsafe : RenameInPlaceSafe ((volume fs d).entry q) new) :
    Steadfast (volume fs d) ((volume fs d).setEntry q
      (((volume fs d).entry q).setName (formatFat32Name new))) fs.rootCluster := by
  set e := (volume fs d).entry q
  have hq : q ∈ (volume fs d).beforeEnd l :=
    mem_beforeEnd_of_used hp.slots_eq hp.before fun h => hn.1 (.inl h)
  have hql : q.cluster ∈ l := (mem_slots.mp hp.mem_slots).1
  obtain ⟨hE, hent⟩ := setEntry_edit (v := volume fs d) (aligned_of_slots hp.mem_slots)
    (e.setName (formatFat32Name new))
  have hz : e.setName (formatFat32Name new) 0 ≠ 0 := by
    rw [Entry.setName_zero]
    exact formatFat32Name_ne_zero h0
  refine steadfast_of (hE.outside fun r hr => .inl (List.mem_singleton.mp hr ▸ hql))
    ⟨_, hE.chain hl⟩ (fun up x => hp.leadsTo hE hl (by rwa [hent]) ?_) hc
    fun hd hne hk y hy => not_room hc hD hd hne hl hk hy
  rw [hent, and_iff_right hq]
  refine Entry.leads_congr hn (Entry.isDir_congr (e.attr_setName _)) (Entry.clus_setName _ _)
    (fun h2 => ?_) hle
  obtain ⟨hdot, hname⟩ := hsafe h2
  obtain ⟨h1, h2⟩ := formatFat32Name_of_nameOk h0 hname
  exact ⟨hdot, ⟨fun hf => hf.elim hz h1, hn.2⟩, not_isDot_of_zero h2⟩

/-- What a rename to a long name makes of an entry that was removed: it leads where it led, or it is
lost and led nowhere. -/
theorem renameLong_leadsTo {e : Entry} {size : ℕ} {new : CString} (hlen : new.length ≤ 63)
    (hneeds : nameNeedsLfn new = true) (hl : (volume fs d).forest.Chain (dirHead fs p) l)
    (hn : e.IsNamed) (hle : ∀ up x, e.Leads up x → 2 ≤ x) (hsafe : RenameLongSafe fs d p l e new)
    {d' : Disk} (hd' : (dirWriteNamedEntry fs d (orRoot fs p) new e.clus size e.attr).2 = d') :
    Outside (volume fs d) (volume fs d') ((volume fs d).Room l) ∧
      (∃ l', (volume fs d').forest.Chain (dirHead fs p) l') ∧
      ∀ up x, (volume fs d').LeadsTo (dirHead fs p) up x ↔
        (volume fs d).LeadsTo (dirHead fs p) up x ∨ e.Leads up x := by
  obtain ⟨r, d₂, hw, ⟨-, hv, hfail⟩ |
    ⟨-, v₁, l', A, R, B, q, cand, hgrown, hfr, hE, hent, halias, hmap⟩⟩ :=
    g.dirWriteNamedEntry_spec e.clus size e.attr hlen hneeds hl hsafe.run
  · rw [hw] at hd'
    obtain rfl : d₂ = d' := hd'
    -- the old entry is gone already: what it led to would be lost
    have hlt : ¬ 2 ≤ e.clus := fun h2 => by
      rcases hfail with halias | ⟨hfree, st, last, hfull⟩
      · exact hsafe.shortAlias h2 halias
      · exact hsafe.room h2 st last hfull hfree
    rw [hv]
    refine ⟨.refl _ _, ⟨l, hl⟩, fun up x => ?_⟩
    rw [or_iff_left fun he : e.Leads up x => hlt (he.clus ▸ hle up x he)]
  · rw [hw] at hd'
    obtain rfl : d₂ = d' := hd'
    obtain ⟨h1, h2, h3⟩ := generateShortAlias_getD halias
    obtain ⟨hl', hout, hroom, hlead⟩ := taken_cases v₁ hl
      (hgrown.imp (fun ⟨hv, hl, _⟩ => ⟨hv, hl⟩) fun ⟨n, hgr, hl, _⟩ => ⟨n, hgr, hl⟩)
    have hlfn : ∀ r ∈ R ++ [q], r ≠ q →
        ((volume fs d₂).entry r).attr = 0x0F ∧ (volume fs d₂).entry r 0 ≠ 0 := fun r hr hrq =>
      lfn_of_map hmap (by omega) ((List.mem_append.mp hr).resolve_right (by simpa using hrq))
    have hmem : ∀ r ∈ R ++ [q], r.cluster ∈ l' := fun r hr =>
      (mem_slots.mp (show r ∈ v₁.slots l' by
        rw [hfr.slots_eq]
        exact List.mem_append_right _ (List.mem_append_left _ hr))).1
    refine ⟨hout.trans (hE.outside fun r hr => hroom _ (hmem r hr)), ⟨_, hE.chain hl'⟩,
      fun up x => ?_⟩
    -- the new entry leads where the old one led; the long-name entries before it lead nowhere
    have hsame : ((volume fs d₂).entry q).Leads up x ↔ e.Leads up x := by
      rw [hent]
      exact Entry.leads_congr hn (Entry.isDir_congr (shortEntry_attr _ _ _ _))
        (shortEntry_clus _ _ _ _ e.clus_lt) (fun hc2 => ⟨hsafe.notDot hc2,
          ⟨fun hf => hf.elim h1 h2, hn.2.1, hn.2.2⟩, not_isDot_of_zero h3⟩) hle
    rw [hfr.leadsTo hE hl' fun r hr => ?_, hlead, ← hsame]
    · refine or_congr_right ⟨?_, fun he => ⟨q, by simp, he⟩⟩
      rintro ⟨r, hr, he⟩
      by_cases hrq : r = q
      · exact hrq ▸ he
      · exact absurd he (Entry.not_leads_of_lfn (hlfn r hr hrq).1)
    · by_cases hrq : r = q
      · rw [hrq, hent, shortEntry_zero]
        exact h1
      · exact (hlfn r hr hrq).2

theorem fat32RenameFile_steadfast {oldPath newPath : CString} (h0 : 0 ∉ newPath)
    (hc : (volume fs d).Consistent fs.rootCluster) (hup : (volume fs d).Upright fs.rootCluster)
    (hsafe : RenameSafe fs d oldPath newPath) : Steadfast (volume fs d)
      (volume fs (fat32RenameFile fs d oldPath newPath).2) fs.rootCluster := by
  rw [fat32RenameFile]
  rcases hold : resolveTarget fs d oldPath with _ | ⟨p, old⟩
  · exact .refl hc
  rcases hnew : resolveTarget fs d newPath with _ | ⟨p', new⟩
  · exact .refl hc
  simp only
  by_cases hpp : p = p'
  case neg =>
    rw [if_pos hpp]
    exact .refl hc
  -- within one directory
  subst hpp
  rw [if_neg (not_not.mpr rfl)]
  obtain ⟨l, hdir, hsafe⟩ := hsafe p old new hold hnew
  obtain ⟨slot, hscan, hlook, hr⟩ := g.dirScan_at hdir old
  have hbind : (dirScan fs d (orRoot fs p) old).bind DirSlot.found = slot.found := hlook
  rw [hbind]
  rw [hlook] at hsafe
  rcases hf : slot.found with _ | f
  · exact .refl hc
  obtain ⟨hin, hlong⟩ := hsafe f hf
  obtain ⟨A, B, q, hw, hA, hm, rfl⟩ := hr.of_found hf
  obtain ⟨hp, -⟩ := place_of_found hw hA hm
  have hl := hdir.chain
  have hblock := g.block_eq hl.2 hp.mem_slots
  have hent : FoundEntry.entry ⟨dirCursorSector fs q, q.offsetInSector, ((volume fs d).entry q).clus,
      ((volume fs d).entry q).size⟩ d = (volume fs d).entry q := by
    rw [FoundEntry.entry, hblock]
    rfl
  rw [hent] at hin hlong
  simp only [g.read, hblock]
  set e := (volume fs d).entry q
  have hz : e 0 ≠ 0 := fun h => hm.1.1 (.inl h)
  have hle : ∀ up c, e.Leads up c → 2 ≤ c := fun up c he => hup.two_le hc hdir.owner
    ((leadsTo_iff hl).mpr ⟨q, mem_beforeEnd_of_used hp.slots_eq hp.before hz, he⟩)
  -- a short name is stored in place, a long one gets new entries once the old ones are marked
  rcases hneeds : nameNeedsLfn new with _ | _
  · simp only [Bool.false_eq_true, if_false, g.write]
    rw [g.volume_write_slot hl.2 hp.mem_slots]
    exact renameInPlace_steadfast hc hdir.owner hl (fun h => h0 ((name_subset hnew).1 h)) hp hm.1 hle
      (hin hneeds)
  · simp only [if_true, g.write]
    have hlong := hlong hneeds
    obtain ⟨A', R, hmk⟩ := g.unlinked_marked hl hp.slots_eq hp.before hz e.clus e.size
    have hun : unlinked d ⟨dirCursorSector fs q, q.offsetInSector, e.clus, e.size⟩ =
        d.write (dirCursorSector fs q) (markLfnBefore
          (((volume fs d).block q).put q.offsetInSector deleted) (q.offsetInSector / 32)) := by
      rw [unlinked]
      simp only [hblock]
    rw [hun] at hmk hlong
    set d₁ := d.write (dirCursorSector fs q) (markLfnBefore
      (((volume fs d).block q).put q.offsetInSector deleted) (q.offsetInSector / 32))
    change Steadfast (volume fs d)
      (volume fs (dirWriteNamedEntry fs d₁ (orRoot fs p) new e.clus e.size e.attr).2) _
    obtain ⟨hout, hchain, hlead⟩ := g.renameLong_leadsTo (name_subset hnew).2 hneeds
      (hmk.edit.chain hl) hm.1 hle hlong rfl
    refine steadfast_of ((hmk.outside fun _ => .inl).trans (hout.mono fun x hx => ?_)) hchain
      (fun up c => ?_) hc fun hd hne hk y hy => not_room hc hdir.owner hd hne hl hk hy
    · exact hx.imp id fun hu hu' => hu ((hmk.edit.used x).mpr hu')
    · rw [hlead, hmk.leadsTo hl]

/-- `mkdir` adds one directory. -/
theorem fat32Mkdir_evolves (h0 : 0 ∉ path) (hc : (volume fs d).Consistent fs.rootCluster)
    (hsafe : MkdirSafe fs d path) (hparent : ∀ p name, resolveTarget fs d path = some (p, name) →
      (volume fs d).InTree fs.rootCluster p) : ∃ born, Evolves (volume fs d)
        (volume fs (fat32Mkdir fs d path).2) fs.rootCluster born fun _ => False := by
  rw [fat32Mkdir]
  rcases hres : resolveTarget fs d path with _ | ⟨p, name⟩
  · exact ⟨_, Steadfast.refl hc⟩
  obtain ⟨l, hdir, hslot⟩ := hsafe p name hres
  obtain ⟨slot, hscan, hlook, hr⟩ := g.dirScan_at hdir name
  rw [hlook] at hslot
  simp only [hscan]
  rcases hf : slot.found with _ | found
  case some => exact ⟨_, Steadfast.refl hc⟩
  obtain ⟨hss, hname⟩ := hslot hf
  have hp : (volume fs d).InTree fs.rootCluster p := hparent p name hres
  have hp2 := hp.two_le hc
  have hhead : dirHead fs p = p := dirHead_of_two_le hp2
  obtain ⟨r, d', htake, -, ⟨rfl, hv, -⟩ | ⟨A, q, B, l', rfl, hrun, -, hcase⟩⟩ :=
    g.takeSlot_spec hdir.chain hr hf hss
  · simp only [htake, Option.isSome_none, Bool.false_eq_true, if_false, hv]
    exact ⟨_, Steadfast.refl hc⟩
  have hl := hdir.chain
  obtain ⟨hl', hout, hroom, hlead⟩ := taken_slot hl hcase
  rw [hhead] at hl hl' hlead
  have hother : ∀ {x k}, (volume fs d).InTree fs.rootCluster x → x ≠ p →
      (volume fs d).forest.Chain x k → ∀ y ∈ k, ¬ (volume fs d).Room l y := fun hd hne hk y hy =>
    not_room hc hp hd hne hl hk hy
  obtain ⟨n, d₂, halloc, -, hsome, hnone⟩ := g.fatAllocChain_spec 1 d'
  simp only [htake, Option.isSome_none, Bool.false_eq_true, if_false, halloc]
  rcases hfree : (volume fs d').freeClusters with _ | ⟨n', rest⟩
  · -- no cluster is left
    rw [hfree] at hnone
    obtain ⟨rfl, hback⟩ := hnone (by simp)
    rw [if_pos rfl]
    have hsame : Outside (volume fs d') (volume fs d₂) fun _ => False :=
      ⟨rfl, rfl, fun x _ => hback.fat_eq x (by simp [hfree]),
        fun x _ => hback.data_eq x (by simp [hfree])⟩
    exact ⟨_, steadfast_of (hout.trans (hsame.mono fun _ => False.elim))
      ⟨_, hsame.chain hl' fun _ _ => id⟩
      (fun up c => (hsame.leadsTo hl' fun _ _ => id).trans (hlead up c)) hc hother⟩
  rw [hfree] at hsome
  obtain ⟨rfl, hal⟩ := hsome (by simp)
  simp only [List.take_succ_cons, List.take_zero] at hal ⊢
  have hmem : n ∈ (volume fs d').freeClusters := by simp [hfree]
  have hin := (mem_freeClusters.mp hmem).1
  have hn32 : n < 2 ^ 32 := lt_trans (g.lt_two_pow hin.2) (by decide)
  have hl₂ : (volume fs d₂).forest.Chain p l' := hal.chain (by simpa using hmem) hl'
  have hq₂ : q ∈ (volume fs d₂).slots l' := by
    rw [slots_congr hal.sectorsPerCluster]
    exact hrun.place.mem_slots
  rw [if_neg (show n ≠ 0 by have := hin.1; omega), g.read]
  simp only [g.write]
  rw [g.clusterToSector_eq hin, g.volume_write_data hin g.sectors_pos,
    g.volume_write_slot hl₂.2 hq₂, g.block_eq hl₂.2 hq₂]
  refine ⟨_, evolves_newDir hc hp hl hout hl' hroom hlead hrun hal hmem hn32 ?_
    (e := shortEntry (formatFat32Name name) 0x10 n 0) ?_⟩
  · obtain ⟨k, hk⟩ := hp.chain hc
    exact lt_trans (g.lt_two_pow (hk.2 _ hk.1.mem_head : (volume fs d).Used p).1.2) (by decide)
  · obtain ⟨h1, h2⟩ := shortEntry_isNamed 0x10
      (fun h => h0 ((name_subset hres).1 h)) hname (by decide) (by decide) n 0
    refine ⟨h1, iff_of_false h2 (by simp), ?_, shortEntry_clus _ _ _ _ hn32, by have := hin.1; omega⟩
    rw [Entry.isDir, shortEntry_attr]
    decide

/-- `rm` takes away the directory that it removes, and no other. -/
theorem fat32DeleteFile_evolves (hc : (volume fs d).Consistent fs.rootCluster)
    (hup : (volume fs d).Upright fs.rootCluster) (hsafe : DeleteSafe fs d path) :
    ∃ gone, Evolves (volume fs d) (volume fs (fat32DeleteFile fs d path).2) fs.rootCluster
        (fun _ _ => False) gone ∧
      ∀ x, gone x → ∃ e, removedEntry fs d path = some e ∧ e.isDir = true ∧ e.clus = x := by
  rw [fat32DeleteFile, removedEntry]
  rcases hres : resolveTarget fs d path with _ | ⟨p, name⟩
  · exact ⟨_, Steadfast.refl hc, fun _ => False.elim⟩
  obtain ⟨l, hdir, hsafe⟩ := hsafe p name hres
  rcases hsearch : deleteSearch fs d (orRoot fs p) name with _ | ⟨q, buf, start⟩
  · simp only [hsearch]
    exact ⟨_, Steadfast.refl hc, fun _ => False.elim⟩
  simp only [hsearch, g.write]
  obtain ⟨o, ho⟩ := hdir.owner
  have hl := hdir.chain
  have hsafe := hsafe q buf start hsearch
  obtain ⟨A, B, i, m, hs, hA, hn, rfl, hi, hi16, rfl, hm, hattr⟩ := g.deleteSearch_spec hl hsearch
  have hent : ((volume fs d).block q).entry q.offsetInSector = (volume fs d).entry q := rfl
  rw [hent] at hsafe ⊢
  obtain ⟨A', R, hmk⟩ := g.marked_of_block hl
    (markDeleted (((volume fs d).block q).put q.offsetInSector deleted) (32 * m)
      ((q.offsetInSector - 32 * m) / 32)) hs hA (fun h => hn.1 (.inl h)) hi hm hattr fun j => by
        rw [hi]
        exact markDeleted_run _ hm hi16 j
  set d₁ := d.write (dirCursorSector fs q) (markDeleted (((volume fs d).block q).put
    q.offsetInSector deleted) (32 * m) ((q.offsetInSector - 32 * m) / 32))
  set e := (volume fs d).entry q
  have hq : q ∈ (volume fs d).beforeEnd l := mem_beforeEnd_of_used hs hA fun h => hn.1 (.inl h)
  -- an entry with a chain takes it along; any other one is only marked
  by_cases h2 : 2 ≤ e.clus
  · obtain ⟨hdot, hchain⟩ := hsafe h2
    have href : (volume fs d).forest.refs l q e.clus e.isDir := ⟨hq, hn, hdot, rfl, h2, rfl⟩
    obtain ⟨k, hk⟩ := hc.chain (.ref ho hl.1 href)
    obtain ⟨hlen, hempty⟩ := hchain k hk
    obtain ⟨d₂, hfree, hv₂, -⟩ := g.fatFreeChain_spec (hmk.edit.chain hk)
    rw [List.take_of_length_le hlen] at hv₂
    rw [if_pos h2, hfree]
    obtain ⟨gone, hev, hgone⟩ := hmk.evolves_clear hc hup ho hl href hk hempty
    simp only [hv₂]
    exact ⟨gone, hev, fun x hx => ⟨e, rfl, (hgone x hx).1, (hgone x hx).2.symm⟩⟩
  · rw [if_neg h2]
    refine ⟨_, steadfast_of (D := dirHead fs p) (hmk.outside fun _ => .inl) ⟨_, hmk.edit.chain hl⟩
      (fun up c => ?_) hc fun hd hne hk x hx => not_room hc hdir.owner hd hne hl hk hx,
      fun _ => False.elim⟩
    have hle : ∀ up c, e.Leads up c → 2 ≤ c := fun up c hlead =>
      hup.two_le hc hdir.owner ((leadsTo_iff hl).mpr ⟨q, hq, hlead⟩)
    rw [hmk.leadsTo hl, or_iff_left fun he : e.Leads up c => h2 (he.clus ▸ hle up c he)]

end Geometry

/-! ## Steps of a path -/

section Paths

variable (fs : Fat32Instance) (d : Disk)

/-- What the name leads to, if anything, is a directory. -/
def OnlyDir (h : ℕ) (name : CString) : Prop :=
  ∀ f, ¬ RootDots fs h name → lookup fs d h name = some f → (f.entry d).isDir = true

/-- The components before the last one lead to directories, as far as they lead anywhere. -/
def OnlyDirs (path : CString) : Prop := ∀ x ∈ lookups fs d path, OnlyDir fs d x.1 x.2

end Paths

namespace Geometry

variable {fs : Fat32Instance} (g : Geometry fs) {d : Disk} {h : ℕ} {name path : CString}
  (hc : (volume fs d).Consistent fs.rootCluster) (hup : (volume fs d).Upright fs.rootCluster)

include g hc hup

/-- A step from a directory of the tree to a directory ends in the tree. -/
theorem inTree_of_find (hh : (volume fs d).InTree fs.rootCluster h) (honly : OnlyDir fs d h name)
    (hfind : fat32FindInDir fs d h name ≠ notFound) :
    (volume fs d).InTree fs.rootCluster (orRoot fs (fat32FindInDir fs d h name)) := by
  have hroot : 2 ≤ fs.rootCluster := InTree.two_le hc inTree_root
  have hroot' : orRoot fs fs.rootCluster = fs.rootCluster := if_neg (by omega)
  by_cases hdots : RootDots fs h name
  · rw [fat32FindInDir_dots hdots, hroot']
    exact inTree_root
  rw [fat32FindInDir_eq hroot hdots] at hfind ⊢
  rcases hlook : lookup fs d h name with _ | f
  · rw [hlook] at hfind
    exact absurd rfl hfind
  simp only [Option.map_some, Option.getD_some]
  obtain ⟨l, hl⟩ := hh.chain hc
  obtain ⟨A, B, q, hw, hA, hm, rfl⟩ :=
    g.lookup_some ((dirHead_of_two_le (hh.two_le hc)).symm ▸ hl) hlook
  obtain ⟨hp, -⟩ := place_of_found hw hA hm
  have hdir := honly _ hdots hlook
  rw [FoundEntry.entry, g.block_eq hl.2 hp.mem_slots] at hdir
  by_cases h0 : ((volume fs d).entry q).clus = 0
  · rw [orRoot, if_pos h0]
    exact inTree_root
  · rw [orRoot, if_neg h0]
    have hq := mem_beforeEnd_of_used hp.slots_eq hp.before fun h0 => hm.1.1 (.inl h0)
    have hlead : (volume fs d).LeadsTo h ((volume fs d).entry q).IsDot
        ((volume fs d).entry q).clus :=
      (leadsTo_iff hl).mpr ⟨q, hq, hm.1, by simp, hdir, rfl, h0⟩
    exact hup.inTree hh hlead

theorem resolveFrom_inTree {fuel clus : ℕ} {p : CString}
    (hclus : (volume fs d).InTree fs.rootCluster clus)
    (honly : ∀ x ∈ lookupsFrom fs d fuel p clus, OnlyDir fs d x.1 x.2) :
    (resolveFrom fs d fuel p clus).1 = notFound ∨
      (volume fs d).InTree fs.rootCluster (resolveFrom fs d fuel p clus).1 := by
  induction fuel generalizing p clus with
  | zero => exact .inr hclus
  | succ fuel ih =>
    rw [resolveFrom]
    rw [lookupsFrom] at honly
    by_cases hp : p = []
    · rw [if_pos hp]
      exact .inr hclus
    rw [if_neg hp] at honly ⊢
    by_cases hr : (nextToken p).2 = []
    · simp only [hr, if_true]
      exact .inr hclus
    simp only [hr, if_false] at honly ⊢
    by_cases hn : fat32FindInDir fs d clus (nextToken p).1 = notFound
    · rw [if_pos hn]
      exact .inl rfl
    rw [if_neg hn] at honly ⊢
    exact ih (g.inTree_of_find hc hup hclus (honly _ List.mem_cons_self) hn) fun x hx =>
      honly x (List.mem_cons_of_mem _ hx)

/-- The directory of the last component of a path. -/
theorem resolveParent_inTree (hcur : (volume fs d).InTree fs.rootCluster fs.currentDirCluster)
    (honly : OnlyDirs fs d path) : (fat32ResolveParent fs d path).1 = notFound ∨
      (volume fs d).InTree fs.rootCluster (fat32ResolveParent fs d path).1 := by
  have hcur2 : ¬ fs.currentDirCluster = 0 := by
    have := hcur.two_le hc
    omega
  rw [OnlyDirs, lookups] at honly
  rw [fat32ResolveParent]
  by_cases hs : path.head? = some slash
  · rw [if_pos hs] at honly ⊢
    exact g.resolveFrom_inTree hc hup inTree_root honly
  · rw [if_neg hs, if_neg hcur2] at honly
    rw [if_neg hs, if_neg hcur2]
    exact g.resolveFrom_inTree hc hup hcur honly

/-- `cd` along directories. -/
theorem cd_inTree (hcur : (volume fs d).InTree fs.rootCluster fs.currentDirCluster)
    (honly : myStrcmp path [slash] ≠ 0 → OnlyDirs fs d path ∧
      OnlyDir fs d (fat32ResolveParent fs d path).1 (fat32ResolveParent fs d path).2) :
    (volume fs d).InTree fs.rootCluster (fat32Cd fs d path).2.currentDirCluster := by
  rw [fat32Cd]
  by_cases hslash : myStrcmp path [slash] = 0
  · rw [if_pos hslash]
    exact inTree_root
  obtain ⟨hdirs, hlast⟩ := honly hslash
  rw [if_neg hslash]
  simp only
  by_cases hr : (fat32ResolveParent fs d path).1 = notFound
  · rw [if_pos hr]
    exact hcur
  rw [if_neg hr]
  by_cases hfind : fat32FindInDir fs d (fat32ResolveParent fs d path).1
      (fat32ResolveParent fs d path).2 = notFound
  · rw [if_pos hfind]
    exact hcur
  rw [if_neg hfind]
  exact g.inTree_of_find hc hup
    ((g.resolveParent_inTree hc hup hcur hdirs).resolve_left hr) hlast hfind

end Geometry

/-! ## Runs -/

namespace Mounted

/-- The calls that leave the driver in a directory: no path of `mkdir` or `cd` steps into a regular
file, and `rm` does not remove the current directory. -/
def Stays (s : Mounted) : Call → Prop
  | .mkdir path => OnlyDirs s.fs s.disk path.1
  | .delete path => ∀ e, removedEntry s.fs s.disk path.1 = some e → e.isDir = true →
      e.clus ≠ s.fs.currentDirCluster
  | .cd path => myStrcmp path.1 [slash] ≠ 0 → OnlyDirs s.fs s.disk path.1 ∧
      OnlyDir s.fs s.disk (fat32ResolveParent s.fs s.disk path.1).1
        (fat32ResolveParent s.fs s.disk path.1).2
  | _ => True

/-- The call keeps the tree consistent and leaves the driver in a directory. -/
def Sound (s : Mounted) (c : Call) : Prop := s.Safe c ∧ s.Stays c

/-- The invariant: the driver stands in a directory of a tree in order. -/
structure Placed (s : Mounted) : Prop where
  geometry : Geometry s.fs
  consistent : s.Consistent
  upright : (volume s.fs s.disk).Upright s.fs.rootCluster
  inTree : s.InTree

namespace Placed

variable {s t : Mounted} {c : Call}

/-- What a call does to the directories, the current one carries over. -/
theorem evolve {d' : Disk} {born : ℕ → ℕ → Prop} {gone : ℕ → Prop} (h : s.Placed)
    (hc' : (volume s.fs d').Consistent s.fs.rootCluster)
    (hev : Evolves (volume s.fs s.disk) (volume s.fs d') s.fs.rootCluster born gone)
    (hgone : ¬ gone s.fs.currentDirCluster) : Placed ⟨s.fs, d'⟩ :=
  ⟨h.geometry, hc', hev.upright h.consistent hc' h.upright, hev.inTree h.consistent h.inTree hgone⟩

/-- What one call preserves. -/
theorem step (h : s.Placed) (hsound : s.Sound c) (hstep : s.Step c t) : t.Placed := by
  have hc' := (step_consistent hstep h.geometry h.consistent hsound.1).2
  obtain ⟨hsafe, hstays⟩ := hsound
  obtain rfl := hstep
  have g := h.geometry
  -- by the call; only `rm` and `cd` can touch what the driver stands in
  cases c with
  | create path => exact h.evolve hc' (g.fat32CreateFile_steadfast path.2.2 h.consistent hsafe) id
  | write path text => exact h.evolve hc' (g.fat32WriteFile_steadfast path.2.2 h.consistent hsafe) id
  | mkdir path =>
    obtain ⟨born, hev⟩ := g.fat32Mkdir_evolves path.2.2 h.consistent hsafe fun p name hres => by
      rw [resolveTarget] at hres
      split at hres
      case isTrue => cases hres
      case isFalse hne =>
        rw [not_or] at hne
        have hp := (g.resolveParent_inTree h.consistent h.upright h.inTree hstays).resolve_left hne.1
        rwa [Option.some.inj hres] at hp
    exact h.evolve hc' hev id
  | delete path =>
    obtain ⟨gone, hev, hgone⟩ := g.fat32DeleteFile_evolves h.consistent h.upright hsafe
    refine h.evolve hc' hev fun hg => ?_
    obtain ⟨e, he, hdir, hclus⟩ := hgone _ hg
    exact hstays e he hdir hclus
  | rename oldPath newPath =>
    exact h.evolve hc' (g.fat32RenameFile_steadfast newPath.2.2 h.consistent h.upright hsafe) id
  | cd path =>
    have hin := g.cd_inTree h.consistent h.upright h.inTree hstays
    obtain ⟨c, hcd⟩ := fat32Cd_eq s.fs s.disk path.1
    rw [call, hcd] at hc' ⊢
    rw [hcd] at hin
    exact ⟨g.cd c, hc', h.upright, hin⟩

end Placed

/-- From a freshly mounted volume in order, in every run of sound calls the current directory is one
of the tree after every call. -/
theorem inTree_of_run {s t : Mounted} {cs : List Call} (g : Geometry s.fs) (hc : s.Consistent)
    (hup : (volume s.fs s.disk).Upright s.fs.rootCluster)
    (hmount : s.fs.currentDirCluster = s.fs.rootCluster)
    (h : Run (guarded Step Sound) s cs t) : t.InTree := by
  have hplaced : s.Placed := ⟨g, hc, hup, by
    rw [InTree, hmount]
    exact inTree_root⟩
  exact (h.invariant (fun _ _ _ hI he => hI.step he.1 he.2) hplaced).inTree

end Mounted

/-! ## Small volumes -/

/-- A tree with the root directory only. -/
theorem Volume.inTree_iff_root {v : Volume} {root : ℕ} {l : List ℕ} (hc : v.Consistent root)
    (hl : v.forest.Chain root l) (hfiles : ∀ p ∈ v.beforeEnd l, (v.entry p).isDir = false) {d : ℕ}
    (hd : v.InTree root d) : d = root := by
  refine hd.induction hc (P := fun d => d = root) rfl fun e c _ he hlead _ => ?_
  obtain ⟨p, hp, hlead⟩ := (leadsTo_iff (he ▸ hl)).mp hlead
  exact absurd hlead (Entry.not_leads_of_file (hfiles p hp))

theorem Volume.upright_of_files {v : Volume} {root : ℕ} {l : List ℕ} (hc : v.Consistent root)
    (hl : v.forest.Chain root l) (hfiles : ∀ p ∈ v.beforeEnd l, (v.entry p).isDir = false) :
    v.Upright root := by
  have hnone : ∀ {d up c}, v.InTree root d → ¬ v.LeadsTo d up c := by
    intro d up c hd hlead
    obtain rfl := inTree_iff_root hc hl hfiles hd
    obtain ⟨p, hp, hlead⟩ := (leadsTo_iff hl).mp hlead
    exact Entry.not_leads_of_file (hfiles p hp) hlead
  exact ⟨fun hd hlead => absurd hlead (hnone hd), fun hd hlead => absurd hlead (hnone hd)⟩

/-- The path `F`. -/
def pathF : Path := ⟨[70], by decide⟩

/-- A file named `F` in the root directory. -/
def fileVolume : Mounted := ⟨tinyFs, fileDisk byteEntry [2, 3]⟩

namespace Mounted

/-- `mkdir D` and `cd D` in an empty volume. -/
theorem inTree_of_run_mkdir_cd :
    ((emptyVolume.call (.mkdir pathD)).2.call (.cd pathD)).2.InTree := by
  have hroot : (volume emptyVolume.fs emptyVolume.disk).ChainOk [2] := by decide +kernel
  have hchain : (volume emptyVolume.fs emptyVolume.disk).forest.Chain 2 [2] := chain_of_chainOk hroot
  have hup : (volume emptyVolume.fs emptyVolume.disk).Upright emptyVolume.fs.rootCluster :=
    upright_of_files emptyVolume_consistent hchain (by decide +kernel)
  set t := (emptyVolume.call (.mkdir pathD)).2 with ht
  have hlast : OnlyDir t.fs t.disk (fat32ResolveParent t.fs t.disk pathD.1).1
      (fat32ResolveParent t.fs t.disk pathD.1).2 := by
    have hfound : (lookup t.fs t.disk (fat32ResolveParent t.fs t.disk pathD.1).1
        (fat32ResolveParent t.fs t.disk pathD.1).2).map (fun f => (f.entry t.disk).isDir) =
          some true := by decide +kernel
    intro f _ hf
    rw [hf, Option.map_some] at hfound
    exact Option.some.inj hfound
  have hmkdir : guarded Step Sound emptyVolume (.mkdir pathD) t :=
    ⟨⟨emptyVolume_mkdirSafe, fun x hx => absurd hx (List.not_mem_nil (a := x))⟩, rfl⟩
  have hcd : guarded Step Sound t (.cd pathD) (t.call (.cd pathD)).2 :=
    ⟨⟨trivial, fun _ => ⟨fun x hx => absurd hx (List.not_mem_nil (a := x)), hlast⟩⟩, rfl⟩
  exact inTree_of_run tinyFs_geometry emptyVolume_consistent hup rfl (.snoc (.single hmkdir) hcd)

/-- Is the current directory one of the tree after every run? `cd F` enters a regular file. -/
theorem not_inTree_file : ¬ ∀ (s t : Mounted) (cs : List Call), Geometry s.fs →
    s.Consistent → (volume s.fs s.disk).Upright s.fs.rootCluster →
      s.fs.currentDirCluster = s.fs.rootCluster → Run Step s cs t → t.InTree := by
  intro h
  have hc : fileVolume.Consistent := byteFile_consistent
  have hroot : (volume fileVolume.fs fileVolume.disk).ChainOk [2] := by decide +kernel
  have hchain : (volume fileVolume.fs fileVolume.disk).forest.Chain 2 [2] := chain_of_chainOk hroot
  have hfiles : ∀ p ∈ (volume fileVolume.fs fileVolume.disk).beforeEnd [2],
      ((volume fileVolume.fs fileVolume.disk).entry p).isDir = false := by decide +kernel
  have hin := h fileVolume _ [.cd pathF] tinyFs_geometry hc (upright_of_files hc hchain hfiles) rfl
    (.single rfl)
  have hcur : (fileVolume.call (.cd pathF)).2.fs.currentDirCluster = 3 := by decide +kernel
  have h3 : 3 = 2 := by
    rw [InTree, hcur] at hin
    exact inTree_iff_root hc hchain hfiles hin
  exact absurd h3 (by decide)

end Mounted

end PsychWard.Fat32
