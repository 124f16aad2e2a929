import PsychWard.Fat32.NamedEntry
import PsychWard.Fat32.FreeChain
import PsychWard.Fat32.Allocation

/-!
# Removing a file

What `rm` of a regular file does to the table and to the names of its directory. The entry and the
long-name entries in front of it become a `Hole`, which a search leaves with an empty long-name
buffer. Before the call a search could leave the entry with a buffer that was not empty, since
`dir_scan` keeps what it has of a long name that lost its first piece. `removed_iff` says when this
makes no difference to the other names.
-/

namespace PsychWard.Fat32

/-! ## The first character of the buffer -/

theorem LfnBuf.store_zero {buf buf' : LfnBuf} {e : Entry} (h : buf 0 = buf' 0) :
    buf.store e 0 = buf'.store e 0 := by
  by_cases hseq : 1 ≤ lfnSeq e ∧ lfnSeq e ≤ 20
  · rw [store_apply hseq, store_apply hseq, h]
  · have hsame : ∀ b : LfnBuf, b.store e = b := fun b => if_neg hseq
    rw [hsame, hsame, h]

theorem lfnStep_zero (buf : LfnBuf) (e : Entry) :
    lfnStep buf e 0 = if ¬ e.IsFree ∧ e.attr = 0x0F then buf.store e 0 else 0 := by
  rw [lfnStep]
  by_cases hfree : e.IsFree
  · rw [if_pos hfree, if_neg fun h => h.1 hfree]
    rfl
  · rw [if_neg hfree]
    by_cases hl : e.attr = 0x0F
    · rw [if_pos hl, if_pos ⟨hfree, hl⟩]
    · have hno : ¬ (¬ e.IsFree ∧ e.attr = 0x0F) := fun h => hl h.2
      rw [if_neg hno, if_neg hl]
      by_cases hlabel : e.attr &&& 0x08 = 0
      · rw [if_neg (not_not.mpr hlabel)]
        by_cases h0 : buf 0 = 0
        · rw [if_neg (not_not.mpr h0), h0]
        · rw [if_pos h0]
          rfl
      · rw [if_pos hlabel]
        rfl

theorem deleteLfnStep_zero (buf : LfnBuf) (e : Entry) :
    deleteLfnStep buf e 0 = if ¬ e.IsFree ∧ e.attr = 0x0F then buf.store e 0 else 0 := by
  rw [deleteLfnStep]
  by_cases hfree : e.IsFree
  · rw [if_pos hfree, if_neg fun h => h.1 hfree]
    rfl
  · rw [if_neg hfree]
    by_cases hl : e.attr = 0x0F
    · rw [if_pos hl, if_pos ⟨hfree, hl⟩]
    · rw [if_neg hl, if_neg fun h => hl h.2]
      rfl

/-- Entries are compared alike as long as the buffer is empty, whatever it holds further on. -/
theorem entryMatches_congr {buf buf' : LfnBuf} {e : Entry} {t : CString} (ht : 0 ∉ t)
    (h : buf 0 = buf' 0) (hstr : buf' 0 ≠ 0 → buf.str.map toUpper = buf'.str.map toUpper) :
    entryMatches buf e t = entryMatches buf' e t := by
  rw [entryMatches, entryMatches, h]
  by_cases h0 : buf' 0 = 0
  · rw [if_neg (not_not.mpr h0), if_neg (not_not.mpr h0)]
  · rw [if_pos h0, if_pos h0, decide_eq_decide, myStrcasecmp_eq_zero (zero_notMem_str _) ht,
      myStrcasecmp_eq_zero (zero_notMem_str _) ht, hstr h0]

namespace Volume

variable {v v' : Volume} {step step' : LfnBuf → Entry → LfnBuf} {t name : CString}
  {l : List ℕ} {S A R B P : List DirCursor} {q r : DirCursor}

/-- Two scanners whose rules agree on the first character of the buffer keep it the same. -/
theorem foldl_zero_congr (hstep : ∀ b b' e, b 0 = b' 0 → step b e 0 = step' b' e 0)
    (S : List DirCursor) {buf buf' : LfnBuf} (h : buf 0 = buf' 0) :
    S.foldl (fun buf p => step buf (v.entry p)) buf 0 =
      S.foldl (fun buf p => step' buf (v.entry p)) buf' 0 := by
  induction S generalizing buf buf' with
  | nil => exact h
  | cons p S ih => exact ih (hstep buf buf' (v.entry p) h)

theorem bufferAfter_delete_zero (A : List DirCursor) :
    v.bufferAfter lfnStep A 0 = v.bufferAfter deleteLfnStep A 0 :=
  foldl_zero_congr (fun b b' e h => by rw [lfnStep_zero, deleteLfnStep_zero, LfnBuf.store_zero h])
    A rfl

/-- What stands in front of an empty buffer does not change its first character. -/
theorem bufferAfter_append_zero (hP : v.bufferAfter lfnStep P 0 = 0) (A : List DirCursor) :
    v.bufferAfter lfnStep (P ++ A) 0 = v.bufferAfter lfnStep A 0 := by
  rw [bufferAfter, List.foldl_append]
  exact foldl_zero_congr (fun b b' e h => by rw [lfnStep_zero, lfnStep_zero, LfnBuf.store_zero h])
    A hP

/-- The buffer is empty behind an entry with a name. -/
theorem bufferAfter_named_zero (hq : (v.entry q).IsNamed) :
    v.bufferAfter lfnStep (A ++ [q]) 0 = 0 := by
  rw [bufferAfter_snoc, lfnStep_zero, if_neg fun h => hq.2.1 h.2]

/-! ## Where a search ends -/

theorem exists_of_firstCarrier (P : List DirCursor)
    (h : v.firstCarrier step t (v.bufferAfter step P) S = some r) :
    ∃ A B, S = A ++ r :: B ∧ (∀ a ∈ A, v.entry a 0 ≠ 0) ∧ v.Carries step t (P ++ A) r := by
  induction S generalizing P with
  | nil => cases h
  | cons p S ih =>
    rw [firstCarrier_cons] at h
    by_cases h0 : v.entry p 0 = 0
    · rw [if_pos h0] at h
      cases h
    · rw [if_neg h0] at h
      by_cases hc : v.Carries step t P p
      · rw [if_pos hc] at h
        obtain rfl := Option.some.inj h
        exact ⟨[], S, rfl, by simp, by rwa [List.append_nil]⟩
      · rw [if_neg hc] at h
        obtain ⟨A, B, rfl, hA, hr⟩ := ih (P ++ [p]) h
        refine ⟨p :: A, B, rfl, fun a ha => ?_, by simpa using hr⟩
        rcases List.mem_cons.mp ha with rfl | ha
        · exact h0
        · exact hA a ha

/-- A search passes deleted slots and forgets what it collected. -/
theorem firstCarrier_deleted (hR : ∀ r ∈ R, v.entry r 0 = deleted) (hne : R ≠ []) (buf : LfnBuf) :
    v.firstCarrier lfnStep t buf (R ++ B) = v.firstCarrier lfnStep t .clear B := by
  have h0 : ∀ r ∈ R, v.entry r 0 ≠ 0 := fun r hr => by
    rw [hR r hr]
    decide
  cases R with
  | nil => exact absurd rfl hne
  | cons r R =>
    have hfree : (v.entry r).IsFree := .inr (hR r List.mem_cons_self)
    rw [List.cons_append, firstCarrier, if_neg (h0 r List.mem_cons_self), if_neg fun h => h.1.1 hfree,
      lfnStep_of_free _ hfree]
    refine firstCarrier_free (fun r hr => .inr (hR r (List.mem_cons_of_mem _ hr))) ?_
    rintro ⟨s, hs, hzero⟩
    exact absurd hzero (h0 s (List.mem_cons_of_mem _ hs))

/-- The live entry in slot `p` of the directory `l` has the name `t` for a search. -/
def Bears (v : Volume) (l : List ℕ) (t : CString) (p : DirCursor) : Prop :=
  ∃ A B, v.walked l = A ++ p :: B ∧ (∀ a ∈ A, v.entry a 0 ≠ 0) ∧ v.Carries lfnStep t A p

/-- No name matches two live entries of the directory. -/
def Unambiguous (v : Volume) (l : List ℕ) : Prop :=
  ∀ t, 0 ∉ t → ∀ p q, v.Bears l t p → v.Bears l t q → p = q

theorem bears_of_firstCarrier (h : v.firstCarrier lfnStep t .clear (v.walked l) = some r) :
    v.Bears l t r := exists_of_firstCarrier [] h

/-- Where no name matches two entries, a search finds the one that has the name. -/
theorem Unambiguous.firstCarrier_eq (h : v.Unambiguous l) (ht : 0 ∉ t) (hr : v.Bears l t r) :
    v.firstCarrier lfnStep t .clear (v.walked l) = some r := by
  obtain ⟨A, B, hw, hA, hc⟩ := hr
  have hrest : v.firstCarrier lfnStep t (v.bufferAfter lfnStep A) (r :: B) = some r := by
    rw [firstCarrier_cons, if_neg fun h0 => hc.1.1 (.inl h0), if_pos hc]
  obtain ⟨s, hs⟩ : ∃ s, v.firstCarrier lfnStep t .clear (v.walked l) = some s := by
    rw [hw, firstCarrier_append_or hA]
    rw [bufferAfter] at hrest
    rw [hrest]
    cases v.firstCarrier lfnStep t .clear A with
    | none => exact ⟨r, rfl⟩
    | some s => exact ⟨s, rfl⟩
  rw [hs, h t ht s r (bears_of_firstCarrier hs) ⟨A, B, hw, hA, hc⟩]

/-! ## A hole in a directory -/

/-- The slots `R` and `q` of a directory are marked as deleted: an entry and long-name entries in front
of it. The directory is otherwise the old one. -/
structure Hole (v v' : Volume) (l : List ℕ) (A R B : List DirCursor) (q : DirCursor) : Prop where
  walked_eq : v.walked l = A ++ (R ++ q :: B)
  walked_same : v'.walked l = v.walked l
  before : ∀ p ∈ A ++ R, v.entry p 0 ≠ 0
  named : (v.entry q).IsNamed
  lfn : ∀ p ∈ R, (v.entry p).attr = 0x0F
  marked : ∀ p ∈ R ++ [q], v'.entry p 0 = deleted
  same : ∀ p ∈ A ++ B, v'.entry p = v.entry p

namespace Hole

variable (h : Hole v v' l A R B q)

include h

theorem walked_split : v.walked l = (A ++ R) ++ q :: B := by
  rw [h.walked_eq, List.append_assoc]

/-- The search for a name before the slots were marked. -/
theorem search_before (t : CString) : v.firstCarrier lfnStep t .clear (v.walked l) =
    (v.firstCarrier lfnStep t .clear A).or (if v.Carries lfnStep t (A ++ R) q then some q
      else v.firstCarrier lfnStep t (v.bufferAfter lfnStep (A ++ R ++ [q])) B) := by
  have hR : ∀ r ∈ R, (v.entry r).attr = 0x0F ∧ v.entry r 0 ≠ 0 := fun r hr =>
    ⟨h.lfn r hr, h.before r (List.mem_append_right _ hr)⟩
  have hfront : v.firstCarrier lfnStep t .clear (A ++ R) = v.firstCarrier lfnStep t .clear A := by
    rw [firstCarrier_append_or fun a ha => h.before a (List.mem_append_left _ ha)]
    have hnone := firstCarrier_lfn (t := t) (B := []) hR
      (A.foldl (fun buf p => lfnStep buf (v.entry p)) .clear)
    rw [List.append_nil] at hnone
    rw [hnone]
    exact Option.or_none
  have hrest : v.firstCarrier lfnStep t (v.bufferAfter lfnStep (A ++ R)) (q :: B) = _ :=
    firstCarrier_cons (A ++ R) q B
  rw [if_neg fun h0 => h.named.1 (.inl h0)] at hrest
  rw [h.walked_split, firstCarrier_append_or h.before, hfront, ← hrest]
  rfl

/-- The search for a name goes past the marked slots with an empty buffer. -/
theorem search_after (t : CString) : v'.firstCarrier lfnStep t .clear (v'.walked l) =
    (v.firstCarrier lfnStep t .clear A).or (v.firstCarrier lfnStep t .clear B) := by
  have hA : ∀ a ∈ A, v'.entry a = v.entry a := fun a ha => h.same a (List.mem_append_left _ ha)
  have hB : ∀ b ∈ B, v'.entry b = v.entry b := fun b hb => h.same b (List.mem_append_right _ hb)
  have hA0 : ∀ a ∈ A, v'.entry a 0 ≠ 0 := fun a ha => by
    rw [hA a ha]
    exact h.before a (List.mem_append_left _ ha)
  have hsplit : R ++ q :: B = (R ++ [q]) ++ B := by simp
  rw [h.walked_same, h.walked_eq, firstCarrier_append_or hA0, firstCarrier_congr hA, hsplit,
    firstCarrier_deleted h.marked (by simp), firstCarrier_congr hB]

/-- What a search finds afterwards is an entry of before. -/
theorem mem_of_search_after (hs : v'.firstCarrier lfnStep t .clear (v'.walked l) = some r) :
    r ∈ A ++ B := by
  rw [h.search_after] at hs
  rcases Option.or_eq_some_iff.mp hs with hs | ⟨-, hs⟩
  · exact List.mem_append_left _ (mem_of_firstCarrier hs)
  · exact List.mem_append_right _ (mem_of_firstCarrier hs)

end Hole

/-- Behind the entry with the name, an entry has the same long name, up to the case of letters, with and
without the fragments that the search still keeps from in front of it. -/
def TailAlike (v : Volume) (target : CString) (l : List ℕ) : Prop :=
  ∀ A q B r C, v.walked l = A ++ q :: (B ++ r :: C) → (∀ p ∈ A ++ B, v.entry p 0 ≠ 0) →
    v.Carries lfnStep target A q → (v.entry r).IsNamed → v.bufferAfter lfnStep B 0 ≠ 0 →
      (v.bufferAfter lfnStep (A ++ q :: B)).str.map toUpper =
        (v.bufferAfter lfnStep B).str.map toUpper

/-- A search behind such an entry. -/
theorem TailAlike.firstCarrier_eq (h : v.TailAlike name l) (hw : v.walked l = A ++ q :: B)
    (hA : ∀ a ∈ A, v.entry a 0 ≠ 0) (hq : v.Carries lfnStep name A q) (ht : 0 ∉ t) :
    v.firstCarrier lfnStep t (v.bufferAfter lfnStep (A ++ [q])) B =
      v.firstCarrier lfnStep t .clear B := by
  suffices hgen : ∀ C D, B = C ++ D → (∀ c ∈ C, v.entry c 0 ≠ 0) →
      v.firstCarrier lfnStep t (v.bufferAfter lfnStep (A ++ [q] ++ C)) D =
        v.firstCarrier lfnStep t (v.bufferAfter lfnStep C) D by
    have hall := hgen [] B rfl (by simp)
    rw [List.append_nil] at hall
    exact hall
  intro C D hB hC
  -- on what the search has not seen yet
  induction D generalizing C with
  | nil => rfl
  | cons r D ih =>
    rw [firstCarrier_cons, firstCarrier_cons]
    by_cases h0 : v.entry r 0 = 0
    · rw [if_pos h0, if_pos h0]
    · have hboth : v.Carries lfnStep t (A ++ [q] ++ C) r ↔ v.Carries lfnStep t C r := by
        refine and_congr_right fun hr => ?_
        have hzero := bufferAfter_append_zero (bufferAfter_named_zero (A := A) hq.1) C
        rw [entryMatches_congr ht hzero fun hne => ?_]
        rw [List.append_assoc, List.singleton_append]
        refine h A q C r D (by rw [hw, hB]) (fun p hp => ?_) hq hr hne
        rcases List.mem_append.mp hp with hp | hp
        · exact hA p hp
        · exact hC p hp
      rw [if_neg h0, if_neg h0, if_congr hboth rfl rfl, List.append_assoc (A ++ [q])]
      rw [ih (C ++ [r]) (by rw [hB, List.append_assoc]; rfl) fun c hc => ?_]
      rcases List.mem_append.mp hc with hc | hc
      · exact hC c hc
      · rwa [List.mem_singleton.mp hc]

namespace Hole

variable (h : Hole v v' l A R B q) (hnd : (v.walked l).Nodup)

include h hnd

theorem notMem_of_hole : q ∉ A ∧ q ∉ B ∧ ∀ s ∈ B, s ∉ A := by
  rw [h.walked_split, List.nodup_append, List.nodup_cons] at hnd
  obtain ⟨-, ⟨hqB, -⟩, hdis⟩ := hnd
  refine ⟨fun hq => ?_, hqB, fun s hs hsA => ?_⟩
  · exact hdis q (List.mem_append_left _ hq) q List.mem_cons_self rfl
  · exact hdis s (List.mem_append_left _ hsA) s (List.mem_cons_of_mem _ hs) rfl

/-- The slot of the hole splits the directory in one way only. -/
theorem front_eq {P Q : List DirCursor} (hw : v.walked l = P ++ q :: Q) : P = A ++ R ∧ Q = B := by
  rw [hw] at hnd
  exact split_unique hnd (hw.symm.trans h.walked_split)

/-- If the search found the entry, nothing in front of it has the name. -/
theorem carries_of_found (hfound : v.firstCarrier lfnStep name .clear (v.walked l) = some q) :
    v.firstCarrier lfnStep name .clear A = none ∧ v.Carries lfnStep name (A ++ R) q := by
  obtain ⟨hqA, hqB, -⟩ := h.notMem_of_hole hnd
  rw [h.search_before] at hfound
  rcases Option.or_eq_some_iff.mp hfound with hs | ⟨hnone, hs⟩
  · exact absurd (mem_of_firstCarrier hs) hqA
  · refine ⟨hnone, ?_⟩
    by_contra hno
    rw [if_neg hno] at hs
    exact hqB (mem_of_firstCarrier hs)

/-- If the name is gone, the entry that the deletion marked is the one that the search found. -/
theorem found_eq (hfound : v.firstCarrier lfnStep name .clear (v.walked l) = some r)
    (hdel : v.firstCarrier deleteLfnStep name .clear (v.walked l) = some q)
    (hgone : v'.firstCarrier lfnStep name .clear (v'.walked l) = none) : r = q := by
  rw [h.search_before] at hfound
  rw [h.search_after, Option.or_eq_none_iff] at hgone
  rw [hgone.1, Option.none_or] at hfound
  by_cases hc : v.Carries lfnStep name (A ++ R) q
  · rw [if_pos hc] at hfound
    exact (Option.some.inj hfound).symm
  · rw [if_neg hc] at hfound
    -- the deletion read a long name that the search read with more pieces, and then forgot
    obtain ⟨P, Q, hw, -, hdc⟩ := exists_of_firstCarrier [] hdel
    obtain ⟨rfl, -⟩ := h.front_eq hnd hw
    have hzero := bufferAfter_delete_zero (v := v) (A ++ R)
    have hne : v.bufferAfter lfnStep (A ++ R) 0 ≠ 0 := by
      intro h0
      refine hc ⟨h.named, ?_⟩
      have hmatch := hdc.2
      rw [List.nil_append, entryMatches, if_neg (not_not.mpr (hzero.symm.trans h0))] at hmatch
      rw [entryMatches, if_neg (not_not.mpr h0)]
      exact hmatch
    have hclear : v.bufferAfter lfnStep (A ++ R ++ [q]) = .clear := by
      rw [bufferAfter_snoc, lfnStep_of_named _ h.named, if_pos hne]
    rw [hclear, hgone.2] at hfound
    cases hfound

/-- If the other names resolve as before, long names behind the hole read alike. -/
theorem tailAlike_of_others (hun : v.Unambiguous l)
    (hfound : v.firstCarrier lfnStep name .clear (v.walked l) = some q)
    (hothers : ∀ t, 0 ∉ t → v.firstCarrier lfnStep t .clear (v.walked l) ≠ some q →
      v'.firstCarrier lfnStep t .clear (v'.walked l) =
        v.firstCarrier lfnStep t .clear (v.walked l)) (h0 : 0 ∉ name) : v.TailAlike name l := by
  intro P s C r D hw hbefore hs hr hne
  have hbears : v.Bears l name s :=
    ⟨P, _, hw, fun a ha => hbefore a (List.mem_append_left _ ha), hs⟩
  obtain rfl := hun name h0 s q hbears (bears_of_firstCarrier hfound)
  obtain ⟨rfl, rfl⟩ := h.front_eq hnd hw
  obtain ⟨-, hsB, hdis⟩ := h.notMem_of_hole hnd
  have hrB : r ∈ C ++ r :: D := by simp
  -- the name that the search reads at `r`
  have hzero : v.bufferAfter lfnStep (A ++ R ++ [s] ++ C) 0 = v.bufferAfter lfnStep C 0 :=
    bufferAfter_append_zero (bufferAfter_named_zero h.named) C
  have happ : A ++ R ++ s :: C = A ++ R ++ [s] ++ C := by simp
  have ht := zero_notMem_str (v.bufferAfter lfnStep (A ++ R ++ s :: C))
  set t := (v.bufferAfter lfnStep (A ++ R ++ s :: C)).str with htdef
  have hct : v.Carries lfnStep t (A ++ R ++ s :: C) r := by
    refine ⟨hr, ?_⟩
    rw [entryMatches, if_pos (by rw [happ, hzero]; exact hne), decide_eq_true_eq, ← htdef,
      myStrcasecmp_eq_zero ht ht]
  have hrt : v.Bears l t r := by
    refine ⟨A ++ R ++ s :: C, D, by rw [hw]; simp, fun a ha => ?_, hct⟩
    rcases List.mem_append.mp ha with ha | ha
    · exact h.before a ha
    · rcases List.mem_cons.mp ha with rfl | ha
      · exact fun hzero => h.named.1 (.inl hzero)
      · exact hbefore a (List.mem_append_right _ ha)
  have hfirst := hun.firstCarrier_eq ht hrt
  have hrs : r ≠ s := ne_of_mem_of_not_mem hrB hsB
  have hafter := hothers t ht (by rw [hfirst]; exact fun heq => hrs (Option.some.inj heq))
  rw [hfirst, h.search_after] at hafter
  -- it still reads this name there
  rcases Option.or_eq_some_iff.mp hafter with hmem | ⟨-, hrest⟩
  · exact absurd (mem_of_firstCarrier hmem) (hdis r hrB)
  · obtain ⟨C', D', hC', -, hc'⟩ := exists_of_firstCarrier [] hrest
    rw [hw, List.nodup_append, List.nodup_cons] at hnd
    obtain ⟨rfl, -⟩ := split_unique hnd.2.1.2 hC'
    have hmatch := hc'.2
    rw [List.nil_append, entryMatches, if_pos hne, decide_eq_true_eq,
      myStrcasecmp_eq_zero (zero_notMem_str _) ht] at hmatch
    exact hmatch.symm

/-- If long names behind the hole read alike, a search finds there what it found before. -/
theorem search_of_tailAlike (htail : v.TailAlike name l)
    (hfound : v.firstCarrier lfnStep name .clear (v.walked l) = some q) (ht : 0 ∉ t) :
    v.firstCarrier lfnStep t .clear (v.walked l) =
      (v.firstCarrier lfnStep t .clear A).or (if v.Carries lfnStep t (A ++ R) q then some q
        else v.firstCarrier lfnStep t .clear B) := by
  rw [h.search_before, htail.firstCarrier_eq h.walked_split h.before
    (h.carries_of_found hnd hfound).2 ht]

theorem gone_of_tailAlike (hun : v.Unambiguous l) (htail : v.TailAlike name l)
    (hfound : v.firstCarrier lfnStep name .clear (v.walked l) = some q) (h0 : 0 ∉ name) :
    v'.firstCarrier lfnStep name .clear (v'.walked l) = none := by
  obtain ⟨hnone, hc⟩ := h.carries_of_found hnd hfound
  obtain ⟨-, hqB, -⟩ := h.notMem_of_hole hnd
  rw [h.search_after, hnone, Option.none_or]
  by_contra hsome
  obtain ⟨r, hr⟩ := Option.ne_none_iff_exists'.mp hsome
  -- the entry behind the hole had the name before
  have hr' := hr
  rw [← htail.firstCarrier_eq h.walked_split h.before hc h0] at hr'
  obtain ⟨C, D, hB, hC, hcr⟩ := exists_of_firstCarrier _ hr'
  have hrq : r = q := by
    refine hun name h0 r q ⟨A ++ R ++ [q] ++ C, D, by rw [h.walked_split, hB]; simp, ?_, hcr⟩
      (bears_of_firstCarrier hfound)
    intro a ha
    rcases List.mem_append.mp ha with ha | ha
    · rcases List.mem_append.mp ha with ha | ha
      · exact h.before a ha
      · rw [List.mem_singleton.mp ha]
        exact fun hzero => h.named.1 (.inl hzero)
    · exact hC a ha
  exact hqB (hrq ▸ mem_of_firstCarrier hr)

theorem others_of_tailAlike (htail : v.TailAlike name l)
    (hfound : v.firstCarrier lfnStep name .clear (v.walked l) = some q) (ht : 0 ∉ t)
    (hne : v.firstCarrier lfnStep t .clear (v.walked l) ≠ some q) :
    v'.firstCarrier lfnStep t .clear (v'.walked l) =
      v.firstCarrier lfnStep t .clear (v.walked l) := by
  have hbefore := h.search_of_tailAlike hnd htail hfound ht
  rw [hbefore] at hne
  rw [h.search_after, hbefore]
  cases hA : v.firstCarrier lfnStep t .clear A with
  | some s => rfl
  | none =>
    rw [hA, Option.none_or] at hne
    rw [if_neg fun hc => hne (if_pos hc)]

/-- The name disappears and no other one changes exactly if the deletion found the entry that the
search finds and the long names behind it read alike. -/
theorem names_iff (hun : v.Unambiguous l) (h0 : 0 ∉ name)
    (hfound : v.firstCarrier lfnStep name .clear (v.walked l) = some r)
    (hdel : v.firstCarrier deleteLfnStep name .clear (v.walked l) = some q) :
    (v'.firstCarrier lfnStep name .clear (v'.walked l) = none ∧
      ∀ t, 0 ∉ t → v.firstCarrier lfnStep t .clear (v.walked l) ≠
          v.firstCarrier lfnStep name .clear (v.walked l) →
        v'.firstCarrier lfnStep t .clear (v'.walked l) =
          v.firstCarrier lfnStep t .clear (v.walked l)) ↔
      v.ReadAlike name l ∧ v.TailAlike name l := by
  rw [← firstCarrier_eq_iff hnd, hdel]
  constructor
  · rintro ⟨hgone, hothers⟩
    obtain rfl := h.found_eq hnd hfound hdel hgone
    rw [hfound] at hothers
    exact ⟨hfound, h.tailAlike_of_others hnd hun hfound hothers h0⟩
  · rintro ⟨hq, htail⟩
    refine ⟨h.gone_of_tailAlike hnd hun htail hq h0, fun t ht hne => ?_⟩
    rw [hq] at hne
    exact h.others_of_tailAlike hnd htail hq ht hne

end Hole

/-- `.` and `..` of the directory lead to chains. -/
def DotsLead (v : Volume) (l : List ℕ) : Prop :=
  ∀ s, v.Shown l s → (v.entry s).IsDot → 2 ≤ (v.entry s).clus →
    ∃ k, v.forest.Chain (v.entry s).clus k

end Volume

open Volume

/-- The path names the regular file with the entry `f` and the clusters `m`, in the directory `p` with
the clusters `l`. -/
structure ChainedFile (fs : Fat32Instance) (d : Disk) (path name : CString) (p : ℕ) (f : FoundEntry)
    (l m : List ℕ) : Prop where
  resolve : resolveTarget fs d path = some (p, name)
  dir : DirAt fs d p l
  found : lookup fs d p name = some f
  file : (f.entry d).isDir = false
  notDot : ¬ (f.entry d).IsDot
  chain : if f.clus < 2 then m = [] else (volume fs d).forest.Chain f.clus m

/-- What `rm` is for: the name is gone, the clusters `m` are free in every copy of the table, all its
other entries are the old ones, and so is what every other name of the directory leads to. -/
structure Removed (fs : Fat32Instance) (d d' : Disk) (p : ℕ) (name : CString) (m : List ℕ) :
    Prop where
  gone : lookup fs d' p name = none
  freed : ∀ k < fs.fatCount, ∀ c ∈ m, copyEntry fs d' k c % 2 ^ 28 = 0
  kept : ∀ k < fs.fatCount, ∀ c, InTable fs c → c ∉ m → copyEntry fs d' k c = copyEntry fs d k c
  others : ∀ t, 0 ∉ t → lookup fs d p t ≠ lookup fs d p name → lookup fs d' p t = lookup fs d p t

/-- The hole is in the disk as well once the chain is freed. -/
theorem Volume.Hole.congr {v v₁ v' : Volume} {l : List ℕ} {A R B : List DirCursor} {q : DirCursor}
    (h : Hole v v₁ l A R B q) (hspc : v'.sectorsPerCluster = v₁.sectorsPerCluster)
    (he : ∀ s, v'.entry s = v₁.entry s) : Hole v v' l A R B q where
  walked_eq := h.walked_eq
  walked_same := by rw [← h.walked_same, walked, walked, slots_congr hspc]
  before := h.before
  named := h.named
  lfn := h.lfn
  marked := fun s hs => by rw [he, h.marked s hs]
  same := fun s hs => by rw [he, h.same s hs]

/-- Marked slots within the reach of a walk are a hole. -/
theorem Volume.Marked.hole {v v' : Volume} {l : List ℕ} {A R B : List DirCursor} {q : DirCursor}
    (h : Marked v v' l A R B q) (hn : (v.entry q).IsNamed) (hnd : l.Nodup) (hq : q ∈ v.walked l) :
    ∃ B₁, Hole v v' l A R B₁ q := by
  have hsplit : v.slots l = (A ++ R) ++ q :: B := by
    rw [h.slots_eq]
    simp
  obtain ⟨B₁, hw⟩ := Geometry.walked_of_mem hnd hsplit hq
  have hB : B = B₁ ++ v.slots (l.drop walkLimit) := by
    rw [slots_eq_walked_append, hw, List.append_assoc] at hsplit
    exact (List.cons.inj (List.append_cancel_left hsplit)).2.symm
  refine ⟨B₁, by rw [hw, List.append_assoc], ?_, h.before, hn, h.lfn, fun s hs => ?_, fun s hs => ?_⟩
  · rw [walked, walked, slots_congr h.edit.sectorsPerCluster]
  · rw [h.marked s hs, Entry.setByte_zero]
  · refine h.edit.around h.slots_eq hnd ?_
    rw [hB, ← List.append_assoc]
    exact List.mem_append_left _ hs

namespace Geometry

variable {fs : Fat32Instance} (g : Geometry fs) {d d' : Disk} {l m : List ℕ} {p c : ℕ}
  {path name t : CString} {f : FoundEntry} {A R B : List DirCursor} {q r : DirCursor}

include g

theorem volumeShape (hc : c < fs.clusters) : VolumeShape fs where
  bytes := g.bytes
  copies_pos := g.copies_pos
  dataStart := g.dataStart
  dataStart_lt := by
    have hlt := g.sectors_lt
    have hpos : 0 < fs.clusters * fs.sectorsPerCluster := Nat.mul_pos (by omega) g.sectors_pos
    omega

/-- A write to the sector of a slot leaves the table alone. -/
theorem copyEntry_write_slot (hl : ∀ x ∈ l, (volume fs d).Used x) (hq : q ∈ (volume fs d).slots l)
    (b : Block) {k : ℕ} (hk : k < fs.fatCount) (hc : InTable fs c) :
    copyEntry fs (d.write (dirCursorSector fs q) b) k c = copyEntry fs d k c := by
  obtain ⟨hsec, hin, -⟩ := g.dirCursorSector_eq hl hq
  have hshape := g.volumeShape hin.2
  refine copyEntry_congr (fun s hs => Function.update_of_ne ?_ _ _) hk hc
  rintro rfl
  rw [hsec] at hs
  exact hshape.not_inCopies_dataSector hs

/-- What a successful deletion does: the slots are marked, then the chain of the entry is freed. -/
theorem deletion_spec (hl : (volume fs d).forest.Chain (dirHead fs p) l)
    (hres : resolveTarget fs d path = some (p, name)) (hok : (fat32DeleteFile fs d path).1 = true) :
    ∃ A R B q b, (volume fs d).firstCarrier deleteLfnStep name .clear ((volume fs d).walked l) =
        some q ∧ q ∈ (volume fs d).walked l ∧ (volume fs d).Shown l q ∧
      Hole (volume fs d) (volume fs (d.write (dirCursorSector fs q) b)) l A R B q ∧
      Edit (volume fs d) (volume fs (d.write (dirCursorSector fs q) b)) (R ++ [q]) ∧
      (fat32DeleteFile fs d path).2 = if 2 ≤ ((volume fs d).entry q).clus then
        (fatFreeChain fs (d.write (dirCursorSector fs q) b) ((volume fs d).entry q).clus).2
        else d.write (dirCursorSector fs q) b := by
  have hfound : (deleteSearch fs d (orRoot fs p) name).map Prod.fst = _ := g.deleteSearch_fst hl
  rw [fat32DeleteFile, hres] at hok ⊢
  rcases hsearch : deleteSearch fs d (orRoot fs p) name with _ | ⟨q, buf, start⟩
  · simp only [hsearch] at hok
    cases hok
  obtain ⟨A, B, i, n, hs, hA, hn, rfl, hi, hi16, rfl, hm, hattr⟩ := g.deleteSearch_spec hl hsearch
  obtain ⟨A', R, hmk⟩ := g.marked_of_block hl
    (markDeleted (((volume fs d).block q).put q.offsetInSector deleted) (32 * n)
      ((q.offsetInSector - 32 * n) / 32)) hs hA (fun h => hn.1 (.inl h)) hi hm hattr fun j => by
        rw [hi]
        exact markDeleted_run _ hm hi16 j
  rw [hsearch, Option.map_some] at hfound
  have hq := mem_of_firstCarrier hfound.symm
  obtain ⟨B₁, hhole⟩ := hmk.hole hn hl.1.nodup hq
  refine ⟨A', R, B₁, q, _, hfound.symm, hq, ⟨?_, hn⟩, hhole, hmk.edit, ?_⟩
  · exact mem_beforeEnd_of_used hs hA fun h0 => hn.1 (.inl h0)
  · simp only [hsearch, g.write]
    rfl

/-- What is left of the volume: the marked slots, and some free clusters. -/
theorem deletion_volume {d₁ : Disk} (hsep : (volume fs d).forest.Separated
      (rootOnly fs.rootCluster)) (hdir : DirAt fs d p l) (hdots : (volume fs d).DotsLead l)
    (hq : (volume fs d).Shown l q) (hE : Edit (volume fs d) (volume fs d₁) R) :
    ∃ x, volume fs (if 2 ≤ ((volume fs d).entry q).clus then
      (fatFreeChain fs d₁ ((volume fs d).entry q).clus).2 else d₁) = (volume fs d₁).clear x := by
  by_cases h2 : 2 ≤ ((volume fs d).entry q).clus
  · obtain ⟨k, hk⟩ : ∃ k, (volume fs d).forest.Chain ((volume fs d).entry q).clus k := by
      by_cases hdot : ((volume fs d).entry q).IsDot
      · exact hdots q hq hdot h2
      · obtain ⟨o, ho⟩ := hdir.owner
        exact hsep.chain (.ref ho hdir.chain.1 ⟨hq.1, hq.2, hdot, rfl, h2, rfl⟩)
    obtain ⟨d₂, hfree, hv, -⟩ := g.fatFreeChain_spec (hE.chain hk)
    rw [if_pos h2, hfree]
    exact ⟨_, hv⟩
  · rw [if_neg h2]
    exact ⟨[], by simp [clear]⟩

omit g in
theorem volume_fat_eq (hc : c < fs.clusters) (hlt : c < 2 ^ 30) :
    (volume fs d).fat c = copyEntry fs d 0 c % 2 ^ 28 := by
  rw [volume_fat hc, ← copyEntry_mod, Nat.mod_eq_of_lt hlt]

/-- A chain whose entries in the first copy are the old ones. -/
theorem chain_of_kept (h : (volume fs d).forest.Chain c l)
    (hkept : ∀ x ∈ l, InTable fs x → copyEntry fs d' 0 x = copyEntry fs d 0 x) :
    (volume fs d').forest.Chain c l := by
  refine chain_congr h rfl fun x hx => ?_
  have hu : (volume fs d).Used x := h.2 x hx
  have hlt := g.lt_two_pow hu.1.2
  rw [volume_fat_eq hu.1.2 (by omega), volume_fat_eq hu.1.2 (by omega),
    hkept x hx ((g.volumeShape hu.1.2).inTable_iff.mpr hu.1.2)]

/-! ## The file -/

omit g in
theorem shown_of_bears (h : (volume fs d).Bears l t r) : (volume fs d).Shown l r := by
  obtain ⟨A, B, hw, hA, hc⟩ := h
  refine ⟨mem_beforeEnd_of_used (A := A) (B := B ++ (volume fs d).slots (l.drop walkLimit)) ?_ hA
    fun h0 => hc.1.1 (.inl h0), hc.1⟩
  rw [slots_eq_walked_append, hw, List.append_assoc]
  rfl

/-- The slot of the file. -/
theorem ChainedFile.slot (hf : ChainedFile fs d path name p f l m) :
    ∃ r, (volume fs d).firstCarrier lfnStep name .clear ((volume fs d).walked l) = some r ∧
      f.clus = ((volume fs d).entry r).clus ∧
      (2 ≤ f.clus → (volume fs d).forest.refs l r f.clus false) := by
  have hlook := hf.found
  rw [g.lookup_eq_firstCarrier hf.dir.chain] at hlook
  obtain ⟨r, hr, rfl⟩ := Option.map_eq_some_iff.mp hlook
  have hshown := shown_of_bears (bears_of_firstCarrier hr)
  have hentry : FoundEntry.entry ⟨dirCursorSector fs r, r.offsetInSector,
      ((volume fs d).entry r).clus, ((volume fs d).entry r).size⟩ d = (volume fs d).entry r := by
    rw [FoundEntry.entry, g.block_eq hf.dir.chain.2 (mem_slots_of_walked (mem_of_firstCarrier hr))]
    rfl
  have hfile := hf.file
  have hdot := hf.notDot
  rw [hentry] at hfile hdot
  exact ⟨r, hr, rfl, fun h2 => ⟨hshown.1, hshown.2, hdot, rfl, h2, hfile⟩⟩

/-- The clusters of the file are none of its directory. -/
theorem ChainedFile.disjoint (hsep : (volume fs d).forest.Separated (rootOnly fs.rootCluster))
    (hf : ChainedFile fs d path name p f l m) : ∀ x ∈ l, x ∉ m := by
  intro x hxl hxm
  obtain ⟨r, -, -, hrefs⟩ := ChainedFile.slot g hf
  obtain ⟨o, ho⟩ := hf.dir.owner
  have hchain := hf.chain
  by_cases h2 : f.clus < 2
  · rw [if_pos h2] at hchain
    rw [hchain] at hxm
    cases hxm
  · rw [if_neg h2] at hchain
    have hown := ChainForest.Owns.ref ho hf.dir.chain.1 (hrefs (by omega))
    obtain rfl := hsep.disjoint ho hown hf.dir.chain hchain hxl hxm
    cases (hsep.owns_fun ho hown).2

/-- The table once the slots of the file are marked and its chain is freed. -/
theorem freed_kept {d₁ : Disk} (hlen : m.length ≤ 65536)
    (hchain : if c < 2 then m = [] else (volume fs d₁).forest.Chain c m)
    (htable : ∀ k < fs.fatCount, ∀ x, InTable fs x → copyEntry fs d₁ k x = copyEntry fs d k x)
    (hd' : d' = if 2 ≤ c then (fatFreeChain fs d₁ c).2 else d₁) :
    (∀ k < fs.fatCount, ∀ x ∈ m, copyEntry fs d' k x % 2 ^ 28 = 0) ∧
      ∀ k < fs.fatCount, ∀ x, InTable fs x → x ∉ m → copyEntry fs d' k x = copyEntry fs d k x := by
  by_cases h2 : c < 2
  · rw [if_pos h2] at hchain
    rw [if_neg (by omega)] at hd'
    subst hd' hchain
    exact ⟨fun _ _ _ hx => absurd hx List.not_mem_nil, fun k hk x hx _ => htable k hk x hx⟩
  · rw [if_neg h2] at hchain
    have hin : ∀ x ∈ m, InFat fs x := by
      intro x hx
      have hu : (volume fs d₁).Used x := hchain.2 x hx
      have hlt := g.lt_two_pow hu.1.2
      exact ⟨by omega, (g.volumeShape hu.1.2).inTable_iff.mpr hu.1.2⟩
    obtain ⟨d₂, hfree, hfreed⟩ := g.tableLayout.fatFreeChain_spec (by omega)
      (g.walk_fatNext hchain) hin
    rw [List.take_of_length_le hlen] at hfreed
    rw [if_pos (by omega), hfree] at hd'
    subst hd'
    refine ⟨fun k hk x hx => ?_, fun k hk x hx hxm => ?_⟩
    · rw [hfreed.freed k hk x hx]
      exact Nat.mul_mod_left _ _
    · rw [hfreed.kept k hk x hx hxm, htable k hk x hx]

/-! ## The names -/

/-- Slots that give the same result of a search are the same. -/
theorem found_inj {w w' : Volume} (hl : (volume fs d).forest.Chain (dirHead fs p) l)
    {o o' : Option DirCursor} (ho : ∀ s, o = some s → s ∈ (volume fs d).walked l)
    (ho' : ∀ s, o' = some s → s ∈ (volume fs d).walked l)
    (h : (o.map fun s => (⟨dirCursorSector fs s, s.offsetInSector, (w.entry s).clus,
        (w.entry s).size⟩ : FoundEntry)) =
      o'.map fun s => ⟨dirCursorSector fs s, s.offsetInSector, (w'.entry s).clus,
        (w'.entry s).size⟩) : o = o' := by
  cases o with
  | none => exact (Option.map_eq_none_iff.mp h.symm).symm
  | some s =>
    obtain ⟨s', rfl, hs⟩ := Option.map_eq_some_iff.mp h.symm
    obtain ⟨hsector, hoffset, -⟩ := FoundEntry.mk.inj hs
    rw [g.slot_inj hl (ho s rfl) (ho' s' rfl) (by rw [hsector, hoffset])]

theorem lookup_inj (hl : (volume fs d).forest.Chain (dirHead fs p) l) :
    lookup fs d p t = lookup fs d p name ↔
      (volume fs d).firstCarrier lfnStep t .clear ((volume fs d).walked l) =
        (volume fs d).firstCarrier lfnStep name .clear ((volume fs d).walked l) := by
  rw [g.lookup_eq_firstCarrier hl, g.lookup_eq_firstCarrier hl]
  refine ⟨fun h => g.found_inj hl ?_ ?_ h, fun h => by rw [h]⟩
  · exact fun s hs => mem_of_firstCarrier hs
  · exact fun s hs => mem_of_firstCarrier hs

/-- A name leads where it led exactly if the search for it ends in the same slot. -/
theorem lookup_hole (hl : (volume fs d).forest.Chain (dirHead fs p) l)
    (hl' : (volume fs d').forest.Chain (dirHead fs p) l)
    (h : Hole (volume fs d) (volume fs d') l A R B q) :
    lookup fs d' p t = lookup fs d p t ↔
      (volume fs d').firstCarrier lfnStep t .clear ((volume fs d').walked l) =
        (volume fs d).firstCarrier lfnStep t .clear ((volume fs d).walked l) := by
  rw [g.lookup_eq_firstCarrier hl, g.lookup_eq_firstCarrier hl']
  constructor
  · refine g.found_inj hl (fun s hs => ?_) fun s hs => mem_of_firstCarrier hs
    rw [← h.walked_same]
    exact mem_of_firstCarrier hs
  · intro heq
    rw [← heq]
    refine Option.map_congr fun s hs => ?_
    rw [h.same s (h.mem_of_search_after hs)]

/-- `rm` of a regular file takes away this name and frees these clusters exactly if the deletion and
the search read the directory alike up to the file, and long names behind it read alike with and
without it. -/
theorem removed_iff (hsep : (volume fs d).forest.Separated (rootOnly fs.rootCluster))
    (hf : ChainedFile fs d path name p f l m) (hdots : (volume fs d).DotsLead l)
    (hun : (volume fs d).Unambiguous l) (h0 : 0 ∉ path) (hlen : m.length ≤ 65536)
    (hok : (fat32DeleteFile fs d path).1 = true) :
    Removed fs d (fat32DeleteFile fs d path).2 p name m ↔
      (volume fs d).ReadAlike name l ∧ (volume fs d).TailAlike name l := by
  have hl := hf.dir.chain
  have hname : 0 ∉ name := fun h => h0 ((name_subset hf.resolve).1 h)
  have hnd : ((volume fs d).walked l).Nodup := nodup_walked hl.1.nodup
  obtain ⟨r, hfound, hclus, -⟩ := ChainedFile.slot g hf
  obtain ⟨A, R, B, q, b, hdel, hqw, hshown, hhole₁, hE, hd'⟩ := g.deletion_spec hl hf.resolve hok
  obtain ⟨x, hv⟩ := g.deletion_volume hsep hf.dir hdots hshown hE
  rw [← hd'] at hv
  have hhole : Hole (volume fs d) (volume fs (fat32DeleteFile fs d path).2) l A R B q := by
    refine hhole₁.congr rfl fun s => ?_
    rw [hv, clear_entry]
  have hnames := hhole.names_iff hnd hun hname hfound hdel
  -- the directory is still there if the table is as it should be
  have hchain : (∀ k < fs.fatCount, ∀ c, InTable fs c → c ∉ m →
      copyEntry fs (fat32DeleteFile fs d path).2 k c = copyEntry fs d k c) →
      (volume fs (fat32DeleteFile fs d path).2).forest.Chain (dirHead fs p) l := fun hkept =>
    g.chain_of_kept hl fun y hy hin =>
      hkept 0 g.copies_pos y hin (ChainedFile.disjoint g hsep hf y hy)
  constructor
  · intro h
    have hl' := hchain h.kept
    refine hnames.mp ⟨?_, fun t ht hne => ?_⟩
    · have hgone := h.gone
      rw [g.lookup_eq_firstCarrier hl', Option.map_eq_none_iff] at hgone
      exact hgone
    · exact (g.lookup_hole hl hl' hhole).mp
        (h.others t ht fun heq => hne ((g.lookup_inj hl).mp heq))
  · intro h
    obtain ⟨hgone, hothers⟩ := hnames.mpr h
    have hsame : r = q := by
      have heq := (firstCarrier_eq_iff hnd).mpr h.1
      rw [hfound, hdel] at heq
      exact Option.some.inj heq
    subst hsame
    rw [← hclus] at hd'
    have hfchain : if f.clus < 2 then m = [] else
        (volume fs (d.write (dirCursorSector fs r) b)).forest.Chain f.clus m := by
      have hbefore := hf.chain
      by_cases h2 : f.clus < 2
      · rw [if_pos h2] at hbefore ⊢
        exact hbefore
      · rw [if_neg h2] at hbefore ⊢
        exact hE.chain hbefore
    obtain ⟨hfreed, hkept⟩ := g.freed_kept hlen hfchain
      (fun k hk y hy => g.copyEntry_write_slot hl.2 (mem_slots_of_walked hqw) b hk hy) hd'
    have hl' := hchain hkept
    refine ⟨?_, hfreed, hkept, fun t ht hne => ?_⟩
    · rw [g.lookup_eq_firstCarrier hl', hgone]
      rfl
    · exact (g.lookup_hole hl hl' hhole).mpr
        (hothers t ht fun heq => hne ((g.lookup_inj hl).mpr heq))

end Geometry

/-! ## Directories without left-over fragments -/

namespace Volume

variable {v : Volume} {name : CString} {l : List ℕ} {A B : List DirCursor}

/-- A search goes on with an empty buffer behind every entry with a name. That is so where every long
name has a character in its first piece. -/
def LeavesNothing (v : Volume) (l : List ℕ) : Prop :=
  ∀ A q B, v.walked l = A ++ q :: B → (∀ a ∈ A, v.entry a 0 ≠ 0) → (v.entry q).IsNamed →
    v.bufferAfter lfnStep (A ++ [q]) = .clear

/-- The search keeps no more than the deletion. -/
theorem LeavesNothing.bufferAfter_eq (h : v.LeavesNothing l) (hw : v.walked l = A ++ B)
    (hA : ∀ a ∈ A, v.entry a 0 ≠ 0) :
    v.bufferAfter lfnStep A = v.bufferAfter deleteLfnStep A := by
  induction A using List.reverseRecOn generalizing B with
  | nil => rfl
  | append_singleton A a ih =>
    rw [List.append_assoc, List.singleton_append] at hw
    have hbefore : ∀ b ∈ A, v.entry b 0 ≠ 0 := fun b hb => hA b (List.mem_append_left _ hb)
    by_cases hn : (v.entry a).IsNamed
    · rw [h A a B hw hbefore hn, bufferAfter_snoc, deleteLfnStep, if_neg hn.1, if_neg hn.2.1]
    · rw [bufferAfter_snoc, bufferAfter_snoc, ih hw hbefore, lfnStep, deleteLfnStep]
      by_cases hfree : (v.entry a).IsFree
      · rw [if_pos hfree, if_pos hfree]
      · rw [if_neg hfree, if_neg hfree]
        by_cases hl : (v.entry a).attr = 0x0F
        · rw [if_pos hl, if_pos hl]
        · rw [if_neg hl, if_neg hl, if_pos fun hlabel => hn ⟨hfree, hl, hlabel⟩]

theorem LeavesNothing.readAlike (h : v.LeavesNothing l) : v.ReadAlike name l := by
  intro A p B hw hscan _ hne
  have hA : ∀ a ∈ A, v.entry a 0 ≠ 0 := fun a ha => by
    obtain ⟨S, T, rfl⟩ := List.append_of_mem ha
    exact (hscan S a T rfl).1
  exact absurd (h.bufferAfter_eq hw hA) hne

theorem LeavesNothing.tailAlike (h : v.LeavesNothing l) : v.TailAlike name l := by
  intro A q B r C hw hbefore hq _ _
  have hclear := h A q _ hw (fun a ha => hbefore a (List.mem_append_left _ ha)) hq.1
  have hsplit : A ++ q :: B = (A ++ [q]) ++ B := by simp
  rw [bufferAfter] at hclear
  rw [hsplit, bufferAfter, List.foldl_append, hclear]
  rfl

end Volume

/-! ## A name of wide characters -/

/-- The first piece of a long name with thirteen characters U+4E00, whose low bytes are 0. -/
def wideEntry (checksum : UInt8) : Entry := fun i =>
  if i = 0 then 1
  else if i = 11 then 0x0F
  else if i = 13 then checksum
  else if i ∈ lfnPositions.map (· + 1) then 0x4E else 0

/-- A file with a long name of thirteen characters U+4E00 and `xx`, and behind it one with a long name
of 13 letters. -/
def wideDisk : Disk where
  sectors s :=
    if s = 1 then tableOf [2, 3]
    else if s = 2 then
      ((((Block.zero.setEntry 0 (lfnEntry longLong (lfnChecksum (formatFat32Name [65])) 2 2)).setEntry
        32 (wideEntry (lfnChecksum (formatFat32Name [65])))).setEntry 64
          (shortEntry (formatFat32Name [65]) 0x20 3 1)).setEntry 96
            (lfnEntry shortLong (lfnChecksum (formatFat32Name [66])) 1 1)).setEntry 128
              (shortEntry (formatFat32Name [66]) 0x20 0 0)
    else Block.zero
  log := []

/-- Directories with one named entry. -/
theorem Volume.unambiguous_one {v : Volume} {l : List ℕ} {a : DirCursor}
    (h : ∀ s ∈ v.walked l, (v.entry s).IsNamed → s = a) : v.Unambiguous l := by
  have hbears : ∀ {t s}, v.Bears l t s → s = a := by
    rintro t s ⟨A, B, hw, -, hc⟩
    exact h s (by rw [hw]; simp) hc.1
  intro t _ p q hp hq
  rw [hbears hp, hbears hq]

/-- The prefix of a slot is known. -/
theorem Volume.Bears.carries {v : Volume} {l : List ℕ} {A B : List DirCursor} {t : CString}
    {s : DirCursor} (h : v.Bears l t s) (hl : l.Nodup) (hw : v.walked l = A ++ s :: B) :
    v.Carries lfnStep t A s := by
  obtain ⟨A', B', hw', -, hc⟩ := h
  have hnd := v.nodup_walked hl
  rw [hw'] at hnd
  obtain ⟨rfl, -⟩ := split_unique hnd (hw'.symm.trans hw)
  exact hc

theorem Volume.dotsLead_of_none {v : Volume} {l : List ℕ}
    (h : ∀ s ∈ v.slots l, (v.entry s).IsNamed → ¬ (v.entry s).IsDot) : v.DotsLead l :=
  fun s hs hdot _ => absurd hdot (h s ((List.takeWhile_sublist _).subset hs.1) hs.2)

/-- `rm F` where `F` is the only file. -/
theorem removed_byteFile : Removed tinyFs (fileDisk byteEntry [2, 3])
    (fat32DeleteFile tinyFs (fileDisk byteEntry [2, 3]) [70]).2 2 [70] [3] := by
  have hroot : (volume tinyFs (fileDisk byteEntry [2, 3])).ChainOk [2] := by decide +kernel
  have hchain : (volume tinyFs (fileDisk byteEntry [2, 3])).ChainOk [3] := by decide +kernel
  have hfile : ChainedFile tinyFs (fileDisk byteEntry [2, 3]) [70] [70] 2 ⟨2, 0, 3, 1⟩ [2] [3] :=
    { resolve := by decide +kernel
      dir := ⟨⟨.root 2 true, .root ⟨rfl, rfl⟩⟩, chain_of_chainOk hroot⟩
      found := by decide +kernel
      file := byteFile_regular.file
      notDot := byteFile_regular.notDot
      chain := chain_of_chainOk hchain }
  have hone : ∀ s ∈ (volume tinyFs (fileDisk byteEntry [2, 3])).walked [2],
      ((volume tinyFs (fileDisk byteEntry [2, 3])).entry s).IsNamed → s = ⟨2, 0, 0⟩ := by
    decide +kernel
  have hleaves : (volume tinyFs (fileDisk byteEntry [2, 3])).LeavesNothing [2] := by
    intro A q B hw _ hq
    obtain rfl := hone q (by rw [hw]; simp) hq
    have hnd := nodup_walked (v := volume tinyFs (fileDisk byteEntry [2, 3])) (List.nodup_singleton 2)
    rw [hw] at hnd
    have hfirst : A ++ (⟨2, 0, 0⟩ : DirCursor) :: B = [] ++ ⟨2, 0, 0⟩ :: _ := hw.symm.trans rfl
    obtain ⟨rfl, -⟩ := split_unique hnd hfirst
    exact lfnAfter_named hq (.inr rfl) (A := [])
  exact (tinyFs_geometry.removed_iff byteFile_consistent.toSeparated hfile
    (dotsLead_of_none (by decide +kernel)) (unambiguous_one hone) (by decide) (by decide)
    (by decide +kernel)).mpr ⟨hleaves.readAlike, hleaves.tailAlike⟩

theorem wideDisk_check : (volume tinyFs wideDisk).Check 2 [2] [⟨some ⟨2, 0, 64⟩, false, [3]⟩] := by
  decide +kernel

theorem wideDisk_wellFormed : (volume tinyFs wideDisk).WellFormed tinyFs.rootCluster := by
  refine wellFormed_of_check [2] _ wideDisk_check fun r hr hdir => ?_
  rcases List.mem_pair.mp hr with rfl | rfl
  · refine slotsOk_of_used [⟨2, 0, 0⟩, ⟨2, 0, 32⟩, ⟨2, 0, 64⟩, ⟨2, 0, 96⟩, ⟨2, 0, 128⟩]
      (((volume tinyFs wideDisk).slots [2]).drop 5) rfl (by decide +kernel) (by decide +kernel)
      fun A B hAB hB => ?_
    have hused : ∀ s ∈ [(⟨2, 0, 0⟩ : DirCursor), ⟨2, 0, 32⟩, ⟨2, 0, 64⟩, ⟨2, 0, 96⟩, ⟨2, 0, 128⟩],
        ¬ ((volume tinyFs wideDisk).entry s).IsFree := by decide +kernel
    cases B with
    | nil =>
      rw [List.append_nil] at hAB
      have hbuf : (volume tinyFs wideDisk).lfnAfter
          [⟨2, 0, 0⟩, ⟨2, 0, 32⟩, ⟨2, 0, 64⟩, ⟨2, 0, 96⟩] 0 ≠ 0 := by decide +kernel
      rw [← hAB]
      exact lfnAfter_named (A := [_, _, _, _]) (by decide +kernel) (.inl hbuf)
    | cons b B => exact absurd (hB b rfl) (hused b (by rw [hAB]; simp))
  · cases hdir

/-- The second file has a long name, and the first one its short name, which is another one. -/
theorem wideDisk_unambiguous : (volume tinyFs wideDisk).Unambiguous [2] := by
  have htwo : ∀ s ∈ (volume tinyFs wideDisk).walked [2], ((volume tinyFs wideDisk).entry s).IsNamed →
      s = ⟨2, 0, 64⟩ ∨ s = ⟨2, 0, 128⟩ := by decide +kernel
  have hnot : ∀ t, 0 ∉ t → (volume tinyFs wideDisk).Bears [2] t ⟨2, 0, 64⟩ →
      ¬ (volume tinyFs wideDisk).Bears [2] t ⟨2, 0, 128⟩ := by
    intro t ht hshort hlong
    have hs := (hshort.carries (A := [⟨2, 0, 0⟩, ⟨2, 0, 32⟩]) (List.nodup_singleton 2) rfl).2
    have hl := (hlong.carries (A := [⟨2, 0, 0⟩, ⟨2, 0, 32⟩, ⟨2, 0, 64⟩, ⟨2, 0, 96⟩])
      (List.nodup_singleton 2) rfl).2
    have hstr : ((volume tinyFs wideDisk).bufferAfter lfnStep
        [⟨2, 0, 0⟩, ⟨2, 0, 32⟩, ⟨2, 0, 64⟩, ⟨2, 0, 96⟩]).str = longLong := by decide +kernel
    rw [entryMatches, if_pos (by decide +kernel), decide_eq_true_eq, hstr,
      myStrcasecmp_eq_zero (by decide) ht] at hl
    rw [entryMatches, if_neg (by decide +kernel), formatFat32Name_congr ht (by decide) hl.symm] at hs
    exact absurd hs (by decide +kernel)
  have hbears : ∀ {t s}, (volume tinyFs wideDisk).Bears [2] t s →
      s = ⟨2, 0, 64⟩ ∨ s = ⟨2, 0, 128⟩ := by
    rintro t s ⟨A, B, hw, -, hc⟩
    exact htwo s (by rw [hw]; simp) hc.1
  intro t ht p q hp hq
  rcases hbears hp with rfl | rfl
  · rcases hbears hq with rfl | rfl
    · rfl
    · exact absurd hq (hnot t ht hp)
  · rcases hbears hq with rfl | rfl
    · exact absurd hp (hnot t ht hq)
    · rfl

/-- `rm A` gives the other file a new name. -/
theorem not_removed_wideDisk :
    ¬ ∀ (fs : Fat32Instance) (d : Disk) (path name : CString) (p : ℕ) (f : FoundEntry)
      (l m : List ℕ), Geometry fs → (volume fs d).WellFormed fs.rootCluster →
      ChainedFile fs d path name p f l m → (volume fs d).DotsLead l →
      (volume fs d).Unambiguous l → 0 ∉ path → m.length ≤ 65536 →
      (fat32DeleteFile fs d path).1 = true →
        Removed fs d (fat32DeleteFile fs d path).2 p name m := by
  intro h
  have hroot : (volume tinyFs wideDisk).ChainOk [2] := by decide +kernel
  have hchain : (volume tinyFs wideDisk).ChainOk [3] := by decide +kernel
  have hfile : ChainedFile tinyFs wideDisk [65] [65] 2 ⟨2, 64, 3, 1⟩ [2] [3] :=
    { resolve := by decide +kernel
      dir := ⟨⟨.root 2 true, .root ⟨rfl, rfl⟩⟩, chain_of_chainOk hroot⟩
      found := by decide +kernel
      file := by decide +kernel
      notDot := by decide +kernel
      chain := chain_of_chainOk hchain }
  have hremoved := h tinyFs wideDisk [65] [65] 2 _ [2] [3] tinyFs_geometry wideDisk_wellFormed hfile
    (dotsLead_of_none (by decide +kernel)) wideDisk_unambiguous (by decide) (by decide)
    (by decide +kernel)
  have hbefore : lookup tinyFs wideDisk 2 longLong = some ⟨2, 128, 0, 0⟩ := by decide +kernel
  have hafter : lookup tinyFs (fat32DeleteFile tinyFs wideDisk [65]).2 2 longLong = none := by
    decide +kernel
  have hsame := hremoved.others longLong (by decide) (by
    rw [hbefore, hfile.found]
    decide)
  rw [hbefore, hafter] at hsame
  cases hsame

end PsychWard.Fat32
