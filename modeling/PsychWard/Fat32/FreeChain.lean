import PsychWard.Fat32.Copies

/-!
# Freeing a chain

`fat_free_chain` follows a chain and stores 0 for every cluster it comes by, in every copy of the
table. Its loop has a `guard` of 65536 rounds of its own, besides the cycle test that already
excludes an endless chain: a longer chain keeps the clusters behind the 65536th, and the call returns
`true` all the same. `freesChain_iff` is the exact condition.
-/

namespace PsychWard.Fat32

/-- The table after the entries of `l` were set to 0, in every copy. -/
structure Freed (fs : Fat32Instance) (d d' : Disk) (l : List ℕ) : Prop where
  freed : ∀ k < fs.fatCount, ∀ c ∈ l,
    copyEntry fs d' k c = copyEntry fs d k c / 2 ^ 28 * 2 ^ 28
  kept : ∀ k < fs.fatCount, ∀ c, InTable fs c → c ∉ l → copyEntry fs d' k c = copyEntry fs d k c
  outside : ∀ s, ¬ InCopies fs s → d'.sectors s = d.sectors s

/-- A cluster number whose entry the code finds in the table. -/
def InFat (fs : Fat32Instance) (c : ℕ) : Prop := c < 2 ^ 30 ∧ InTable fs c

instance (fs : Fat32Instance) (c : ℕ) : Decidable (InFat fs c) :=
  inferInstanceAs (Decidable (_ ∧ _))

theorem Freed.refl (fs : Fat32Instance) (d : Disk) : Freed fs d d [] :=
  ⟨fun _ _ _ hc => absurd hc List.not_mem_nil, fun _ _ _ _ _ => rfl, fun _ _ => rfl⟩

/-- One more entry was set to 0 before. -/
theorem Freed.cons {fs : Fat32Instance} {d d₁ d' : Disk} {c : ℕ} {l : List ℕ}
    (h : Freed fs d₁ d' l) (hset : CopiesStored fs d d₁ c 0) (hc : InTable fs c) (hnot : c ∉ l)
    (hin : ∀ x ∈ l, InTable fs x) : Freed fs d d' (c :: l) where
  freed := by
    intro k hk x hx
    rcases List.mem_cons.mp hx with rfl | hx
    · rw [h.kept k hk x hc hnot, hset.stored k hk]
      omega
    · have hne : x ≠ c := ne_of_mem_of_not_mem hx hnot
      rw [h.freed k hk x hx, hset.kept k hk x (hin x hx) hne]
  kept := by
    intro k hk x hx hmem
    rw [List.mem_cons, not_or] at hmem
    rw [h.kept k hk x hx hmem.2, hset.kept k hk x hx hmem.1]
  outside := fun s hs => by rw [h.outside s hs, hset.outside s hs]

namespace TableLayout

variable {fs : Fat32Instance} (t : TableLayout fs) {d : Disk} {c : ℕ} {l : List ℕ}

include t

/-- Storing an entry that a walk does not visit leaves the walk as it is. -/
theorem walk_of_copiesStored {d' : Disk} {a v : ℕ} (h : CopiesStored fs d d' c v)
    (hw : Walk (fatNext fs d) a l) (hin : ∀ x ∈ l, InFat fs x) (hnot : c ∉ l) :
    Walk (fatNext fs d') a l := by
  refine hw.congr fun x hx => ?_
  have hne : x ≠ c := ne_of_mem_of_not_mem hx hnot
  rw [fatNext, fatNext, h.fatGetEntry t (hin x hx).1 (hin x hx).2, if_neg hne]

/-- The loop frees as many clusters of its chain as its guard has rounds. -/
theorem fatFreeChainLoop_spec (guard : ℕ) (h2 : 2 ≤ c) (hw : Walk (fatNext fs d) c l)
    (hin : ∀ x ∈ l, InFat fs x) : Freed fs d (fatFreeChainLoop fs guard c d) (l.take guard) := by
  -- on the rounds of the guard: each one frees the head of what is left
  induction guard generalizing c l d with
  | zero => exact Freed.refl fs d
  | succ guard ih =>
    have hc : InFat fs c := hin c hw.mem_head
    obtain ⟨d₁, hset, hstored⟩ := t.fatSetEntry_spec hc.1 hc.2 0 d
    rw [fatFreeChainLoop, if_neg (by omega), hset]
    have hnodup := hw.nodup
    cases hw with
    | last hend =>
      have hno : ¬ clusterHasNext (fatGetEntry fs d c) = true := fun hyes => by
        rw [fatNext_pos hyes] at hend
        cases hend
      rw [if_neg hno]
      have h := (Freed.refl fs d₁).cons hstored hc.2 List.not_mem_nil (by simp)
      simpa using h
    | @cons _ b m hs tail =>
      have hyes : clusterHasNext (fatGetEntry fs d c) = true := by
        by_contra hno
        rw [fatNext_neg hno] at hs
        cases hs
      obtain rfl : fatGetEntry fs d c = b := Option.some.inj ((fatNext_pos hyes).symm.trans hs)
      have hm : ∀ x ∈ m, InFat fs x := fun x hx => hin x (List.mem_cons_of_mem _ hx)
      -- the entry that was cleared is not on the rest of the chain
      have hnot : c ∉ m := (List.nodup_cons.mp hnodup).1
      have hb : 2 ≤ fatGetEntry fs d c := by
        rw [clusterHasNext, Bool.and_eq_true, decide_eq_true_eq] at hyes
        exact hyes.1
      have hrest := ih hb (t.walk_of_copiesStored hstored tail hm hnot) hm
      rw [if_pos hyes, List.take_succ_cons]
      exact hrest.cons hstored hc.2 (fun hmem => hnot (List.mem_of_mem_take hmem))
        fun x hx => (hm x (List.mem_of_mem_take hx)).2

/-- A chain that ends passes the cycle test, and its first 65536 clusters are freed. -/
theorem fatFreeChain_spec (h2 : 2 ≤ c) (hw : Walk (fatNext fs d) c l)
    (hin : ∀ x ∈ l, InFat fs x) :
    ∃ d', fatFreeChain fs d c = (true, d') ∧ Freed fs d d' (l.take 65536) := by
  have h := t.fatFreeChainLoop_spec 65536 h2 hw hin
  rw [fatFreeChain, fatChainHasCycle_of_walk hw]
  exact ⟨_, rfl, h⟩

end TableLayout

/-- A chain without an end is refused. -/
theorem fatFreeChain_of_endless {fs : Fat32Instance} {d : Disk} {c : ℕ} (h2 : 2 ≤ c)
    (h : ¬ ∃ l, Walk (fatNext fs d) c l) : fatFreeChain fs d c = (false, d) := by
  have hloop : ∀ n, clusterHasNext ((fatGetEntry fs d)^[n + 1] c) = true := by
    by_contra hend
    exact h (walk_of_ending hend)
  have hcycle : fatChainHasCycle fs d c = true := by
    rw [fatChainHasCycle, if_neg (by omega), fatChainHasCycleLoop_of_endless hloop]
    rfl
  rw [fatFreeChain, if_pos hcycle]

/-- `fat_free_chain` frees the chain from `start`: if the chain ends, the call returns `true`, the
entry of each of its clusters is 0 in every copy and the other entries are the old ones; if it does
not end, the call returns `false` and writes nothing. -/
structure FreesChain (fs : Fat32Instance) (d : Disk) (start : ℕ) : Prop where
  ending : ∀ l, Walk (fatNext fs d) start l → (∀ c ∈ l, InFat fs c) →
    (fatFreeChain fs d start).1 = true ∧ ∀ k < fs.fatCount, ∀ c, InTable fs c →
      (c ∈ l → copyEntry fs (fatFreeChain fs d start).2 k c % 2 ^ 28 = 0) ∧
      (c ∉ l → copyEntry fs (fatFreeChain fs d start).2 k c = copyEntry fs d k c)
  cyclic : (¬ ∃ l, Walk (fatNext fs d) start l) → fatFreeChain fs d start = (false, d)

/-- A chain is freed exactly when its clusters behind the 65536th are free already. -/
theorem freesChain_iff {fs : Fat32Instance} (t : TableLayout fs) (d : Disk) {start : ℕ}
    (h2 : 2 ≤ start) : FreesChain fs d start ↔
      ∀ l, Walk (fatNext fs d) start l → (∀ c ∈ l, InFat fs c) →
        ∀ c ∈ l.drop 65536, ∀ k < fs.fatCount, copyEntry fs d k c % 2 ^ 28 = 0 := by
  -- the clusters the loop frees and those it leaves are different ones
  have hsplit : ∀ l, Walk (fatNext fs d) start l → ∀ c ∈ l.drop 65536, c ∉ l.take 65536 := by
    intro l hw c hc hmem
    have hnodup := hw.nodup
    rw [← List.take_append_drop 65536 l] at hnodup
    exact (List.nodup_append.mp hnodup).2.2 c hmem c hc rfl
  constructor
  · intro h l hw hin c hc k hk
    obtain ⟨d', hrun, hfreed⟩ := t.fatFreeChain_spec h2 hw hin
    have hcl := List.mem_of_mem_drop hc
    have hzero := ((h.ending l hw hin).2 k hk c (hin c hcl).2).1 hcl
    rw [hrun, hfreed.kept k hk c (hin c hcl).2 (hsplit l hw c hc)] at hzero
    exact hzero
  · intro h
    refine ⟨fun l hw hin => ?_, fatFreeChain_of_endless h2⟩
    obtain ⟨d', hrun, hfreed⟩ := t.fatFreeChain_spec h2 hw hin
    rw [hrun]
    refine ⟨rfl, fun k hk c hc => ⟨fun hcl => ?_, fun hcl => ?_⟩⟩
    · rw [← List.take_append_drop 65536 l] at hcl
      rcases List.mem_append.mp hcl with hmem | hmem
      · rw [hfreed.freed k hk c hmem]
        omega
      · rw [hfreed.kept k hk c hc (hsplit l hw c hmem)]
        exact h l hw hin c hmem k hk
    · exact hfreed.kept k hk c hc fun hmem => hcl (List.mem_of_mem_take hmem)

/-! ## A chain that is longer than the guard -/

/-- A mounted volume with 65664 table entries. -/
def longFs : Fat32Instance := ramFs 512 1 32 1 513 2

/-- A table with the chain of the 65537 clusters from 2 on. -/
def longTable (c : ℕ) : ℕ :=
  if 2 ≤ c ∧ c < 65538 then c + 1 else if c = 65538 then fat32Eoc else 0

theorem longFs_layout : TableLayout longFs :=
  ⟨disjointCopies_of_le (by decide) (by decide) (by decide) (by decide), noFault_ramFs _ _ _ _ _ _⟩

theorem inFat_longFs {c : ℕ} (hc : c ≤ 65538) : InFat longFs c := by
  refine ⟨by omega, ?_, ?_⟩
  · show 4 * c / 512 < 513
    omega
  · show 4 * c % 512 / 4 * 4 + 4 ≤ 512
    omega

theorem copyEntry_longTable {c : ℕ} (hc : c ≤ 65538) :
    copyEntry longFs (tableDisk longFs longTable) 0 c = longTable c := by
  rw [copyEntry_tableDisk rfl (show 32 + c / 128 < 2 ^ 32 by omega)]
  refine Nat.mod_eq_of_lt ?_
  unfold longTable fat32Eoc
  split
  · omega
  · split <;> omega

theorem fatGetEntry_longTable {c : ℕ} (hc : c ≤ 65538) :
    fatGetEntry longFs (tableDisk longFs longTable) c = longTable c := by
  rw [longFs_layout.fatGetEntry_eq (by omega), copyEntry_longTable hc]
  refine Nat.mod_eq_of_lt ?_
  unfold longTable fat32Eoc
  split
  · omega
  · split <;> omega

theorem walk_longTable (n : ℕ) : ∀ a, 2 ≤ a → a + n = 65538 →
    Walk (fatNext longFs (tableDisk longFs longTable)) a (List.range' a n ++ [65538]) := by
  induction n with
  | zero =>
    rintro a - rfl
    refine .last ?_
    rw [fatNext, fatGetEntry_longTable (by omega)]
    decide
  | succ n ih =>
    intro a h2 ha
    have hval : longTable a = a + 1 := if_pos ⟨h2, by omega⟩
    have hnext : clusterHasNext (a + 1) = true := by
      rw [clusterHasNext, Bool.and_eq_true, decide_eq_true_eq, decide_eq_true_eq, fat32Eoc]
      omega
    refine .cons (b := a + 1) ?_ (ih (a + 1) (by omega) (by omega))
    rw [fatNext, fatGetEntry_longTable (by omega), hval, if_pos hnext]

/-- A chain of the three clusters at the end of the long one. -/
theorem freesChain_iff_three : FreesChain longFs (tableDisk longFs longTable) 65536 := by
  refine (freesChain_iff longFs_layout _ (by decide)).mpr fun l hw _ c hc => ?_
  have hl := hw.unique (walk_longTable 2 65536 (by decide) rfl)
  rw [hl, List.drop_eq_nil_of_le (by decide)] at hc
  cases hc

/-- Of a chain of 65537 clusters the last one is not freed. -/
theorem not_freesChain_long : ¬ FreesChain longFs (tableDisk longFs longTable) 2 := by
  intro h
  have hw := walk_longTable 65536 2 (by decide) rfl
  have hin : ∀ c ∈ List.range' 2 65536 ++ [65538], InFat longFs c := by
    intro c hc
    refine inFat_longFs ?_
    rw [List.mem_append, List.mem_range'_1, List.mem_singleton] at hc
    omega
  have hlast : (65538 : ℕ) ∈ List.range' 2 65536 ++ [65538] := by simp
  obtain ⟨d', hrun, hfreed⟩ := longFs_layout.fatFreeChain_spec (by decide) hw hin
  have hzero := ((h.ending _ hw hin).2 0 (by decide) 65538 (inFat_longFs (by decide)).2).1 hlast
  have htake : (List.range' 2 65536 ++ [65538]).take 65536 = List.range' 2 65536 :=
    List.take_left' (List.length_range' ..)
  rw [htake] at hfreed
  rw [hrun, hfreed.kept 0 (by decide) 65538 (inFat_longFs (by decide)).2
    (by rw [List.mem_range'_1]; omega), copyEntry_longTable (by decide)] at hzero
  exact absurd hzero (by decide)

end PsychWard.Fat32
