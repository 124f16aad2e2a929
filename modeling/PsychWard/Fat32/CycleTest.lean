import PsychWard.Fat32.Table
import PsychWard.Common.Walk
import Mathlib.Logic.Function.Iterate

/-!
# The cycle test

`fat_chain_has_cycle` on an arbitrary table. The test does not look at the table value of the
slower position, which is harmless: the faster one has seen it (`fatChainHasCycleLoop_eq`). So the
test is Floyd's, it ends within as many rounds as a table value has codes, and it is exact.
-/

namespace PsychWard.Fat32

/-- The cluster that follows in a chain. -/
def fatNext (fs : Fat32Instance) (d : Disk) (c : ℕ) : Option ℕ :=
  if clusterHasNext (fatGetEntry fs d c) then some (fatGetEntry fs d c) else none

variable {fs : Fat32Instance} {d : Disk} {c : ℕ} {l : List ℕ}

theorem fatNext_pos (h : clusterHasNext (fatGetEntry fs d c) = true) :
    fatNext fs d c = some (fatGetEntry fs d c) := if_pos h

theorem fatNext_neg (h : ¬ clusterHasNext (fatGetEntry fs d c) = true) : fatNext fs d c = none :=
  if_neg h

/-- The link that a walk takes at its first cluster. -/
theorem clusterHasNext_walk (h : Walk (fatNext fs d) c (c :: l)) :
    (l = [] ∧ clusterHasNext (fatGetEntry fs d c) = false) ∨
      (clusterHasNext (fatGetEntry fs d c) = true ∧ Walk (fatNext fs d) (fatGetEntry fs d c) l ∧
        2 ≤ fatGetEntry fs d c) := by
  cases hhas : clusterHasNext (fatGetEntry fs d c) with
  | false =>
    cases h with
    | last => exact .inl ⟨rfl, rfl⟩
    | cons hs t =>
      rw [fatNext_neg (by rw [hhas]; decide)] at hs
      cases hs
  | true =>
    have hb : 2 ≤ fatGetEntry fs d c := by
      rw [clusterHasNext, Bool.and_eq_true, decide_eq_true_eq] at hhas
      exact hhas.1
    cases h with
    | last hn =>
      rw [fatNext_pos hhas] at hn
      cases hn
    | cons hs t =>
      obtain rfl := Option.some.inj ((fatNext_pos hhas).symm.trans hs)
      exact .inr ⟨rfl, t, hb⟩

theorem lt_of_fatNext {b : ℕ} (h : fatNext fs d c = some b) : b < 2 ^ 28 := by
  rw [fatNext] at h
  split at h
  · rename_i hn
    obtain rfl := Option.some.inj h
    rw [clusterHasNext, Bool.and_eq_true, decide_eq_true_eq, decide_eq_true_eq, fat32Eoc] at hn
    omega
  · cases h

/-- What a walk visits behind its start are values of the table. -/
theorem length_le_of_walk (h : Walk (fatNext fs d) c l) : l.length ≤ 2 ^ 28 + 1 := by
  have hlt : ∀ {a : ℕ} {m : List ℕ}, Walk (fatNext fs d) a m → ∀ x ∈ m.tail, x < 2 ^ 28 := by
    intro a m hm
    induction hm with
    | last => exact fun x hx => absurd hx List.not_mem_nil
    | cons hs t ih =>
      obtain ⟨u, rfl⟩ := t.eq_cons
      rintro x (_ | ⟨_, hx⟩)
      · exact lt_of_fatNext hs
      · exact ih x hx
  have hsub : l.tail ⊆ List.range (2 ^ 28) := fun x hx => List.mem_range.mpr (hlt h x hx)
  have hle := ((h.nodup.sublist l.tail_sublist).subperm hsub).length_le
  rw [List.length_range, List.length_tail] at hle
  omega

/-- The rounds of the test are Floyd's. -/
theorem fatChainHasCycleLoop_iterate (fuel i : ℕ)
    (h : ∀ m, 1 ≤ m → m ≤ 2 * i → clusterHasNext ((fatGetEntry fs d)^[m] c) = true) :
    fatChainHasCycleLoop fs d fuel ((fatGetEntry fs d)^[i] c) ((fatGetEntry fs d)^[2 * i] c) =
      tortoiseHare (fatNext fs d) fuel ((fatGetEntry fs d)^[i] c)
        ((fatGetEntry fs d)^[2 * i] c) := by
  induction fuel generalizing i with
  | zero => rfl
  | succ fuel ih =>
    rw [fatChainHasCycleLoop, tortoiseHare]
    simp only [← Function.iterate_succ_apply' (fatGetEntry fs d)]
    by_cases h1 : clusterHasNext ((fatGetEntry fs d)^[2 * i + 1] c) = true
    · have hn1 := fatNext_pos (c := (fatGetEntry fs d)^[2 * i] c)
        (by rwa [← Function.iterate_succ_apply' (fatGetEntry fs d)])
      rw [if_pos h1, hn1, ← Function.iterate_succ_apply' (fatGetEntry fs d)]
      by_cases h2 : clusterHasNext ((fatGetEntry fs d)^[2 * i + 1 + 1] c) = true
      · have hn2 := fatNext_pos (c := (fatGetEntry fs d)^[2 * i + 1] c)
          (by rwa [← Function.iterate_succ_apply' (fatGetEntry fs d)])
        have hbefore : ∀ m, 1 ≤ m → m ≤ 2 * (i + 1) →
            clusterHasNext ((fatGetEntry fs d)^[m] c) = true := by
          intro m hm hle
          rcases Nat.lt_or_ge (2 * i) m with hlt | hge
          · rcases Nat.lt_or_ge (2 * i + 1) m with hlt' | hge'
            · rwa [show m = 2 * i + 1 + 1 by omega]
            · rwa [show m = 2 * i + 1 by omega]
          · exact h m hm hge
        -- the faster position has seen the table value of the slower one
        have hslow := fatNext_pos (c := (fatGetEntry fs d)^[i] c) (by
          rw [← Function.iterate_succ_apply' (fatGetEntry fs d)]
          exact hbefore (i + 1) (by omega) (by omega))
        rw [if_pos h2]
        simp only [hn2, hslow, ← Function.iterate_succ_apply' (fatGetEntry fs d)]
        have hnext := ih (i + 1) hbefore
        rw [show 2 * (i + 1) = 2 * i + 1 + 1 by omega] at hnext
        rw [hnext]
      · have hn2 := fatNext_neg (c := (fatGetEntry fs d)^[2 * i + 1] c)
          (by rwa [← Function.iterate_succ_apply' (fatGetEntry fs d)])
        rw [if_neg h2]
        simp only [hn2]
    · have hn1 := fatNext_neg (c := (fatGetEntry fs d)^[2 * i] c)
        (by rwa [← Function.iterate_succ_apply' (fatGetEntry fs d)])
      rw [if_neg h1]
      simp only [hn1]

theorem fatChainHasCycleLoop_eq (fuel : ℕ) :
    fatChainHasCycleLoop fs d fuel c c = tortoiseHare (fatNext fs d) fuel c c :=
  fatChainHasCycleLoop_iterate (c := c) fuel 0 fun m h1 h2 => by omega

theorem fatChainHasCycleLoop_of_walk (h : Walk (fatNext fs d) c l) :
    fatChainHasCycleLoop fs d (2 ^ 28 + 1) c c = some false := by
  rw [fatChainHasCycleLoop_eq, tortoiseHare_of_walk h (length_le_of_walk h)]

theorem fatChainHasCycle_of_walk (h : Walk (fatNext fs d) c l) :
    fatChainHasCycle fs d c = false := by
  rw [fatChainHasCycle]
  split
  · rfl
  · rw [fatChainHasCycleLoop_of_walk h]
    rfl

theorem fatChainHasCycleLoop_of_endless
    (h : ∀ n, clusterHasNext ((fatGetEntry fs d)^[n + 1] c) = true) :
    fatChainHasCycleLoop fs d (2 ^ 28 + 1) c c = some true := by
  have hnext : ∀ n, fatNext fs d ((fatGetEntry fs d)^[n] c) =
      some ((fatGetEntry fs d)^[n + 1] c) := fun n => by
    have hn := h n
    rw [Function.iterate_succ_apply'] at hn ⊢
    exact fatNext_pos hn
  have hmem : ∀ n, (fatGetEntry fs d)^[n] c ∈ insert c (Finset.range (2 ^ 28)) := by
    intro n
    cases n with
    | zero => exact Finset.mem_insert_self _ _
    | succ n =>
      exact Finset.mem_insert_of_mem (Finset.mem_range.mpr (lt_of_fatNext (hnext n)))
  rw [fatChainHasCycleLoop_eq]
  refine tortoiseHare_of_orbit (fun n => (fatGetEntry fs d)^[n] c) hnext _ hmem ?_
  exact (Finset.card_insert_le _ _).trans (by rw [Finset.card_range])

/-- A chain that ends is walked to its end. -/
theorem walk_of_ending (h : ¬ ∀ n, clusterHasNext ((fatGetEntry fs d)^[n + 1] c) = true) :
    ∃ l, Walk (fatNext fs d) c l := by
  obtain ⟨n, hn⟩ := not_forall.mp h
  classical
  have hex : ∃ n, ¬ clusterHasNext ((fatGetEntry fs d)^[n + 1] c) = true := ⟨n, hn⟩
  refine ⟨_, Walk.of_orbit (f := fun n => (fatGetEntry fs d)^[n] c) (k := Nat.find hex)
    (fun m hm => ?_) ?_⟩
  · have hlt := not_not.mp (Nat.find_min hex hm)
    simp only [Function.iterate_succ_apply'] at hlt ⊢
    exact fatNext_pos hlt
  · have hend := Nat.find_spec hex
    rw [Function.iterate_succ_apply'] at hend
    exact fatNext_neg hend

/-- The test ends, and it answers `true` exactly for the chains that have no end. The entries are
read out of a buffer of 512 bytes, as where `bytes_per_sector` is at most 512: with larger sectors
`fat_get_entry` may read behind it (`buffersBounded_iff`), and `Block.get` gives 0 there. -/
theorem fatChainHasCycle_iff (fs : Fat32Instance) (d : Disk) (startCluster : ℕ) :
    (fatChainHasCycleLoop fs d (2 ^ 28 + 1) startCluster startCluster).isSome = true ∧
    (fatChainHasCycle fs d startCluster = true ↔ 2 ≤ startCluster ∧
      ∀ n, clusterHasNext ((fatGetEntry fs d)^[n + 1] startCluster) = true) := by
  by_cases h : ∀ n, clusterHasNext ((fatGetEntry fs d)^[n + 1] startCluster) = true
  · have hloop := fatChainHasCycleLoop_of_endless h
    refine ⟨by rw [hloop]; rfl, ?_⟩
    rw [fatChainHasCycle, hloop]
    by_cases h2 : startCluster < 2
    · rw [if_pos h2]
      exact iff_of_false (by decide) fun h' => absurd h'.1 (by omega)
    · rw [if_neg h2]
      exact iff_of_true rfl ⟨by omega, h⟩
  · obtain ⟨l, hl⟩ := walk_of_ending h
    refine ⟨by rw [fatChainHasCycleLoop_of_walk hl]; rfl, ?_⟩
    rw [fatChainHasCycle_of_walk hl]
    exact iff_of_false (by decide) fun h' => h h'.2

end PsychWard.Fat32
