import PsychWard.Fat32.Copies

/-!
# The data of a chain

`write_chain_data` fills the sectors of a chain in order and `read_chain_data` reads them in the same
order; both are described by the list of those sectors. What was written is read back
(`content_storeSectors`).
-/

namespace PsychWard.Fat32

/-- The sectors of the clusters `l`, in order, from sector `s` of the first cluster on. -/
def sectorsFrom (sectorsPerCluster : ℕ) : List ℕ → ℕ → List (ℕ × ℕ)
  | [], _ => []
  | c :: l, s => (List.range' s (sectorsPerCluster - s)).map (fun k => (c, k)) ++
      l.flatMap fun c => (List.range' 0 sectorsPerCluster).map fun k => (c, k)

/-- The next sector of the same cluster. -/
theorem sectorsFrom_cons {n c s : ℕ} (l : List ℕ) (hs : s < n) :
    sectorsFrom n (c :: l) s = (c, s) :: sectorsFrom n (c :: l) (s + 1) := by
  rw [sectorsFrom, sectorsFrom, show n - s = (n - (s + 1)) + 1 by omega, List.range'_succ]
  rfl

/-- The first sector of the next cluster. -/
theorem sectorsFrom_end {n c s : ℕ} (l : List ℕ) (hs : n ≤ s) :
    sectorsFrom n (c :: l) s = sectorsFrom n l 0 := by
  rw [sectorsFrom, show n - s = 0 by omega, List.range'_zero]
  cases l with
  | nil => rfl
  | cons a l => rfl

theorem length_sectorsFrom_zero (n : ℕ) (l : List ℕ) : (sectorsFrom n l 0).length = l.length * n := by
  induction l with
  | nil => simp [sectorsFrom]
  | cons c l ih =>
    have h : sectorsFrom n (c :: l) 0 =
        (List.range' 0 n).map (fun k => (c, k)) ++ sectorsFrom n l 0 := by
      cases l with
      | nil => rfl
      | cons a l => rfl
    rw [h, List.length_append, ih, List.length_map, List.length_range', List.length_cons,
      Nat.add_mul]
    omega

theorem nodup_sectorsFrom_zero {n : ℕ} {l : List ℕ} (h : l.Nodup) : (sectorsFrom n l 0).Nodup := by
  have heq : sectorsFrom n l 0 = l.flatMap fun c => (List.range' 0 n).map fun k => (c, k) := by
    cases l with
    | nil => rfl
    | cons c l => rfl
  rw [heq]
  refine List.nodup_flatMap.mpr ⟨fun c _ => (List.nodup_range').map fun k k' hk => ?_,
    h.imp fun {c c'} hc q hq hq' => ?_⟩
  · exact (Prod.mk.inj hk).2
  · obtain ⟨k, -, rfl⟩ := List.mem_map.mp hq
    obtain ⟨k', -, hk⟩ := List.mem_map.mp hq'
    exact hc (Prod.mk.inj hk).1.symm

namespace Block

theorem length_bytes (b : Block) (i n : ℕ) : (b.bytes i n).length = n := by
  rw [bytes, List.length_map, List.length_range]

theorem bytes_add (b : Block) (i n m : ℕ) : b.bytes i (n + m) = b.bytes i n ++ b.bytes (i + n) m := by
  simp only [bytes, List.range_add, List.map_append, List.map_map]
  congr 2
  funext k
  simp [Nat.add_assoc]

/-- The whole sector, seen from byte `i`. -/
theorem drop_bytes (b : Block) {i : ℕ} (hi : i ≤ 512) :
    (b.bytes 0 512).drop i = b.bytes i (512 - i) := by
  have h := b.bytes_add 0 i (512 - i)
  rw [Nat.add_sub_cancel' hi, Nat.zero_add] at h
  rw [h, List.drop_left' (length_bytes _ _ _)]

theorem take_bytes (b : Block) {i n m : ℕ} (h : n ≤ m) : (b.bytes i m).take n = b.bytes i n := by
  have hadd := b.bytes_add i n (m - n)
  rw [Nat.add_sub_cancel' h] at hadd
  rw [hadd, List.take_left' (length_bytes _ _ _)]

theorem bytes_ofList {l : List UInt8} (h : l.length ≤ 512) : (ofList l).bytes 0 l.length = l := by
  refine List.ext_getElem (length_bytes _ _ _) fun i h1 h2 => ?_
  rw [length_bytes] at h1
  simp only [bytes, List.getElem_map, List.getElem_range, Nat.zero_add, get, ofList]
  rw [dif_pos (by omega)]
  simp [List.getD_eq_getElem?_getD, List.getElem?_eq_getElem h1]

end Block

namespace Volume

variable {v v' : Volume}

/-- Store `data` in the sectors `S`, 512 bytes each, the last one filled up with zeros. -/
def storeSectors (v : Volume) : List (ℕ × ℕ) → List UInt8 → Volume
  | [], _ => v
  | q :: S, data =>
    if data = [] then v
    else (v.setData q.1 q.2 (Block.ofList (data.take 512))).storeSectors S (data.drop 512)

/-- The bytes in the sectors `S`. -/
def content (v : Volume) (S : List (ℕ × ℕ)) : List UInt8 :=
  S.flatMap fun q => (v.data q.1 q.2).bytes 0 512

theorem storeSectors_nil (S : List (ℕ × ℕ)) : v.storeSectors S [] = v := by
  cases S with
  | nil => rfl
  | cons q S => rw [storeSectors, if_pos rfl]

theorem storeSectors_frame (S : List (ℕ × ℕ)) (data : List UInt8) (v : Volume) :
    (v.storeSectors S data).clusters = v.clusters ∧
      (v.storeSectors S data).sectorsPerCluster = v.sectorsPerCluster ∧
      (v.storeSectors S data).fat = v.fat ∧
      ∀ c s, (c, s) ∉ S → (v.storeSectors S data).data c s = v.data c s := by
  induction S generalizing v data with
  | nil => exact ⟨rfl, rfl, rfl, fun _ _ _ => rfl⟩
  | cons q S ih =>
    rw [storeSectors]
    split
    · exact ⟨rfl, rfl, rfl, fun _ _ _ => rfl⟩
    · obtain ⟨h1, h2, h3, h4⟩ := ih (data.drop 512) (v.setData q.1 q.2 (Block.ofList (data.take 512)))
      refine ⟨h1, h2, h3, fun c s hcs => ?_⟩
      rw [List.mem_cons, not_or] at hcs
      rw [h4 c s hcs.2, setData_data, if_neg]
      rintro ⟨rfl, rfl⟩
      exact hcs.1 rfl

/-- What was stored is read back. -/
theorem content_storeSectors {S : List (ℕ × ℕ)} (hS : S.Nodup) (data : List UInt8)
    (hlen : data.length ≤ 512 * S.length) (v : Volume) :
    ((v.storeSectors S data).content S).take data.length = data := by
  induction S generalizing v data with
  | nil =>
    obtain rfl : data = [] := List.eq_nil_of_length_eq_zero (by simpa using hlen)
    rfl
  | cons q S ih =>
    obtain ⟨hq, hS⟩ := List.nodup_cons.mp hS
    rw [storeSectors]
    split
    case isTrue h =>
      rw [h]
      rfl
    case isFalse h =>
      set w := v.setData q.1 q.2 (Block.ofList (data.take 512)) with hw
      have hfirst : ((w.storeSectors S (data.drop 512)).data q.1 q.2) = Block.ofList (data.take 512) := by
        rw [(storeSectors_frame S _ w).2.2.2 q.1 q.2 hq, hw, setData_data, if_pos ⟨rfl, rfl⟩]
      have hrest := ih hS (data.drop 512) (by simp at hlen ⊢; omega) w
      have htake : (data.take 512).length ≤ 512 := by simp
      rw [content, List.flatMap_cons, hfirst]
      -- the last sector may be stored in part; the others are full
      by_cases hshort : data.length ≤ 512
      · have h512 : data.take 512 = data := List.take_of_length_le hshort
        rw [h512, List.take_append_of_le_length (by rw [Block.length_bytes]; exact hshort),
          Block.take_bytes _ hshort, Block.bytes_ofList hshort]
      · have hlen' : (data.take 512).length = 512 := by simp; omega
        have hblock : (Block.ofList (data.take 512)).bytes 0 512 = data.take 512 := by
          have := Block.bytes_ofList htake
          rwa [hlen'] at this
        rw [hblock, List.take_append, hlen', List.take_of_length_le (by omega)]
        have hd : data.length - 512 = (data.drop 512).length := by simp
        rw [hd]
        show _ ++ ((w.storeSectors S (data.drop 512)).content S).take _ = data
        rw [hrest, List.take_append_drop]

theorem length_content (S : List (ℕ × ℕ)) : (v.content S).length = 512 * S.length := by
  induction S with
  | nil => rfl
  | cons q S ih =>
    rw [content, List.flatMap_cons, List.length_append, Block.length_bytes]
    rw [content] at ih
    rw [ih, List.length_cons]
    omega

theorem sectorsFrom_zero (n : ℕ) (l : List ℕ) :
    sectorsFrom n l 0 = l.flatMap fun c => (List.range' 0 n).map fun k => (c, k) := by
  cases l <;> rfl

/-- The content of a chain, split behind its first `k` clusters. -/
theorem drop_content_clusters (n k r : ℕ) {l : List ℕ} (hk : k ≤ l.length) :
    (v.content (sectorsFrom n l 0)).drop (512 * n * k + r) =
      (v.content (sectorsFrom n (l.drop k) 0)).drop r := by
  have hsplit : v.content (sectorsFrom n l 0) =
      v.content (sectorsFrom n (l.take k) 0) ++ v.content (sectorsFrom n (l.drop k) 0) := by
    rw [sectorsFrom_zero, sectorsFrom_zero, sectorsFrom_zero, content, content, content,
      ← List.flatMap_append, ← List.flatMap_append, List.take_append_drop]
  have hfront : (v.content (sectorsFrom n (l.take k) 0)).length = 512 * n * k := by
    rw [length_content, length_sectorsFrom_zero, List.length_take, Nat.min_eq_left hk,
      Nat.mul_comm k, Nat.mul_assoc]
  rw [hsplit, ← List.drop_drop, List.drop_left' hfront]

/-- The content of a chain behind `k` sectors of its first cluster. -/
theorem drop_content_sectors (n : ℕ) (c : ℕ) (l : List ℕ) (k s : ℕ) (h : s + k ≤ n) :
    (v.content (sectorsFrom n (c :: l) s)).drop (512 * k) =
      v.content (sectorsFrom n (c :: l) (s + k)) := by
  induction k generalizing s with
  | zero => rfl
  | succ k ih =>
    rw [sectorsFrom_cons l (by omega), content, List.flatMap_cons,
      show 512 * (k + 1) = 512 + 512 * k by omega, ← List.drop_drop,
      List.drop_left' (Block.length_bytes _ _ _)]
    have := ih (s + 1) (by omega)
    rw [content] at this
    rw [this, show s + 1 + k = s + (k + 1) by omega]

end Volume

/-! ## Reading along a chain

Reading a chain looks at the first copy of the table and at the sectors of the chain's clusters, so it
needs no sound geometry: it is the `diskVolume` that is read, whatever the table holds.
-/

section
variable {fs : Fat32Instance} {d : Disk} {c : ℕ} {l : List ℕ}

/-- The copying loop yields the bytes of the chain's sectors from byte `off` of the cluster on. -/
theorem readChainLoop_walk (hf : NoFault fs) (hbytes : fs.bytesPerSector = 512)
    (fuel need off : ℕ) (h : Walk (fatNext fs d) c (c :: l)) (h2 : 2 ≤ c)
    (hoff : off < 512 * fs.sectorsPerCluster) (hfuel : need ≤ fuel) :
    readChainLoop fs d fuel need c off =
      (((diskVolume fs d).content (sectorsFrom fs.sectorsPerCluster (c :: l) (off / 512))).drop
        (off % 512)).take need := by
  induction fuel generalizing c l need off with
  | zero =>
    obtain rfl : need = 0 := by omega
    rfl
  | succ fuel ih =>
    rw [readChainLoop]
    by_cases hneed : need = 0
    · subst hneed
      simp
    · rw [if_neg (show ¬ (need = 0 ∨ c < 2) by omega), hbytes, hf.read]
      have hs : off / 512 < fs.sectorsPerCluster := by omega
      simp only
      set b := d.sectors ((clusterToSector fs c + off / 512) % 2 ^ 32) with hb
      have hcontent : (diskVolume fs d).content (sectorsFrom fs.sectorsPerCluster (c :: l) (off / 512)) =
          b.bytes 0 512 ++
            (diskVolume fs d).content (sectorsFrom fs.sectorsPerCluster (c :: l) (off / 512 + 1)) := by
        rw [sectorsFrom_cons l hs, Volume.content, List.flatMap_cons]
        rfl
      have hmod : off % 512 < 512 := Nat.mod_lt _ (by omega)
      rw [hcontent, List.drop_append_of_le_length (by rw [Block.length_bytes]; omega),
        Block.drop_bytes _ (by omega)]
      by_cases hlast : need ≤ 512 - off % 512
      · -- the wanted bytes end inside this sector
        have htail : ∀ x off', readChainLoop fs d fuel 0 x off' = [] := by
          intro x off'
          cases fuel with
          | zero => rfl
          | succ n => rw [readChainLoop, if_pos (.inl rfl)]
        rw [Nat.min_eq_left hlast, Nat.sub_self, htail, htail, ite_self, List.append_nil,
          List.take_append_of_le_length (by rw [Block.length_bytes]; exact hlast),
          Block.take_bytes _ hlast]
      · have hmin : min need (512 - off % 512) = 512 - off % 512 := by omega
        rw [hmin, List.take_append, Block.length_bytes,
          List.take_of_length_le (by rw [Block.length_bytes]; omega)]
        congr 1
        by_cases hend : 512 * fs.sectorsPerCluster ≤ off + (512 - off % 512)
        · rw [if_pos hend, sectorsFrom_end l (by omega)]
          rcases clusterHasNext_walk h with ⟨rfl, hno⟩ | ⟨hhas, ht, hx⟩
          · rw [hno]
            have hnil : readChainLoop fs d fuel (need - (512 - off % 512)) 0 0 = [] := by
              cases fuel with
              | zero => rfl
              | succ n => rw [readChainLoop, if_pos (.inr (by omega))]
            simpa [sectorsFrom, Volume.content] using hnil
          · obtain ⟨t, rfl⟩ := ht.eq_cons
            rw [hhas, if_pos rfl, ih _ 0 ht hx (by omega) (by omega)]
            simp
        · rw [if_neg hend, ih _ _ h h2 (by omega) (by omega),
            show (off + (512 - off % 512)) / 512 = off / 512 + 1 by omega,
            show (off + (512 - off % 512)) % 512 = 0 by omega, List.drop_zero]

/-- Skipping clusters of a chain. -/
theorem skipClusters_walk (n : ℕ) (h : Walk (fatNext fs d) c l) (h2 : 2 ≤ c) :
    skipClusters fs d n c = (l.drop n).head? ∧
      ∀ b, (l.drop n).head? = some b → Walk (fatNext fs d) b (l.drop n) ∧ 2 ≤ b := by
  induction n generalizing c l with
  | zero =>
    obtain ⟨t, rfl⟩ := h.eq_cons
    refine ⟨rfl, fun b hb => ?_⟩
    obtain rfl : c = b := by simpa using hb
    exact ⟨h, h2⟩
  | succ n ih =>
    obtain ⟨t, rfl⟩ := h.eq_cons
    rw [skipClusters, if_neg (show ¬ c < 2 by omega)]
    rcases clusterHasNext_walk h with ⟨rfl, hno⟩ | ⟨hhas, ht, hx⟩
    · rw [hno]
      exact ⟨by simp, by simp⟩
    · rw [hhas, if_pos rfl, List.drop_succ_cons]
      exact ih ht hx

/-- Reading yields the bytes of the chain from `offset` on, at most a page. -/
theorem readChainData_walk (hf : NoFault fs) (hbytes : fs.bytesPerSector = 512)
    (h : Walk (fatNext fs d) c l) (h2 : 2 ≤ c) (offset maxLen : ℕ) :
    readChainData fs d c offset maxLen =
      (((diskVolume fs d).content (sectorsFrom fs.sectorsPerCluster l 0)).drop offset).take
        (min maxLen fat32MaxIoChunk) := by
  rw [readChainData, hbytes]
  by_cases hzero : fs.sectorsPerCluster = 0
  · -- a cluster without sectors holds no bytes
    have hnil : ((diskVolume fs d).content (sectorsFrom fs.sectorsPerCluster l 0)).length = 0 := by
      rw [Volume.length_content, length_sectorsFrom_zero, hzero]
      omega
    rw [if_pos (.inl (by omega)), List.eq_nil_of_length_eq_zero hnil]
    simp
  have hbpc : 0 < 512 * fs.sectorsPerCluster := by omega
  obtain ⟨hskip, hchain⟩ := skipClusters_walk (offset / (512 * fs.sectorsPerCluster)) h h2
  rw [if_neg (by omega), fatChainHasCycle_of_walk h, hskip]
  simp only [Bool.false_eq_true, if_false]
  set n := offset / (512 * fs.sectorsPerCluster) with hn
  set r := offset % (512 * fs.sectorsPerCluster) with hr
  have hdm : 512 * fs.sectorsPerCluster * n + r = offset := Nat.div_add_mod _ _
  have hmod : r < 512 * fs.sectorsPerCluster := Nat.mod_lt offset hbpc
  cases hd : (l.drop n).head? with
  | none =>
    -- the offset lies behind the chain
    have hlen : l.length ≤ n := List.drop_eq_nil_iff.mp (List.head?_eq_none_iff.mp hd)
    have hnil : ((diskVolume fs d).content (sectorsFrom fs.sectorsPerCluster l 0)).length ≤ offset := by
      rw [Volume.length_content, length_sectorsFrom_zero]
      calc 512 * (l.length * fs.sectorsPerCluster) = 512 * fs.sectorsPerCluster * l.length := by
            rw [Nat.mul_comm l.length, Nat.mul_assoc]
        _ ≤ 512 * fs.sectorsPerCluster * n := Nat.mul_le_mul_left _ hlen
        _ ≤ offset := by omega
    rw [List.drop_eq_nil_of_le hnil]
    simp
  | some b =>
    obtain ⟨hb, hb2⟩ := hchain b hd
    obtain ⟨t, ht⟩ : ∃ t, l.drop n = b :: t := hb.eq_cons
    have hlen : n ≤ l.length := by
      by_contra hlt
      rw [List.drop_eq_nil_of_le (by omega)] at hd
      cases hd
    have hsec := Volume.drop_content_sectors (v := diskVolume fs d) fs.sectorsPerCluster b t
      (r / 512) 0 (by omega)
    rw [Nat.zero_add] at hsec
    rw [ht] at hb
    rw [← hdm, Volume.drop_content_clusters _ _ _ hlen, ht]
    simp only
    rw [readChainLoop_walk hf hbytes _ _ _ hb hb2 hmod (le_refl _), ← hsec, List.drop_drop,
      show 512 * (r / 512) + r % 512 = r by omega]

end

namespace Geometry

variable {fs : Fat32Instance} (g : Geometry fs) {c : ℕ} {d : Disk} {l : List ℕ}

include g

/-- The writing loop fills the sectors of the chain from sector `s` of its first cluster on. -/
theorem writeChainLoop_spec (fuel : ℕ) (data : List UInt8) (s : ℕ) (d : Disk)
    (h : (volume fs d).forest.Chain c (c :: l)) (hs : s < fs.sectorsPerCluster)
    (hfuel : data.length ≤ fuel)
    (hlen : data.length ≤ 512 * (sectorsFrom fs.sectorsPerCluster (c :: l) s).length) :
    ∃ d', writeChainLoop fs fuel data c s d = (true, d') ∧
      volume fs d' = (volume fs d).storeSectors (sectorsFrom fs.sectorsPerCluster (c :: l) s) data ∧
      Writes (fun x => ∃ a ∈ c :: l, ∃ k < fs.sectorsPerCluster, x = dataSector fs a k) d d' := by
  -- on the rounds: one sector each, and the next cluster behind the last sector of one
  induction fuel generalizing c l data s d with
  | zero =>
    obtain rfl : data = [] := List.eq_nil_of_length_eq_zero (by omega)
    exact ⟨d, rfl, (Volume.storeSectors_nil _).symm, .refl _ _⟩
  | succ fuel ih =>
    rw [writeChainLoop]
    by_cases hnil : data = []
    · subst hnil
      exact ⟨d, if_pos rfl, (Volume.storeSectors_nil _).symm, .refl _ _⟩
    · have hu : (volume fs d).Used c := h.2 c (by simp)
      have hc : 2 ≤ c ∧ c < fs.clusters := hu.1
      rw [if_neg hnil, if_neg (show ¬ c < 2 by omega), g.sector_eq hc hs, g.write, g.bytes]
      simp only
      set d₁ := d.write (dataSector fs c s) (Block.ofList (data.take 512)) with hd₁
      have hv : volume fs d₁ = (volume fs d).setData c s (Block.ofList (data.take 512)) :=
        g.volume_write_data hc hs _
      have hw₁ : Writes (fun x => ∃ a ∈ c :: l, ∃ k < fs.sectorsPerCluster, x = dataSector fs a k)
          d d₁ := Writes.single ⟨c, by simp, s, hs, rfl⟩ _
      have h₁ : (volume fs d₁).forest.Chain c (c :: l) := by
        rw [hv]
        exact Volume.chain_congr h rfl fun _ _ => rfl
      have hpos : 0 < data.length := List.length_pos_iff.mpr hnil
      have hstore : (volume fs d).storeSectors (sectorsFrom fs.sectorsPerCluster (c :: l) s) data =
          (volume fs d₁).storeSectors (sectorsFrom fs.sectorsPerCluster (c :: l) (s + 1))
            (data.drop 512) := by
        rw [sectorsFrom_cons l hs, Volume.storeSectors, if_neg hnil, hv]
      have hrest : (data.drop 512).length ≤ fuel := by
        rw [List.length_drop]
        omega
      rw [sectorsFrom_cons l hs, List.length_cons] at hlen
      have hlen' : (data.drop 512).length ≤
          512 * (sectorsFrom fs.sectorsPerCluster (c :: l) (s + 1)).length := by
        rw [List.length_drop]
        omega
      by_cases hs' : fs.sectorsPerCluster ≤ s + 1
      · rw [if_pos hs', g.fatGetEntry_eq hc.2]
        by_cases hr : data.drop 512 = []
        · rw [if_pos hr]
          exact ⟨d₁, rfl, by rw [hstore, hr, Volume.storeSectors_nil], hw₁⟩
        · rw [if_neg hr]
          rw [sectorsFrom_end l hs'] at hlen' hstore
          -- data is left, so the chain cannot end here
          rcases clusterHasNext_chain h₁ with ⟨rfl, -⟩ | ⟨b, t, rfl, hhas, hb, ht⟩
          · exfalso
            have h0 : (data.drop 512).length = 0 := by simpa [sectorsFrom] using hlen'
            exact hr (List.eq_nil_of_length_eq_zero h0)
          · rw [hhas, if_pos rfl, hb]
            obtain ⟨d', e1, e2, e3⟩ := ih (data.drop 512) 0 d₁ ht g.sectors_pos hrest hlen'
            refine ⟨d', e1, by rw [e2, hstore], hw₁.trans (e3.mono ?_)⟩
            rintro x ⟨a, ha, hx⟩
            exact ⟨a, List.mem_cons_of_mem _ ha, hx⟩
      · rw [if_neg hs']
        obtain ⟨d', e1, e2, e3⟩ := ih (data.drop 512) (s + 1) d₁ h₁ (by omega) hrest hlen'
        exact ⟨d', e1, by rw [e2, hstore], hw₁.trans e3⟩

/-- `write_chain_data` fills the sectors of a chain that is long enough. -/
theorem writeChainData_spec (h : (volume fs d).forest.Chain c l) (data : List UInt8)
    (hlen : data.length ≤ 512 * (l.length * fs.sectorsPerCluster)) :
    ∃ d', writeChainData fs d c data = (true, d') ∧
      volume fs d' = (volume fs d).storeSectors (sectorsFrom fs.sectorsPerCluster l 0) data ∧
      Writes (fun x => ∃ a ∈ l, ∃ k < fs.sectorsPerCluster, x = dataSector fs a k) d d' := by
  obtain ⟨t, rfl⟩ := h.1.eq_cons
  exact g.writeChainLoop_spec data.length data 0 d h g.sectors_pos (le_refl _)
    (by rwa [length_sectorsFrom_zero])

/-- Along a chain of used clusters the code finds the sectors of the volume. -/
theorem content_diskVolume (h : (volume fs d).forest.Chain c l) :
    (diskVolume fs d).content (sectorsFrom fs.sectorsPerCluster l 0) =
      (volume fs d).content (sectorsFrom fs.sectorsPerCluster l 0) := by
  rw [Volume.content, Volume.content]
  refine List.flatMap_congr fun q hq => ?_
  rw [Volume.sectorsFrom_zero] at hq
  obtain ⟨a, ha, hq⟩ := List.mem_flatMap.mp hq
  obtain ⟨k, hk, rfl⟩ := List.mem_map.mp hq
  rw [List.mem_range'_1] at hk
  have hu : (volume fs d).Used a := h.2 a ha
  rw [g.diskVolume_data hu.1 (by omega)]

/-- `read_chain_data` yields the bytes of the chain from `offset` on, at most a page. -/
theorem readChainData_spec (h : (volume fs d).forest.Chain c l) (offset maxLen : ℕ) :
    readChainData fs d c offset maxLen =
      (((volume fs d).content (sectorsFrom fs.sectorsPerCluster l 0)).drop offset).take
        (min maxLen fat32MaxIoChunk) := by
  have hu : (volume fs d).Used c := h.2 c h.1.mem_head
  rw [readChainData_walk g.noFault g.bytes (g.walk_fatNext h) hu.1.1, g.content_diskVolume h]

end Geometry

/-! ## The bytes of a chain -/

/-- The contents of the clusters of `l`, one behind the other. Sector numbers have 32 bits. -/
def chainBytes (fs : Fat32Instance) (d : Disk) (l : List ℕ) : List UInt8 :=
  l.flatMap fun c => (List.range fs.sectorsPerCluster).flatMap fun k =>
    (d.sectors (dataSector fs c k % 2 ^ 32)).bytes 0 512

theorem clusterToSector_mod {fs : Fat32Instance} {c : ℕ} (hc : 2 ≤ c) (k : ℕ) :
    (clusterToSector fs c + k) % 2 ^ 32 = dataSector fs c k % 2 ^ 32 := by
  unfold clusterToSector dataSector
  simp only [if_neg (show ¬ c < 2 by omega)]
  omega

theorem content_eq_chainBytes {fs : Fat32Instance} {d : Disk} {l : List ℕ} (h : ∀ c ∈ l, 2 ≤ c) :
    (diskVolume fs d).content (sectorsFrom fs.sectorsPerCluster l 0) = chainBytes fs d l := by
  rw [Volume.content, Volume.sectorsFrom_zero, List.flatMap_assoc, chainBytes]
  refine List.flatMap_congr fun c hc => ?_
  rw [List.flatMap_map, ← List.range_eq_range']
  refine List.flatMap_congr fun k _ => ?_
  rw [← clusterToSector_mod (h c hc)]
  rfl

theorem two_le_of_walk {fs : Fat32Instance} {d : Disk} {c : ℕ} {l : List ℕ}
    (h : Walk (fatNext fs d) c l) (h2 : 2 ≤ c) : ∀ x ∈ l, 2 ≤ x := by
  induction l generalizing c with
  | nil => exact fun x hx => absurd hx List.not_mem_nil
  | cons a l ih =>
    obtain ⟨t, ht⟩ := h.eq_cons
    obtain rfl : a = c := (List.cons.inj ht).1
    rcases clusterHasNext_walk h with ⟨rfl, -⟩ | ⟨-, hrest, hb⟩
    · exact fun x hx => List.mem_singleton.mp hx ▸ h2
    · exact List.forall_mem_cons.mpr ⟨h2, ih hrest hb⟩

/-- `read_chain_data` copies the slice of the chain's bytes from `offset` on, at most `maxLen` of them
and at most a page, and returns how many these are. -/
theorem readChainData_eq_slice {fs : Fat32Instance} (hf : NoFault fs)
    (hbytes : fs.bytesPerSector = 512) {d : Disk} {start : ℕ} {l : List ℕ} (h2 : 2 ≤ start)
    (hw : Walk (fatNext fs d) start l) (offset maxLen : ℕ) :
    readChainData fs d start offset maxLen =
      ((chainBytes fs d l).drop offset).take (min maxLen 4096) ∧
    (readChainData fs d start offset maxLen).length =
      min (offset + min maxLen 4096) (chainBytes fs d l).length - offset := by
  have hread : readChainData fs d start offset maxLen =
      ((chainBytes fs d l).drop offset).take (min maxLen 4096) := by
    rw [readChainData_walk hf hbytes hw h2, content_eq_chainBytes (two_le_of_walk hw h2)]
    rfl
  refine ⟨hread, ?_⟩
  rw [hread, List.length_take, List.length_drop]
  omega

/-- A chain of two clusters of two sectors each, read across the end of the first. -/
theorem readChainData_eq_slice_two :
    readChainData (ramFs 512 2 32 1 1 2)
        (tableDisk (ramFs 512 2 32 1 1 2) fun c => if c = 2 then 3 else fat32Eoc) 2 1000 600 =
      ((chainBytes (ramFs 512 2 32 1 1 2)
        (tableDisk (ramFs 512 2 32 1 1 2) fun c => if c = 2 then 3 else fat32Eoc) [2, 3]).drop
          1000).take 600 :=
  (readChainData_eq_slice (noFault_ramFs _ _ _ _ _ _) rfl (by decide)
    (.cons (b := 3) (by decide) (.last (by decide))) 1000 600).1

end PsychWard.Fat32
