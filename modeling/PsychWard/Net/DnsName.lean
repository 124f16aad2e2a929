import PsychWard.Common.Memory
import PsychWard.Net.Bounds

/-!
# Domain names on the wire

`nameBytes` is the encoding of names in DNS messages: each label behind its length, and a zero at the
end. `dns_format_name` makes it of a domain with dots, in one pass. It fills in the length of a label
when the next dot or the end is seen, at the place it remembers; the proof follows the labels, and
between two of them the place is the one where the next byte goes and the count is zero.

The receive loop follows the labels the other way round. On an encoded name that lies inside the
buffer it stops at the final zero.
-/

namespace PsychWard.Net

open Traced

/-! ## The encoding -/

/-- `'.'` -/
def dot : UInt8 := 46

/-- A label behind its length. -/
def labelBytes (label : List UInt8) : List UInt8 := UInt8.ofNat label.length :: label

/-- The encoding of a name. -/
def nameBytes (labels : List (List UInt8)) : List UInt8 := labels.flatMap labelBytes ++ [0]

/-- The text of a name. -/
def domainText (labels : List (List UInt8)) : List UInt8 := [dot].intercalate labels

/-- A label of a name, with at most 63 characters. -/
structure IsLabel (label : List UInt8) : Prop where
  ne_nil : label ≠ []
  length_le : label.length ≤ 63

instance (label : List UInt8) : Decidable (IsLabel label) :=
  decidable_of_iff (label ≠ [] ∧ label.length ≤ 63) ⟨fun h => ⟨h.1, h.2⟩, fun h => ⟨h.1, h.2⟩⟩

/-- A domain that fits in the array of the driver: labels with a dot between any two. -/
structure IsDomain (domain : List UInt8) : Prop where
  label : ∀ l ∈ domain.splitOn dot, IsLabel l
  length_le : domain.length ≤ 63

/-! ## `dns_format_name` -/

/-- The destination and the three counters. -/
structure FormatState where
  dst : Memory
  pos : ℕ
  lenPos : ℕ
  count : ℕ

namespace FormatState

/-- One turn of the loop. -/
def step (s : FormatState) (c : UInt8) : FormatState :=
  if c = dot then
    { dst := s.dst.put s.lenPos [UInt8.ofNat s.count]
      lenPos := s.pos + 1
      count := 0
      pos := s.pos + 1 }
  else
    { s with
      dst := s.dst.put (s.pos + 1) [c]
      count := s.count + 1
      pos := s.pos + 1 }

/-- What follows the loop: the last length, the zero, and the number of bytes. -/
def finish (s : FormatState) : Memory × ℕ :=
  ((s.dst.put s.lenPos [UInt8.ofNat s.count]).put (s.pos + 1) [0], s.pos + 2)

end FormatState

/-- `dns_format_name`; `src` are the characters in front of the NUL. -/
def dnsFormatName (dst : Memory) (src : List UInt8) : Memory × ℕ :=
  (src.foldl FormatState.step ⟨dst, 0, 0, 0⟩).finish

/-! ## Texts and encodings -/

theorem not_mem_of_mem_splitOn {domain l : List UInt8} (h : l ∈ domain.splitOn dot) : dot ∉ l := by
  induction domain generalizing l with
  | nil =>
    rw [List.splitOn_nil, List.mem_singleton] at h
    exact h ▸ List.not_mem_nil
  | cons c domain ih =>
    rw [List.splitOn_cons_eq_if_modifyHead] at h
    split at h
    · rcases List.mem_cons.mp h with rfl | h
      · exact List.not_mem_nil
      · exact ih h
    · rename_i hc
      obtain ⟨label, labels, hsplit⟩ := List.exists_cons_of_ne_nil (List.splitOn_ne_nil dot domain)
      rw [hsplit, List.modifyHead_cons] at h
      rcases List.mem_cons.mp h with rfl | h
      · rw [List.mem_cons, not_or]
        exact ⟨fun heq => hc (beq_iff_eq.mpr heq.symm), ih (hsplit ▸ List.mem_cons_self)⟩
      · exact ih (hsplit ▸ List.mem_cons_of_mem _ h)

theorem nameBytes_cons (label : List UInt8) (labels : List (List UInt8)) :
    nameBytes (label :: labels) = labelBytes label ++ nameBytes labels := by
  rw [nameBytes, nameBytes, List.flatMap_cons, List.append_assoc]

theorem domainText_cons (label next : List UInt8) (labels : List (List UInt8)) :
    domainText (label :: next :: labels) = label ++ dot :: domainText (next :: labels) := by
  rw [domainText, domainText, List.intercalate_cons_cons, List.append_assoc, List.singleton_append]

/-- The encoding is two bytes longer than the text. -/
theorem length_nameBytes (label : List UInt8) (labels : List (List UInt8)) :
    (nameBytes (label :: labels)).length = (domainText (label :: labels)).length + 2 := by
  induction labels generalizing label with
  | nil =>
    simp only [nameBytes, domainText, labelBytes, List.flatMap_cons, List.flatMap_nil,
      List.length_append, List.length_cons, List.length_nil, List.intercalate_singleton]
  | cons next labels ih =>
    rw [nameBytes_cons, domainText_cons, List.length_append, ih, List.length_append, labelBytes,
      List.length_cons, List.length_cons]
    omega

/-! ## Writing -/

/-- The characters of a label go behind the place of its length. -/
theorem foldl_label {label : List UInt8} (h : dot ∉ label) (s : FormatState) :
    label.foldl FormatState.step s =
      { s with
        dst := s.dst.put (s.pos + 1) label
        count := s.count + label.length
        pos := s.pos + label.length } := by
  induction label generalizing s with
  | nil =>
    have hput : s.dst.put (s.pos + 1) [] = s.dst := by
      funext k
      exact if_neg fun hk => absurd hk.2 (Nat.not_lt.mpr hk.1)
    simp only [List.foldl_nil, hput, List.length_nil, Nat.add_zero]
  | cons c label ih =>
    rw [List.mem_cons, not_or] at h
    have hput := Memory.put_put s.dst (s.pos + 1) [c] label
    rw [List.foldl_cons, ih h.2, FormatState.step, if_neg (Ne.symm h.1)]
    simp only [List.length_cons, List.length_nil, List.cons_append, List.nil_append] at hput ⊢
    rw [hput]
    congr 1 <;> omega

/-- From the start of a label on, the loop and what follows it write the encoding of the name. -/
theorem foldl_name {label : List UInt8} {labels : List (List UInt8)}
    (h : ∀ l ∈ label :: labels, dot ∉ l) (dst : Memory) (pos : ℕ) :
    ((domainText (label :: labels)).foldl FormatState.step ⟨dst, pos, pos, 0⟩).finish =
      (dst.put pos (nameBytes (label :: labels)),
        pos + (domainText (label :: labels)).length + 2) := by
  have hlabel : dot ∉ label := h label List.mem_cons_self
  have hlen := Memory.put_put_below dst pos label [UInt8.ofNat label.length]
  rw [List.length_singleton, List.singleton_append] at hlen
  induction labels generalizing label dst pos with
  | nil =>
    have htext : domainText [label] = label := List.intercalate_singleton
    have hzero := Memory.put_put dst pos (labelBytes label) [0]
    rw [labelBytes, List.length_cons, ← Nat.add_assoc] at hzero
    rw [htext, foldl_label hlabel, FormatState.finish]
    simp only [Nat.zero_add, hlen]
    rw [hzero, nameBytes_cons]
    rfl
  | cons next labels ih =>
    have hrest := Memory.put_put dst pos (labelBytes label) (nameBytes (next :: labels))
    rw [labelBytes, List.length_cons, ← Nat.add_assoc] at hrest
    rw [domainText_cons, List.foldl_append, List.foldl_cons, foldl_label hlabel, FormatState.step,
      if_pos rfl]
    simp only [Nat.zero_add, hlen]
    rw [ih (fun l hl => h l (List.mem_cons_of_mem _ hl)) _ _
      (h next (List.mem_cons_of_mem _ List.mem_cons_self)) (Memory.put_put_below _ _ _ _), hrest,
      nameBytes_cons label, labelBytes, List.length_append, List.length_cons]
    refine congrArg (Prod.mk _) ?_
    omega

/-! ## Following the labels -/

/-- On an encoded name inside the buffer the loop stops at the final zero. -/
theorem skipName_nameBytes {mem : Window} {bufferEnd fuel reader : ℕ} {labels : List (List UInt8)}
    (h : ∀ l ∈ labels, IsLabel l) (hmem : Memory.Stands mem reader (nameBytes labels))
    (hend : reader + (nameBytes labels).length ≤ bufferEnd) (hfuel : bufferEnd ≤ reader + fuel) :
    (skipName bufferEnd fuel reader).val mem =
      some (some (reader + (nameBytes labels).length - 1)) := by
  -- on the labels: each round of the loop jumps over one
  induction labels generalizing reader fuel with
  | nil =>
    rw [nameBytes, List.flatMap_nil, List.nil_append, List.length_singleton] at hend
    cases fuel with
    | zero => omega
    | succ fuel =>
      rw [skipName, val_bind, val_ite, val_byte, if_pos (show mem reader = 0 from hmem.1)]
      rfl
  | cons label labels ih =>
    have hlabel := h label List.mem_cons_self
    have hpos := List.length_pos_of_ne_nil hlabel.ne_nil
    rw [nameBytes_cons, List.length_append, labelBytes, List.length_cons] at hend ⊢
    rw [nameBytes_cons, Memory.stands_append, labelBytes, List.length_cons] at hmem
    have hlen : (mem reader).toNat = label.length := by
      rw [hmem.1.1]
      exact Nat.mod_eq_of_lt (by have := hlabel.length_le; omega)
    have hne : mem reader ≠ 0 := fun hzero => by
      rw [hzero] at hlen
      exact absurd hlen (Nat.ne_of_lt hpos)
    cases fuel with
    | zero => omega
    | succ fuel =>
      have hname : 0 < (nameBytes labels).length := by
        rw [nameBytes, List.length_append]
        exact Nat.succ_pos _
      have hstep := ih (fun l hl => h l (List.mem_cons_of_mem _ hl)) hmem.2 (by omega)
        (show bufferEnd ≤ reader + (label.length + 1) + fuel by omega)
      rw [skipName, val_bind, val_ite, val_byte, if_neg hne, val_ite, hlen,
        if_neg (by omega), Nat.add_assoc reader, hstep]
      congr 2
      omega

/-- **The name of a query.** `dns_format_name` writes the encoding of the domain and nothing else,
and the loop of the receiver finds the end of the encoding wherever it lies in a receive buffer. -/
theorem dnsFormatName_spec (dst : Memory) {domain : List UInt8} (h : IsDomain domain) :
    dnsFormatName dst domain =
        (dst.put 0 (nameBytes (domain.splitOn dot)), domain.length + 2) ∧
      (nameBytes (domain.splitOn dot)).length = domain.length + 2 ∧
      ∀ (mem : Window) (base reader : ℕ), base ≤ reader →
        reader + (domain.length + 2) ≤ base + rxBufferLen →
        Memory.Stands mem reader (nameBytes (domain.splitOn dot)) →
        (skipName (base + rxBufferLen) rxBufferLen reader).val mem =
            some (some (reader + (domain.length + 1))) ∧
          mem (reader + (domain.length + 1)) = 0 := by
  obtain ⟨label, labels, hsplit⟩ := List.exists_cons_of_ne_nil (List.splitOn_ne_nil dot domain)
  have htext : domainText (label :: labels) = domain := by
    rw [← hsplit]
    exact List.intercalate_splitOn dot
  have hlen : (nameBytes (label :: labels)).length = domain.length + 2 := by
    rw [length_nameBytes, htext]
  have hwrite := foldl_name (fun l hl => not_mem_of_mem_splitOn (hsplit ▸ hl)) dst 0
  rw [htext, Nat.zero_add] at hwrite
  rw [hsplit]
  refine ⟨hwrite, hlen, fun mem base reader hbase hend hmem => ⟨?_, ?_⟩⟩
  · rw [skipName_nameBytes (fun l hl => h.label l (hsplit ▸ hl)) hmem (by omega) (by omega), hlen,
      Nat.add_sub_assoc (by omega)]
    rfl
  · have hzero := (Memory.stands_append.mp hmem).2.1
    rw [nameBytes, List.length_append, List.length_singleton] at hlen
    rwa [Nat.add_right_cancel hlen] at hzero

/-- `ya.ru` -/
theorem dnsFormatName_spec_short : dnsFormatName (fun _ => 0) [121, 97, 46, 114, 117] =
    (Memory.put (fun _ => 0) 0 [2, 121, 97, 2, 114, 117, 0], 7) := by
  have hdomain : IsDomain [121, 97, 46, 114, 117] := ⟨by decide, by decide⟩
  exact (dnsFormatName_spec (fun _ => 0) hdomain).1

end PsychWard.Net
