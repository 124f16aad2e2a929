import Mathlib.Data.List.Induction
import Mathlib.Data.List.Infix
import PsychWard.Rootserver.PipeFlow

/-!
# A pipeline into `grep`

The left command writes into the pipe in messages of at most 100 bytes, the rootserver stores what
the 4096 bytes of the pipe have room for, and the thread of `grep` takes the bytes one by one into a
line buffer of 256 characters. The steps of the two are taken in any order, with other work of the
rootserver in between.

`served_of_run` says what is printed at the end of every run: the lines that contain the pattern,
among the lines of the bytes the pipe has taken, each cut to 255 characters. Texts and lines that
keep to the two limits are printed as they are.
-/

namespace PsychWard.Shell

open Rootserver Rootserver.Flow

/-! ## The functions of the shell -/

/-- The messages of `sys_write`, with fuel for as many. -/
def sysWriteFrom : ℕ → List ℕ → List (List ℕ)
  | 0, _ => []
  | fuel + 1, str =>
    if str = [] then [] else str.take 100 :: sysWriteFrom fuel (str.drop 100)

/-- `sys_write`: the pieces of a string that it sends. -/
def sysWrite (str : List ℕ) : List (List ℕ) := sysWriteFrom str.length str

/-- The inner loop of `my_strstr`: the rest of the needle where it stops. -/
def unmatched : List ℕ → List ℕ → List ℕ
  | a :: haystack, b :: needle => if a = b then unmatched haystack needle else b :: needle
  | _, needle => needle

/-- The outer loop of `my_strstr`. -/
def strstrFrom (needle : List ℕ) : List ℕ → Option (List ℕ)
  | [] => none
  | a :: haystack =>
    if unmatched (a :: haystack) needle = [] then some (a :: haystack)
    else strstrFrom needle haystack

/-- `my_strstr`: the haystack from the first place with the needle. -/
def myStrstr (haystack needle : List ℕ) : Option (List ℕ) :=
  if needle = [] then some haystack else strstrFrom needle haystack

/-- The locals of `grep_thread_func`, the lines it has printed, whether it waits for the answer to a
read and whether it has left its loop. -/
structure Grep where
  line : List ℕ := []
  printed : List (List ℕ) := []
  waiting : Bool := false
  ended : Bool := false
  deriving DecidableEq

/-- The body of the loop with the character `c`. -/
def Grep.next (pattern : List ℕ) (g : Grep) (c : ℕ) : Grep :=
  if c = 10 ∨ c = 0 then
    { g with
      line := []
      printed :=
        if g.line ≠ [] ∧ myStrstr g.line pattern ≠ none then g.printed ++ [g.line] else g.printed
      ended := c = 0 }
  else if g.line.length < 255 then { g with line := g.line ++ [c] }
  else g

/-- `sys_read_fd` is called. -/
def Grep.ask (g : Grep) : Grep := { g with waiting := true }

/-- `sys_read_fd` returns. -/
def Grep.answer (pattern : List ℕ) (g : Grep) (value : ℤ) : Grep :=
  { g.next pattern (value.toNat % 256) with waiting := false }

/-! ## The pipeline -/

/-- `SYS_PUTS` of a piece of text through pipe `i`. -/
def putsMessage (i : ℕ) (bytes : List ℕ) : Message where
  badge := pipeBaseBadge + i
  length := bytes.length + 1
  mr n := if n = 0 then 8 else bytes.getD (n - 1) 0

/-- `SYS_READ` through pipe `i`. -/
def readMessage (i : ℕ) : Message where
  badge := pipeBaseBadge + i
  length := 1
  mr _ := 6

/-- `SYS_PIPE_WR_CLOSE` through pipe `i`. -/
def closeMessage (i : ℕ) : Message where
  badge := pipeBaseBadge + i
  length := 1
  mr _ := 24

/-- The rootserver, what the left command has still to send and whether it has closed the pipe, and
the thread of `grep`. The bytes that the rootserver has stored so far are kept for the record. -/
structure Pipeline (K : Type) where
  root : Root (K × List Invocation)
  unsent : List (List ℕ)
  closed : Bool := false
  taken : List ℕ := []
  grep : Grep := {}

/-- The left command writes the texts one after the other. -/
def Pipeline.start {K : Type} (root : Root (K × List Invocation)) (texts : List (List ℕ)) :
    Pipeline K where
  root
  unsent := texts.flatMap sysWrite

/-- Who takes a step. -/
inductive Turn
  | write
  | close
  | read
  | other
  deriving DecidableEq

variable {K : Type}

section
variable (sel4 : SeL4 K) (boot : Boot) (i : ℕ) (pattern : List ℕ)

/-- A step of the pipeline. What the rootserver tells the reader of the pipe is what `grep` gets;
what it does for anyone else leaves the pipe as it is. -/
inductive Pipeline.Step (s : Pipeline K) : Turn → Pipeline K → Prop
  | write (piece : List ℕ) (rest : List (List ℕ)) (root : Root (K × List Invocation))
      (hunsent : s.unsent = piece :: rest)
      (hstep : Rootserver.Step (recorded sel4) boot s.root (putsMessage i piece) root) :
      Step s .write
        { s with
          root
          unsent := rest
          taken := s.taken ++ piece.take (pipeSize - (s.root.pipes i).buffer.length)
          grep := (told i s.root root).foldl (Grep.answer pattern) s.grep }
  | close (root : Root (K × List Invocation)) (hunsent : s.unsent = []) (hopen : s.closed = false)
      (hstep : Rootserver.Step (recorded sel4) boot s.root (closeMessage i) root) :
      Step s .close
        { s with
          root
          closed := true
          grep := (told i s.root root).foldl (Grep.answer pattern) s.grep }
  | read (root : Root (K × List Invocation)) (hready : s.grep.waiting = false)
      (hgoing : s.grep.ended = false)
      (hstep : Rootserver.Step (recorded sel4) boot s.root (readMessage i) root) :
      Step s .read
        { s with
          root
          grep := (told i s.root root).foldl (Grep.answer pattern) s.grep.ask }
  | other (root : Root (K × List Invocation)) (hsame : root.pipes i = s.root.pipes i) :
      Step s .other { s with root }

end

/-- The lines that are not empty and have the pattern. -/
def matching (pattern : List ℕ) (lines : List (List ℕ)) : List (List ℕ) :=
  lines.filter fun line => !line.isEmpty && pattern <:+: line

/-! ## What the functions do -/

/-- The pieces make up the text. -/
theorem flatten_sysWriteFrom {fuel : ℕ} {str : List ℕ} (h : str.length ≤ fuel) :
    (sysWriteFrom fuel str).flatten = str := by
  induction fuel generalizing str with
  | zero => exact (List.length_eq_zero_iff.mp (Nat.le_zero.mp h)).symm
  | succ fuel ih =>
    rw [sysWriteFrom]
    split
    · rename_i hnil
      rw [hnil, List.flatten_nil]
    · rw [List.flatten_cons, ih (by rw [List.length_drop]; omega), List.take_append_drop]

/-- Nothing of a string is lost in the pieces. -/
theorem flatten_sysWrite (texts : List (List ℕ)) :
    (texts.flatMap sysWrite).flatten = texts.flatten := by
  induction texts with
  | nil => rfl
  | cons str texts ih =>
    rw [List.flatMap_cons, List.flatten_append, ih, sysWrite, flatten_sysWriteFrom le_rfl,
      List.flatten_cons]

/-- The inner loop of `strstr` runs off the needle at a match. -/
theorem unmatched_eq_nil {haystack needle : List ℕ} :
    unmatched haystack needle = [] ↔ needle <+: haystack := by
  induction haystack generalizing needle with
  | nil => simp [unmatched]
  | cons a haystack ih =>
    cases needle with
    | nil => simp [unmatched]
    | cons b needle =>
      rw [unmatched, List.cons_prefix_cons, eq_comm (a := b)]
      split
      · rename_i heq
        rw [ih, and_iff_right heq]
      · rename_i hne
        simp [hne]

/-- `strstr` finds the needle wherever it stands. -/
theorem strstrFrom_ne_none {haystack needle : List ℕ} (h0 : needle ≠ []) :
    strstrFrom needle haystack ≠ none ↔ needle <:+: haystack := by
  induction haystack with
  | nil => simp [strstrFrom, h0]
  | cons a haystack ih =>
    rw [strstrFrom, List.infix_cons_iff, ← unmatched_eq_nil]
    split
    · rename_i hnil
      simp [hnil]
    · rename_i hne
      simp [hne, ih]

/-- `my_strstr` finds the needle exactly where there is one. -/
theorem myStrstr_ne_none {haystack needle : List ℕ} :
    myStrstr haystack needle ≠ none ↔ needle <:+: haystack := by
  rw [myStrstr]
  split
  · rename_i hnil
    simp [hnil]
  · rename_i hne
    exact strstrFrom_ne_none hne

/-! ## What `grep` does with the bytes -/

section
variable {pattern : List ℕ} {g : Grep} {c : ℕ}

/-- The thread as it is between two reads. -/
def Grep.calm (g : Grep) : Grep := { g with waiting := false }

/-- An answer is one more byte. -/
theorem Grep.answer_eq (value : ℤ) :
    g.answer pattern value = g.calm.next pattern (value.toNat % 256) := by
  rw [Grep.answer, Grep.next, Grep.next, Grep.calm]
  split
  · rfl
  · split
    · rfl
    · rfl

/-- No byte but 0 ends the reading. -/
theorem Grep.next_ended (hc : c ≠ 0) (hg : g.ended = false) : (g.next pattern c).ended = false := by
  rw [Grep.next]
  split
  · exact decide_eq_false hc
  · split
    · exact hg
    · exact hg

/-- The thread after some bytes. -/
def Grep.feed (pattern bytes : List ℕ) : Grep := bytes.foldl (Grep.next pattern) {}

/-- One more byte. -/
theorem Grep.feed_snoc (bytes : List ℕ) :
    Grep.feed pattern (bytes ++ [c]) = (Grep.feed pattern bytes).next pattern c := by
  rw [feed, feed, List.foldl_append, List.foldl_cons, List.foldl_nil]

/-- The end of a line prints it if it is not empty and has the pattern. -/
theorem Grep.printed_next (hc : c = 10 ∨ c = 0) : (g.next pattern c).printed =
    g.printed ++ matching pattern [g.line] := by
  rw [Grep.next, if_pos hc, matching]
  simp only [myStrstr_ne_none]
  split
  · rename_i h
    simp [h]
  · rename_i h
    rw [List.filter_cons_of_neg (by simpa using h), List.filter_nil, List.append_nil]

/-- The lines are chosen one by one. -/
theorem matching_append (lines lines' : List (List ℕ)) :
    matching pattern (lines ++ lines') = matching pattern lines ++ matching pattern lines' :=
  List.filter_append ..

/-- From the bytes without NUL that follow, and the end of the file, the thread prints the lines
that are left, the first of them behind what is in the line buffer. -/
theorem Grep.printed_foldl {bytes : List ℕ} (h : ∀ b ∈ bytes, b ≠ 0) (hline : g.line.length ≤ 255) :
    ((bytes.foldl (Grep.next pattern) g).next pattern 0).printed = g.printed ++
      matching pattern (((bytes.splitOn 10).modifyHead (g.line ++ ·)).map (·.take 255)) := by
  induction bytes generalizing g with
  | nil =>
    rw [List.foldl_nil, printed_next (.inr rfl)]
    simp [List.take_of_length_le hline]
  | cons c bytes ih =>
    have hc : c ≠ 0 := h c List.mem_cons_self
    have ih := @ih (g.next pattern c) fun b hb => h b (List.mem_cons_of_mem _ hb)
    obtain ⟨head, tail, hsplit⟩ := List.exists_cons_of_ne_nil (List.splitOn_ne_nil 10 bytes)
    rw [hsplit, List.modifyHead_cons, List.map_cons] at ih
    rw [List.foldl_cons, List.splitOn_cons_eq_if_modifyHead, hsplit]
    by_cases h10 : c = 10
    · have hnext : (g.next pattern c).line = [] := by rw [Grep.next, if_pos (.inl h10)]
      rw [hnext, List.nil_append] at ih
      rw [ih (by simp), printed_next (.inl h10), if_pos (by simpa using h10), List.modifyHead_cons,
        List.append_nil, List.map_cons, List.map_cons, List.take_of_length_le hline,
        List.append_assoc, ← matching_append, List.singleton_append]
    · rw [if_neg (by simpa using h10), List.modifyHead_cons, List.modifyHead_cons, List.map_cons]
      by_cases hroom : g.line.length < 255
      · have hnext : g.next pattern c = { g with line := g.line ++ [c] } := by
          rw [Grep.next, if_neg (by simp [h10, hc]), if_pos hroom]
        rw [hnext] at ih
        rw [hnext, ih (by simp; omega), List.append_assoc, List.singleton_append]
      · -- the line buffer is full, and the rest of the line is skipped
        have hnext : g.next pattern c = g := by
          rw [Grep.next, if_neg (by simp [h10, hc]), if_neg hroom]
        rw [hnext] at ih
        rw [hnext, ih hline, List.take_append_of_le_length (by omega),
          List.take_append_of_le_length (by omega)]

/-- What is printed at the end of a text. -/
theorem Grep.printed_feed {bytes : List ℕ} (h : ∀ b ∈ bytes, b ≠ 0) :
    ((Grep.feed pattern bytes).next pattern 0).printed =
      matching pattern ((bytes.splitOn 10).map (·.take 255)) := by
  rw [feed, printed_foldl h (Nat.zero_le _)]
  obtain ⟨head, tail, hsplit⟩ := List.exists_cons_of_ne_nil (List.splitOn_ne_nil 10 bytes)
  rw [hsplit]
  rfl

end

/-! ## What one step keeps -/

variable {sel4 : SeL4 K} {boot : Boot} {i : ℕ} {pattern text : List ℕ} {s s' : Pipeline K}
  {e : Turn}

/-- A piece is written as it is. -/
theorem bytes_putsMessage {piece : List ℕ} (h : ∀ c ∈ piece, c < 256) :
    (putsMessage i piece).bytes = piece := by
  refine List.ext_getElem (by simp [Message.bytes, putsMessage]) fun n hn hn' => ?_
  simp [Message.bytes, putsMessage, hn', Nat.mod_eq_of_lt (h _ (List.getElem_mem hn'))]

/-- The three messages are calls of the pipe. -/
theorem call_putsMessage (piece : List ℕ) : Call i (putsMessage i piece) :=
  ⟨rfl, rfl, .inr (.inl rfl)⟩

theorem call_readMessage : Call i (readMessage i) := ⟨rfl, rfl, .inl rfl⟩

theorem call_closeMessage : Call i (closeMessage i) := ⟨rfl, rfl, .inr (.inr rfl)⟩

section
variable {r r' : Root (K × List Invocation)}

/-- What a piece of text does to the pipe and to its reader. -/
theorem told_puts (hi : i < maxPipes) {piece buffer : List ℕ} (hpiece : ∀ c ∈ piece, c < 256)
    (hbuffer : (r.pipes i).buffer ++ piece.take (pipeSize - (r.pipes i).buffer.length) = buffer)
    (h : Rootserver.Step (recorded sel4) boot r (putsMessage i piece) r') :
    ((r.pipes i).readerReplyCap = 0 ∨ buffer = []) ∧ told i r r' = [] ∧
        r'.pipes i = { r.pipes i with buffer } ∨
      ∃ byte rest, (r.pipes i).readerReplyCap ≠ 0 ∧ buffer = byte :: rest ∧
        told i r r' = [(byte : ℤ)] ∧
        r'.pipes i = { r.pipes i with buffer := rest, readerReplyCap := 0 } := by
  have hout := outcome_of_call hi (call_putsMessage piece) h
  have hput := foldl_put (putsMessage i piece).bytes (r.pipes i)
  rw [bytes_putsMessage hpiece, hbuffer] at hput
  generalize told i r r' = values at hout ⊢
  generalize r'.pipes i = p' at hout ⊢
  cases hout with
  | write _ hno =>
    rw [bytes_putsMessage hpiece, hput] at hno ⊢
    exact .inl ⟨hno, rfl, rfl⟩
  | handOff _ hreader byte rest hb =>
    rw [bytes_putsMessage hpiece, hput] at hb ⊢
    exact .inr ⟨byte, rest, hreader, hb, rfl, rfl⟩
  | read h6 | readEof h6 | park h6 => cases h6
  | close h24 | closeParked h24 => cases h24

/-- What a read comes to: a byte, the end, or nothing yet. -/
theorem told_read (hi : i < maxPipes)
    (h : Rootserver.Step (recorded sel4) boot r (readMessage i) r') :
    (∃ byte rest, (r.pipes i).buffer = byte :: rest ∧ told i r r' = [(byte : ℤ)] ∧
        r'.pipes i = { r.pipes i with buffer := rest }) ∨
      (r.pipes i).buffer = [] ∧ (r.pipes i).eof = true ∧ told i r r' = [0] ∧
        r'.pipes i = r.pipes i ∨
      (r.pipes i).buffer = [] ∧ (r.pipes i).eof = false ∧ told i r r' = [] ∧
        ∃ slot, r'.pipes i = { r.pipes i with readerReplyCap := slot } := by
  have hout := outcome_of_call hi call_readMessage h
  generalize told i r r' = values at hout ⊢
  generalize r'.pipes i = p' at hout ⊢
  cases hout with
  | read _ byte rest hb => exact .inl ⟨byte, rest, hb, rfl, rfl⟩
  | readEof _ hb he => exact .inr (.inl ⟨hb, he, rfl, rfl⟩)
  | park _ hb he => exact .inr (.inr ⟨hb, he, rfl, _, rfl⟩)
  | write h8 | handOff h8 => cases h8
  | close h24 | closeParked h24 => cases h24

/-- What the end of the data comes to: it is kept, or handed to the parked reader. -/
theorem told_close (hi : i < maxPipes)
    (h : Rootserver.Step (recorded sel4) boot r (closeMessage i) r') :
    (r.pipes i).readerReplyCap = 0 ∧ told i r r' = [] ∧
        r'.pipes i = { r.pipes i with eof := true } ∨
      (r.pipes i).readerReplyCap ≠ 0 ∧ told i r r' = [0] ∧
        r'.pipes i = { r.pipes i with eof := true, readerReplyCap := 0 } := by
  have hout := outcome_of_call hi call_closeMessage h
  generalize told i r r' = values at hout ⊢
  generalize r'.pipes i = p' at hout ⊢
  cases hout with
  | close _ hreader => exact .inl ⟨hreader, rfl, rfl⟩
  | closeParked _ hreader => exact .inr ⟨hreader, rfl, rfl⟩
  | write h8 | handOff h8 => cases h8
  | read h6 | readEof h6 | park h6 => cases h6

end

section
variable (sel4 boot)

/-- A kernel call comes back. -/
theorem total_sys (inv : Invocation) : Program.Total (sys sel4 inv) := fun _ => ⟨_, _, rfl⟩

theorem total_reply (mrs : List ℤ) : Program.Total (reply sel4 mrs) :=
  .bind (total_sys _ _) fun _ => .pure _

/-- So does an answer. -/
theorem total_answerReader (value : ℤ) : Program.Total (answerReader sel4 boot i value) :=
  .bind .get fun _ => .bind (.bind (total_sys _ _) fun _ => .bind (total_sys _ _) fun _ => .pure _)
    fun _ => .bind (.modify _) fun _ => .modify _

/-- So does a write. -/
theorem total_sysPuts (m : Message) : Program.Total (sysPuts sel4 boot m) := by
  refine .bind (.onlyIf (.bind (.modify _) fun _ => .bind .get fun r => ?_))
    fun _ => total_reply _ _
  split
  · exact .pure _
  · exact .onlyIf (.bind (.modify _) fun _ => total_answerReader _ _ _)

/-- So does a read. -/
theorem total_sysRead (m : Message) : Program.Total (sysRead sel4 boot m) := by
  refine .ite (.bind .get fun r => ?_) (total_reply _ _)
  split
  · exact .bind (.modify _) fun _ => total_reply _ _
  · refine .ite (total_reply _ _) ?_
    exact .bind (fun _ => ⟨_, _, rfl⟩) fun _ => .bind (.modify _) fun _ =>
      .bind (total_sys _ _) fun _ => .pure _

/-- So does the end of the data. -/
theorem total_sysPipeWrClose (m : Message) : Program.Total (sysPipeWrClose sel4 boot m) :=
  .bind (.onlyIf (.bind (.modify _) fun _ => .bind .get fun _ =>
    .onlyIf (total_answerReader _ _ _))) fun _ => total_reply _ _

/-- The rootserver comes back from every call on the pipe. -/
theorem step_of_call (hi : i < maxPipes) {m : Message} (h : Call i m)
    (r : Root (K × List Invocation)) : ∃ r', Rootserver.Step (recorded sel4) boot r m r' := by
  have htotal : Program.Total (syscall (recorded sel4) boot 0 m) := by
    refine .bind .get fun _ => ?_
    rcases h.number with h6 | h8 | h24
    · rw [h6]
      exact total_sysRead _ _ _
    · rw [h8]
      exact total_sysPuts _ _ _
    · rw [h24]
      exact total_sysPipeWrClose _ _ _
  obtain ⟨_, r', hrun⟩ := htotal r
  exact ⟨r', by rw [Rootserver.Step, run_handle hi h]; exact hrun⟩

end

/-- The bytes of a string in C. -/
def NulFree (text : List ℕ) : Prop := ∀ c ∈ text, c ≠ 0 ∧ c < 256

namespace Pipeline

/-- What is true of the pipeline while the left command writes `text`. -/
structure Inv (i : ℕ) (pattern text : List ℕ) (s : Pipeline K) : Prop where
  sent : ∃ sent, sent ++ s.unsent.flatten = text ∧ s.taken.Sublist sent ∧
    (text.length ≤ pipeSize → s.taken = sent)
  eof : (s.root.pipes i).eof = s.closed
  closed : s.closed = true → s.unsent = []
  parked : (s.root.pipes i).readerReplyCap ≠ 0 →
    s.grep.waiting = true ∧ (s.root.pipes i).buffer = [] ∧ s.closed = false
  /-- `grep` has got the bytes that were taken and are not in the pipe any more. -/
  got : ∃ got, s.taken = got ++ (s.root.pipes i).buffer ∧ s.grep.calm =
    if s.grep.ended then (Grep.feed pattern got).next pattern 0 else Grep.feed pattern got
  ended : s.grep.ended = true →
    s.closed = true ∧ (s.root.pipes i).buffer = [] ∧ s.grep.waiting = false

/-- The invariant holds at the start. -/
theorem Inv.start {root : Root (K × List Invocation)} (hfresh : Fresh (root.pipes i))
    (texts : List (List ℕ)) : Inv i pattern texts.flatten (.start root texts) where
  sent := ⟨[], flatten_sysWrite texts, List.Sublist.refl _, fun _ => rfl⟩
  eof := hfresh.eof
  closed h := by cases h
  parked h := absurd hfresh.reader h
  got := ⟨[], hfresh.buffer.symm, rfl⟩
  ended h := by cases h

/-- What was taken has no NUL. -/
theorem Inv.clean (h : Inv i pattern text s) (htext : NulFree text) : NulFree s.taken := by
  obtain ⟨sent, hsent, hsub, -⟩ := h.sent
  intro c hc
  refine htext c ?_
  rw [← hsent]
  exact List.mem_append_left _ (hsub.subset hc)

/-- A thread that is told a byte has got one byte more. -/
theorem told_byte {g : Grep} {got : List ℕ} {byte : ℕ} (hg : g.calm = Grep.feed pattern got)
    (hgoing : g.ended = false) (hbyte : byte ≠ 0 ∧ byte < 256) :
    (g.answer pattern byte).calm = Grep.feed pattern (got ++ [byte]) ∧
      (g.answer pattern byte).ended = false := by
  have hcalm : (g.answer pattern byte).calm = g.answer pattern byte := rfl
  rw [hcalm, Grep.answer_eq, Int.toNat_natCast, Nat.mod_eq_of_lt hbyte.2]
  exact ⟨by rw [hg, Grep.feed_snoc], Grep.next_ended hbyte.1 hgoing⟩

/-- A thread that is told the end of the file leaves its loop. -/
theorem told_end {g : Grep} {got : List ℕ} (hg : g.calm = Grep.feed pattern got) :
    (g.answer pattern 0).calm = (Grep.feed pattern got).next pattern 0 ∧
      (g.answer pattern 0).ended = true := by
  have hcalm : (g.answer pattern 0).calm = g.answer pattern 0 := rfl
  rw [hcalm, Grep.answer_eq, hg]
  exact ⟨rfl, by rw [Grep.next, if_pos (.inr rfl)]; rfl⟩

/-- The bytes of a write are stored as far as there is room. -/
theorem taken_write {sent piece rest buffer : List ℕ} {taken : List ℕ}
    (hsent : sent ++ (piece ++ rest) = text) (hsub : taken.Sublist sent)
    (hall : text.length ≤ pipeSize → taken = sent) (hbuffer : buffer.length ≤ taken.length) :
    (taken ++ piece.take (pipeSize - buffer.length)).Sublist (sent ++ piece) ∧
      (text.length ≤ pipeSize →
        taken ++ piece.take (pipeSize - buffer.length) = sent ++ piece) := by
  refine ⟨hsub.append (List.take_sublist _ _), fun hle => ?_⟩
  have hlen : sent.length + (piece.length + rest.length) = text.length := by
    rw [← hsent, List.length_append, List.length_append]
  rw [hall hle] at hbuffer ⊢
  rw [List.take_of_length_le (by omega)]

/-- While there is text to send, the pipe is open and `grep` has not ended. -/
theorem Inv.going (h : Inv i pattern text s) (hopen : s.closed = false) : s.grep.ended = false := by
  by_contra hended
  have hclosed := (h.ended (by simpa using hended)).1
  rw [hopen] at hclosed
  cases hclosed

/-- A write keeps the invariant. -/
theorem Inv.write (hi : i < maxPipes) (htext : NulFree text) (h : Inv i pattern text s)
    {piece : List ℕ} {rest : List (List ℕ)} {root : Root (K × List Invocation)}
    (hunsent : s.unsent = piece :: rest)
    (hstep : Rootserver.Step (recorded sel4) boot s.root (putsMessage i piece) root) :
    Inv i pattern text
      { s with
        root
        unsent := rest
        taken := s.taken ++ piece.take (pipeSize - (s.root.pipes i).buffer.length)
        grep := (told i s.root root).foldl (Grep.answer pattern) s.grep } := by
  obtain ⟨got, hgot, hgrep⟩ := h.got
  obtain ⟨sent, hsent, hsub, hall⟩ := h.sent
  rw [hunsent, List.flatten_cons] at hsent
  have hpiece : NulFree piece := fun c hc => htext c (by
    rw [← hsent]
    exact List.mem_append_right _ (List.mem_append_left _ hc))
  have hbuffer : (s.root.pipes i).buffer.length ≤ s.taken.length := by
    rw [hgot, List.length_append]
    exact Nat.le_add_left _ _
  -- what is still to be written tells that the pipe is open
  have hopen : s.closed = false := by
    by_contra hclosed
    rw [h.closed (by simpa using hclosed)] at hunsent
    cases hunsent
  have hgoing := h.going hopen
  rw [hgoing, if_neg Bool.false_ne_true] at hgrep
  have hsent' := taken_write hsent hsub hall hbuffer
  -- the piece stays in the buffer, or its first byte is handed to the parked reader
  rcases told_puts hi (fun c hc => (hpiece c hc).2) rfl hstep with
    ⟨hno, htold, hp⟩ | ⟨byte, more, hreader, hb, htold, hp⟩
  · refine ⟨⟨_, by rw [← hsent, List.append_assoc], hsent'⟩, ?_, fun hc => ?_, fun hreader => ?_,
      ⟨got, ?_, ?_⟩, fun he => ?_⟩
    · rw [hp]
      exact h.eof
    · rw [hopen] at hc
      cases hc
    · rw [hp] at hreader ⊢
      rw [htold]
      exact ⟨(h.parked hreader).1, hno.resolve_left hreader, hopen⟩
    · rw [hp, hgot, List.append_assoc]
    · rw [htold, List.foldl_nil, hgoing]
      exact hgrep
    · rw [htold, List.foldl_nil, hgoing] at he
      cases he
  · obtain ⟨-, hempty, -⟩ := h.parked hreader
    have hb' := hb
    rw [hempty, List.nil_append] at hb'
    have hbyte := hpiece byte (List.mem_of_mem_take (by rw [hb']; exact List.mem_cons_self))
    obtain ⟨hcalm, hended⟩ := told_byte hgrep hgoing hbyte
    refine ⟨⟨_, by rw [← hsent, List.append_assoc], hsent'⟩, ?_, fun hc => ?_, fun hreader' => ?_,
      ⟨got ++ [byte], ?_, ?_⟩, fun he => ?_⟩
    · rw [hp]
      exact h.eof
    · rw [hopen] at hc
      cases hc
    · rw [hp] at hreader'
      exact absurd rfl hreader'
    · rw [hp, hgot, List.append_assoc, hb, List.append_assoc, List.singleton_append]
    · rw [htold, List.foldl_cons, List.foldl_nil, hended]
      exact hcalm
    · rw [htold, List.foldl_cons, List.foldl_nil, hended] at he
      cases he

/-- The end of the data keeps it. -/
theorem Inv.close (hi : i < maxPipes) (h : Inv i pattern text s)
    {root : Root (K × List Invocation)} (hunsent : s.unsent = []) (hopen : s.closed = false)
    (hstep : Rootserver.Step (recorded sel4) boot s.root (closeMessage i) root) :
    Inv i pattern text
      { s with
        root
        closed := true
        grep := (told i s.root root).foldl (Grep.answer pattern) s.grep } := by
  obtain ⟨got, hgot, hgrep⟩ := h.got
  have hgoing := h.going hopen
  rw [hgoing, if_neg Bool.false_ne_true] at hgrep
  rcases told_close hi hstep with ⟨hreader, htold, hp⟩ | ⟨hreader, htold, hp⟩
  · refine ⟨h.sent, by rw [hp], fun _ => hunsent, fun hreader' => ?_, ⟨got, ?_, ?_⟩, fun he => ?_⟩
    · rw [hp] at hreader'
      exact absurd hreader hreader'
    · rw [hp]
      exact hgot
    · rw [htold, List.foldl_nil, hgoing]
      exact hgrep
    · rw [htold, List.foldl_nil, hgoing] at he
      cases he
  · -- the parked reader is told the end of the file
    obtain ⟨hcalm, hended⟩ := told_end hgrep
    refine ⟨h.sent, by rw [hp], fun _ => hunsent, fun hreader' => ?_, ⟨got, ?_, ?_⟩, fun he => ?_⟩
    · rw [hp] at hreader'
      exact absurd rfl hreader'
    · rw [hp]
      exact hgot
    · rw [htold, List.foldl_cons, List.foldl_nil, hended, if_pos rfl]
      exact hcalm
    · refine ⟨rfl, ?_, ?_⟩
      · rw [hp]
        exact (h.parked hreader).2.1
      · rw [htold]
        rfl

/-- A read keeps it. -/
theorem Inv.read (hi : i < maxPipes) (htext : NulFree text) (h : Inv i pattern text s)
    {root : Root (K × List Invocation)} (hready : s.grep.waiting = false)
    (hgoing : s.grep.ended = false)
    (hstep : Rootserver.Step (recorded sel4) boot s.root (readMessage i) root) :
    Inv i pattern text
      { s with
        root
        grep := (told i s.root root).foldl (Grep.answer pattern) s.grep.ask } := by
  obtain ⟨got, hgot, hgrep⟩ := h.got
  rw [hgoing, if_neg Bool.false_ne_true] at hgrep
  have hgrep' : s.grep.ask.calm = Grep.feed pattern got := hgrep
  have hgoing' : s.grep.ask.ended = false := hgoing
  have hreader : (s.root.pipes i).readerReplyCap = 0 := by
    by_contra hne
    rw [(h.parked hne).1] at hready
    cases hready
  -- by what the rootserver does with the read: a byte, the end, or nothing yet
  rcases told_read hi hstep with ⟨byte, rest, hb, htold, hp⟩ | ⟨hb, he, htold, hp⟩ |
    ⟨hb, he, htold, slot, hp⟩
  · have hbyte := h.clean htext byte (by rw [hgot, hb]; simp)
    obtain ⟨hcalm, hended⟩ := told_byte hgrep' hgoing' hbyte
    refine ⟨h.sent, ?_, h.closed, fun hreader' => ?_, ⟨got ++ [byte], ?_, ?_⟩, fun he => ?_⟩
    · rw [hp]
      exact h.eof
    · rw [hp] at hreader'
      exact absurd hreader hreader'
    · rw [hp, hgot, hb, List.append_assoc, List.singleton_append]
    · rw [htold, List.foldl_cons, List.foldl_nil, hended]
      exact hcalm
    · rw [htold, List.foldl_cons, List.foldl_nil, hended] at he
      cases he
  · obtain ⟨hcalm, hended⟩ := told_end hgrep'
    refine ⟨h.sent, ?_, h.closed, fun hreader' => ?_, ⟨got, ?_, ?_⟩, fun _ => ⟨?_, ?_, ?_⟩⟩
    · rw [hp]
      exact h.eof
    · rw [hp] at hreader'
      exact absurd hreader hreader'
    · rw [hp]
      exact hgot
    · rw [htold, List.foldl_cons, List.foldl_nil, hended, if_pos rfl]
      exact hcalm
    · rw [← h.eof]
      exact he
    · rw [hp]
      exact hb
    · rw [htold]
      rfl
  -- parked: nothing is told, so `grep` is as it was when it asked
  · refine ⟨h.sent, ?_, h.closed, fun _ => ⟨?_, ?_, ?_⟩, ⟨got, ?_, ?_⟩, fun hended => ?_⟩
    · rw [hp]
      exact h.eof
    · rw [htold]
      rfl
    · rw [hp]
      exact hb
    · rw [← h.eof]
      exact he
    · rw [hp]
      exact hgot
    · rw [htold, List.foldl_nil, hgoing']
      exact hgrep
    · rw [htold, List.foldl_nil, hgoing'] at hended
      cases hended

/-- Every step keeps the invariant. -/
theorem Inv.step (hi : i < maxPipes) (htext : NulFree text) (h : Inv i pattern text s)
    (hs : Step sel4 boot i pattern s e s') : Inv i pattern text s' := by
  cases hs with
  | write piece rest root hunsent hstep => exact h.write hi htext hunsent hstep
  | close root hunsent hopen hstep => exact h.close hi hunsent hopen hstep
  | read root hready hgoing hstep => exact h.read hi htext hready hgoing hstep
  | other root hsame =>
    obtain ⟨got, hgot, hgrep⟩ := h.got
    have heof := h.eof
    have hparked := h.parked
    have hended := h.ended
    rw [← hsame] at hgot heof hparked hended
    exact ⟨h.sent, heof, h.closed, hparked, ⟨got, hgot, hgrep⟩, hended⟩

/-! ## What a run comes to -/

/-- What the left command and `grep` have still to do. -/
def work (i : ℕ) (s : Pipeline K) : ℕ :=
  s.unsent.length + s.unsent.flatten.length + (s.root.pipes i).buffer.length +
    (!s.closed).toNat + (!s.grep.ended).toNat + (!s.grep.waiting).toNat

/-- A piece has no NUL. -/
theorem Inv.piece (h : Inv i pattern text s) (htext : NulFree text) {piece : List ℕ}
    {rest : List (List ℕ)} (hunsent : s.unsent = piece :: rest) : NulFree piece := by
  obtain ⟨sent, hsent, -⟩ := h.sent
  rw [hunsent, List.flatten_cons] at hsent
  intro c hc
  refine htext c ?_
  rw [← hsent]
  exact List.mem_append_right _ (List.mem_append_left _ hc)

/-- Every step of the two leaves less to do. -/
theorem Inv.work_step (hi : i < maxPipes) (htext : NulFree text) (h : Inv i pattern text s)
    (hs : Step sel4 boot i pattern s e s') :
    s'.work i + (if e = .other then 0 else 1) ≤ s.work i := by
  cases hs with
  | write piece rest root hunsent hstep =>
    have htake : (piece.take (pipeSize - (s.root.pipes i).buffer.length)).length ≤ piece.length :=
      List.length_take_le' _ _
    rw [if_neg (by decide)]
    -- the bytes go into the buffer, or the first one wakes the reader
    rcases told_puts hi (fun c hc => (h.piece htext hunsent c hc).2) rfl hstep with
      ⟨-, htold, hp⟩ | ⟨byte, more, hreader, hb, htold, hp⟩
    · simp only [work, hp, htold, hunsent, List.foldl_nil, List.length_append, List.length_cons,
        List.flatten_cons]
      omega
    · have hlen := congrArg List.length hb
      rw [List.length_append, List.length_cons] at hlen
      have hgoing := h.going (h.parked hreader).2.2
      simp only [work, hp, htold, hunsent, List.length_cons, List.flatten_cons,
        List.length_append, (h.parked hreader).1, hgoing]
      have hended := Bool.toNat_le (!(List.foldl (Grep.answer pattern) s.grep [(byte : ℤ)]).ended)
      have hwaiting :=
        Bool.toNat_le (!(List.foldl (Grep.answer pattern) s.grep [(byte : ℤ)]).waiting)
      simp only [Bool.not_true, Bool.not_false, Bool.toNat_true, Bool.toNat_false]
      omega
  | close root hunsent hopen hstep =>
    obtain ⟨got, -, hgrep⟩ := h.got
    have hgoing := h.going hopen
    rw [hgoing, if_neg Bool.false_ne_true] at hgrep
    rw [if_neg (by decide)]
    rcases told_close hi hstep with ⟨-, htold, hp⟩ | ⟨hreader, htold, hp⟩
    · simp only [work, hp, htold, List.foldl_nil, hopen, Bool.not_false, Bool.not_true,
        Bool.toNat_true, Bool.toNat_false]
      omega
    · have hwaiting : (s.grep.answer pattern 0).waiting = false := rfl
      simp only [work, hp, htold, List.foldl_cons, List.foldl_nil, hopen, hgoing, hwaiting,
        (told_end hgrep).2, (h.parked hreader).1, Bool.not_false, Bool.not_true, Bool.toNat_true,
        Bool.toNat_false]
      omega
  | read root hready hgoing hstep =>
    obtain ⟨got, -, hgrep⟩ := h.got
    rw [hgoing, if_neg Bool.false_ne_true] at hgrep
    have hgrep' : s.grep.ask.calm = Grep.feed pattern got := hgrep
    have hasked : s.grep.ask.waiting = true ∧ s.grep.ask.ended = s.grep.ended := ⟨rfl, rfl⟩
    rw [if_neg (by decide)]
    -- a byte, the end, or the reader is parked
    rcases told_read hi hstep with ⟨byte, rest, hb, htold, hp⟩ | ⟨hb, he, htold, hp⟩ |
      ⟨hb, he, htold, slot, hp⟩
    · have hwaiting : (s.grep.ask.answer pattern byte).waiting = false := rfl
      have hended := Bool.toNat_le (!(s.grep.ask.answer pattern byte).ended)
      simp only [work, hp, hb, htold, List.foldl_cons, List.foldl_nil, hready, hgoing, hwaiting,
        List.length_cons, Bool.not_false, Bool.toNat_true]
      omega
    · have hwaiting : (s.grep.ask.answer pattern 0).waiting = false := rfl
      simp only [work, hp, htold, List.foldl_cons, List.foldl_nil, hready, hgoing, hwaiting,
        (told_end hgrep').2, Bool.not_false, Bool.not_true, Bool.toNat_true, Bool.toNat_false]
      omega
    · simp only [work, hp, htold, List.foldl_nil, hready, hasked, Bool.not_false, Bool.not_true,
        Bool.toNat_true, Bool.toNat_false]
      omega
  | other root hsame =>
    rw [if_pos rfl]
    simp only [work, hsame]
    exact le_rfl

/-- The left command can take a step until it has closed the pipe. -/
theorem exists_write (sel4 : SeL4 K) (boot : Boot) (pattern : List ℕ) (hi : i < maxPipes)
    (hopen : s.closed = false) :
    ∃ e s', e ≠ .other ∧ Step sel4 boot i pattern s e s' ∧
      ((s.root.pipes i).readerReplyCap = 0 → NulFree s.unsent.flatten →
        s'.grep.waiting = s.grep.waiting) := by
  cases hunsent : s.unsent with
  | cons piece rest =>
    obtain ⟨root, hroot⟩ := step_of_call sel4 boot hi (call_putsMessage piece) s.root
    refine ⟨.write, _, by decide, .write piece rest root hunsent hroot, fun hreader htext => ?_⟩
    have hpiece : ∀ c ∈ piece, c < 256 := fun c hc => (htext c (by simp [hc])).2
    rcases told_puts hi hpiece rfl hroot with ⟨-, htold, -⟩ | ⟨-, -, hne, -⟩
    · rw [htold, List.foldl_nil]
    · exact absurd hreader hne
  | nil =>
    obtain ⟨root, hroot⟩ := step_of_call sel4 boot hi call_closeMessage s.root
    refine ⟨.close, _, by decide, .close root hunsent hopen hroot, fun hreader _ => ?_⟩
    rcases told_close hi hroot with ⟨-, htold, -⟩ | ⟨hne, -⟩
    · rw [htold, List.foldl_nil]
    · exact absurd hreader hne

/-- Until `grep` has ended, the left command or `grep` can take a step, unless `grep` waits with no
reply capability saved. -/
theorem Inv.goes (hi : i < maxPipes) (h : Inv i pattern text s)
    (hslot : s.grep.waiting = true → (s.root.pipes i).readerReplyCap ≠ 0)
    (hgoing : s.grep.ended = false) :
    ∃ e s', e ≠ .other ∧ Step sel4 boot i pattern s e s' := by
  cases hclosed : s.closed with
  | false =>
    obtain ⟨e, s', he, hs, -⟩ := exists_write sel4 boot pattern hi hclosed
    exact ⟨e, s', he, hs⟩
  | true =>
    have hready : s.grep.waiting = false := by
      by_contra hwaiting
      have hopen := (h.parked (hslot (by simpa using hwaiting))).2.2
      rw [hclosed] at hopen
      cases hopen
    obtain ⟨root, hroot⟩ := step_of_call sel4 boot hi call_readMessage s.root
    exact ⟨.read, _, by decide, .read root hready hgoing hroot⟩

/-- From a state in which `grep` does not wait there is a step after which it does not. -/
theorem Inv.advances (sel4 : SeL4 K) (boot : Boot) (hi : i < maxPipes) (htext : NulFree text)
    (h : Inv i pattern text s) (hready : s.grep.waiting = false) (hgoing : s.grep.ended = false) :
    ∃ e s', e ≠ .other ∧ Step sel4 boot i pattern s e s' ∧ s'.grep.waiting = false := by
  have hreader : (s.root.pipes i).readerReplyCap = 0 := by
    by_contra hne
    rw [(h.parked hne).1] at hready
    cases hready
  cases hclosed : s.closed with
  | false =>
    obtain ⟨e, s', he, hs, hsame⟩ := exists_write sel4 boot pattern hi hclosed
    refine ⟨e, s', he, hs, ?_⟩
    rw [hsame hreader, hready]
    obtain ⟨sent, hsent, -⟩ := h.sent
    exact fun c hc => htext c (hsent ▸ List.mem_append_right _ hc)
  | true =>
    obtain ⟨root, hroot⟩ := step_of_call sel4 boot hi call_readMessage s.root
    refine ⟨.read, _, by decide, .read root hready hgoing hroot, ?_⟩
    rcases told_read hi hroot with ⟨byte, rest, -, htold, -⟩ | ⟨-, -, htold, -⟩ | ⟨-, he, -⟩
    · rw [htold]
      rfl
    · rw [htold]
      rfl
    · rw [h.eof, hclosed] at he
      cases he

/-- A pipeline whose `grep` does not wait can run to its end. -/
theorem Inv.exists_end (sel4 : SeL4 K) (boot : Boot) (hi : i < maxPipes) (htext : NulFree text)
    (h : Inv i pattern text s) (hready : s.grep.waiting = false) :
    ∃ es s', Run (Step sel4 boot i pattern) s es s' ∧ s'.grep.ended = true := by
  induction hn : s.work i using Nat.strong_induction_on generalizing s with
  | h n ih =>
    cases hended : s.grep.ended with
    | true => exact ⟨[], s, .nil, hended⟩
    | false =>
      obtain ⟨e, s', he, hs, hready'⟩ := h.advances sel4 boot hi htext hready hended
      have hwork := h.work_step hi htext hs
      rw [if_neg he] at hwork
      obtain ⟨es, t, hrun, hend⟩ := ih _ (by omega) (h.step hi htext hs) hready' rfl
      exact ⟨e :: es, t, hrun.cons hs, hend⟩

/-- What is true of the pipeline before the first read: the pipe has as much of what was sent as it
has room for. -/
structure Filled (i : ℕ) (text : List ℕ) (s : Pipeline K) : Prop where
  sent : ∃ sent, sent ++ s.unsent.flatten = text ∧ s.taken = sent.take pipeSize
  buffer : (s.root.pipes i).buffer = s.taken
  unparked : (s.root.pipes i).readerReplyCap = 0

/-- An empty pipe has taken nothing. -/
theorem Filled.start {root : Root (K × List Invocation)} (hfresh : Fresh (root.pipes i))
    (texts : List (List ℕ)) : Filled i texts.flatten (.start root texts) where
  sent := ⟨[], flatten_sysWrite texts, rfl⟩
  buffer := hfresh.buffer
  unparked := hfresh.reader

/-- Every step but a read fills the pipe. -/
theorem Filled.step (hi : i < maxPipes) (htext : NulFree text) (h : Filled i text s)
    (hs : Step sel4 boot i pattern s e s') (he : e ≠ .read) : Filled i text s' := by
  obtain ⟨sent, hsent, htaken⟩ := h.sent
  cases hs with
  | write piece rest root hunsent hstep =>
    rw [hunsent, List.flatten_cons] at hsent
    have hpiece : ∀ c ∈ piece, c < 256 := fun c hc => (htext c (by
      rw [← hsent]
      exact List.mem_append_right _ (List.mem_append_left _ hc))).2
    rcases told_puts hi hpiece rfl hstep with ⟨-, -, hp⟩ | ⟨-, -, hreader, -⟩
    · refine ⟨⟨sent ++ piece, by rw [← hsent, List.append_assoc], ?_⟩, ?_, ?_⟩
      · rw [h.buffer, htaken, List.take_append, List.length_take]
        rw [show pipeSize - min pipeSize sent.length = pipeSize - sent.length by omega]
      · rw [hp, h.buffer]
      · rw [hp]
        exact h.unparked
    · exact absurd h.unparked hreader
  | close root hunsent hopen hstep =>
    rcases told_close hi hstep with ⟨-, -, hp⟩ | ⟨hreader, -⟩
    · exact ⟨⟨sent, hsent, htaken⟩, by rw [hp]; exact h.buffer, by rw [hp]; exact h.unparked⟩
    · exact absurd h.unparked hreader
  | read => exact absurd rfl he
  | other root hsame =>
    exact ⟨⟨sent, hsent, htaken⟩, by rw [hsame]; exact h.buffer, by rw [hsame]; exact h.unparked⟩

/-- Only a write changes what has been taken and what has still to be sent. -/
theorem Step.same (hs : Step sel4 boot i pattern s e s') (he : e ≠ .write) :
    s'.taken = s.taken ∧ s'.unsent = s.unsent := by
  cases hs with
  | write => exact absurd rfl he
  | close | read | other => exact ⟨rfl, rfl⟩

/-- What a run that writes the texts has come to in the state `s`. -/
structure Served (sel4 : SeL4 K) (boot : Boot) (i : ℕ) (pattern : List ℕ) (texts : List (List ℕ))
    (es : List Turn) (s : Pipeline K) : Prop where
  /-- The lines of what the pipe has taken are cut to the line buffer. -/
  printed : s.grep.ended = true →
    s.grep.printed = matching pattern ((s.taken.splitOn 10).map (·.take 255))
  /-- The pipe takes bytes of the text in their order, and all of a text that it has room for. -/
  taken : s.grep.ended = true →
    s.taken.Sublist texts.flatten ∧ (texts.flatten.length ≤ pipeSize → s.taken = texts.flatten)
  /-- If everything is written before the first read, the pipe takes the start of the text. -/
  filled : s.grep.ended = true → ∀ es₁ es₂, es = es₁ ++ es₂ → .read ∉ es₁ → .write ∉ es₂ →
    s.taken = texts.flatten.take pipeSize
  /-- A text that keeps to both limits has its lines printed as they are. -/
  whole : s.grep.ended = true → texts.flatten.length ≤ pipeSize →
    (∀ line ∈ texts.flatten.splitOn 10, line.length ≤ 255) →
    s.grep.printed = matching pattern (texts.flatten.splitOn 10)
  /-- The left command and `grep` take boundedly many steps. -/
  bounded : es.countP (· ≠ .other) ≤ (texts.flatMap sysWrite).length + texts.flatten.length + 3
  /-- Until `grep` has ended one of them can go on, if `grep` does not wait without a saved reply
  capability. -/
  goes : s.grep.ended = false →
    (s.grep.waiting = true → (s.root.pipes i).readerReplyCap ≠ 0) →
    ∃ e s', e ≠ .other ∧ Step sel4 boot i pattern s e s'

variable {texts : List (List ℕ)} {es : List Turn} {root : Root (K × List Invocation)}

/-- The invariant of a whole run. -/
theorem inv_of_run (hi : i < maxPipes) (hfresh : Fresh (root.pipes i))
    (htext : NulFree texts.flatten)
    (hrun : Run (Step sel4 boot i pattern) (start root texts) es s) :
    Inv i pattern texts.flatten s :=
  hrun.invariant (fun _ _ _ h hs => h.step hi htext hs) (Inv.start hfresh texts)

/-- Every step but those of others does a part of the work. -/
theorem work_of_run (hi : i < maxPipes) (hfresh : Fresh (root.pipes i))
    (htext : NulFree texts.flatten)
    (hrun : Run (Step sel4 boot i pattern) (start root texts) es s) :
    s.work i + es.countP (· ≠ .other) ≤ (start root texts).work i := by
  induction hrun with
  | nil => exact le_rfl
  | snoc hrun he ih =>
    have hstep := (inv_of_run hi hfresh htext hrun).work_step hi htext he
    rw [List.countP_append, List.countP_singleton]
    simp only [decide_eq_true_eq, ite_not]
    omega

/-- Without a reader the pipe takes what fits. -/
theorem filled_of_run (hi : i < maxPipes) (hfresh : Fresh (root.pipes i))
    (htext : NulFree texts.flatten)
    (hrun : Run (Step sel4 boot i pattern) (start root texts) es s) (hread : .read ∉ es) :
    Filled i texts.flatten s := by
  induction hrun with
  | nil => exact Filled.start hfresh texts
  | snoc hrun he ih =>
    rw [List.mem_append, List.mem_singleton, not_or] at hread
    exact (ih hread.1).step hi htext he (Ne.symm hread.2)

/-- Without a writer nothing is taken. -/
theorem same_of_run (hrun : Run (Step sel4 boot i pattern) s es s') (hwrite : .write ∉ es) :
    s'.taken = s.taken ∧ s'.unsent = s.unsent := by
  induction hrun with
  | nil => exact ⟨rfl, rfl⟩
  | snoc hrun he ih =>
    rw [List.mem_append, List.mem_singleton, not_or] at hwrite
    obtain ⟨htaken, hunsent⟩ := he.same (Ne.symm hwrite.2)
    rw [htaken, hunsent]
    exact ih hwrite.1

/-- The work at the start. -/
theorem work_start (hfresh : Fresh (root.pipes i)) : (start root texts).work i =
    (texts.flatMap sysWrite).length + texts.flatten.length + 3 := by
  have hbuffer : ((start root texts).root.pipes i).buffer = [] := hfresh.buffer
  have hflatten : (start root texts).unsent.flatten = texts.flatten := flatten_sysWrite texts
  rw [work, hbuffer, hflatten]
  rfl

/-- At the end of the run everything has been sent. -/
theorem Inv.all_sent (h : Inv i pattern text s) (hended : s.grep.ended = true) :
    s.taken.Sublist text ∧ (text.length ≤ pipeSize → s.taken = text) := by
  obtain ⟨sent, hsent, hsub, hall⟩ := h.sent
  rw [h.closed (h.ended hended).1, List.flatten_nil, List.append_nil] at hsent
  rw [← hsent]
  exact ⟨hsub, hsent ▸ hall⟩

/-- At the end the lines that match have been printed. -/
theorem Inv.printed_eq (h : Inv i pattern text s) (htext : NulFree text)
    (hended : s.grep.ended = true) :
    s.grep.printed = matching pattern ((s.taken.splitOn 10).map (·.take 255)) := by
  obtain ⟨got, hgot, hgrep⟩ := h.got
  rw [(h.ended hended).2.1, List.append_nil] at hgot
  rw [hended, if_pos rfl] at hgrep
  have hprinted : s.grep.printed = s.grep.calm.printed := rfl
  rw [hprinted, hgrep, hgot, Grep.printed_feed]
  intro c hc
  exact (h.clean htext c (hgot ▸ hc)).1

/-- At the end of every run of the pipeline `grep` has printed the lines with the pattern among the
lines of what the pipe has taken, each cut to 255 characters. -/
theorem served_of_run (hi : i < maxPipes) (hfresh : Fresh (root.pipes i))
    (htext : NulFree texts.flatten)
    (hrun : Run (Step sel4 boot i pattern) (start root texts) es s) :
    Served sel4 boot i pattern texts es s := by
  have hinv := inv_of_run hi hfresh htext hrun
  refine ⟨hinv.printed_eq htext, hinv.all_sent, ?_, ?_, ?_, fun hg hslot => hinv.goes hi hslot hg⟩
  · intro hended es₁ es₂ hes hread hwrite
    obtain ⟨u, hu, hs⟩ := (hes ▸ hrun).split
    obtain ⟨sent, hsent, htaken⟩ := (filled_of_run hi hfresh htext hu hread).sent
    obtain ⟨htaken', hunsent⟩ := same_of_run hs hwrite
    rw [← hunsent, hinv.closed (hinv.ended hended).1, List.flatten_nil, List.append_nil] at hsent
    rw [htaken', htaken, hsent]
  · intro hended hlen hlines
    rw [hinv.printed_eq htext hended, (hinv.all_sent hended).2 hlen]
    congr 1
    have hcut := List.map_congr_left fun line hline => List.take_of_length_le (hlines line hline)
    exact hcut.trans (List.map_id' _)
  · have hwork := work_of_run hi hfresh htext hrun
    rw [work_start hfresh] at hwork
    omega

/-! `echo ab | grep b` prints the line. -/

theorem served_of_run_echo : ∃ es s,
    Run (Step granting someBoot 0 [98]) (start idle [[97, 98], [10]]) es s ∧
      s.grep.ended = true ∧ Served granting someBoot 0 [98] [[97, 98], [10]] es s ∧
      s.grep.printed = [[97, 98]] := by
  have hfresh : Fresh (idle.pipes 0) := ⟨rfl, rfl, rfl⟩
  have htext : NulFree [[97, 98], [10]].flatten := by unfold NulFree; decide
  have hinv : Inv 0 [98] _ _ := Inv.start hfresh [[97, 98], [10]]
  obtain ⟨es, s, hrun, hended⟩ := hinv.exists_end granting someBoot (by decide) htext rfl
  have hserved := served_of_run (by decide) hfresh htext hrun
  exact ⟨es, s, hrun, hended, hserved, hserved.whole hended (by decide) (by decide)⟩

/-! `cat` of a file with 255 characters `a` and a `b` into `grep b` does not print the line. -/

/-- A line of 256 characters. -/
def longLine : List ℕ := List.replicate 255 97 ++ [98]

/-- The line is one byte longer than the buffer. -/
theorem length_longLine : longLine.length = 256 := by
  rw [longLine, List.length_append, List.length_replicate, List.length_singleton]

/-- It consists of the letters `a` and `b`. -/
theorem mem_longLine {c : ℕ} (hc : c ∈ longLine) : c = 97 ∨ c = 98 := by
  rw [longLine, List.mem_append, List.mem_replicate, List.mem_singleton] at hc
  exact hc.imp_left And.right

theorem not_printed_whole : ¬ ∀ pattern texts es s, NulFree texts.flatten →
    Run (Step granting someBoot 0 pattern) (start idle texts) es s → s.grep.ended = true →
    s.grep.printed = matching pattern (texts.flatten.splitOn 10) := by
  intro h
  have hfresh : Fresh (idle.pipes 0) := ⟨rfl, rfl, rfl⟩
  have htext : NulFree [longLine, [10]].flatten := by
    intro c hc
    simp only [List.flatten_cons, List.flatten_nil, List.append_nil, List.mem_append,
      List.mem_singleton] at hc
    rcases hc with hc | rfl
    · rcases mem_longLine hc with rfl | rfl <;> decide
    · decide
  have hinv : Inv 0 [98] _ _ := Inv.start hfresh [longLine, [10]]
  obtain ⟨es, s, hrun, hended⟩ := hinv.exists_end granting someBoot (by decide) htext rfl
  -- the whole line has the pattern
  have hnone : 10 ∉ longLine := fun h10 => by
    rcases mem_longLine h10 with heq | heq <;> cases heq
  have hmem : longLine ∈ matching [98] ([longLine, [10]].flatten.splitOn 10) := by
    have hsplit : [longLine, [10]].flatten.splitOn 10 = longLine :: [].splitOn 10 :=
      List.splitOn_append_cons_self_of_not_mem hnone []
    rw [hsplit, matching, List.mem_filter]
    have hinfix : [98] <:+: longLine := List.infix_append_of_infix_right List.infix_rfl
    exact ⟨List.mem_cons_self, Bool.and_eq_true_iff.mpr ⟨rfl, decide_eq_true hinfix⟩⟩
  -- but no line that is printed has more than 255 characters
  rw [← h [98] [longLine, [10]] es s htext hrun hended,
    (inv_of_run (by decide) hfresh htext hrun).printed_eq htext hended, matching, List.mem_filter,
    List.mem_map] at hmem
  obtain ⟨⟨line, -, hline⟩, -⟩ := hmem
  have hlen := length_longLine
  rw [← hline, List.length_take] at hlen
  omega

end Pipeline

end PsychWard.Shell
