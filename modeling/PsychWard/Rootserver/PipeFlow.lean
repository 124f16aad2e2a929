import PsychWard.Common.Run
import PsychWard.Rootserver.Dispatch

/-!
# The bytes through one pipe

A writer, one reader and a closer work on one pipe through `SYS_PUTS`, `SYS_READ` and
`SYS_PIPE_WR_CLOSE`, in any order. What the reader is told is read off the kernel calls the
rootserver makes: `recorded` is a kernel that also keeps the list of them.

`Flow.Inv` says that what has been handed out and what is still in the buffer is what was written,
that a reader is parked only at an empty buffer without end mark, and that every read is answered
once or still parked. `pipe_flow` is what follows for every run.
-/

namespace PsychWard.Rootserver

open Program

variable {K : Type}

/-- The kernel `sel4` together with the list of the invocations made so far. -/
def recorded (sel4 : SeL4 K) : SeL4 (K × List Invocation) where
  invoke k i := ((sel4.invoke k.1 i).1, (sel4.invoke k.1 i).2, k.2 ++ [i])
  callBlk k name offset := (sel4.callBlk k.1 name offset).map fun a => (a.1, a.2, k.2)
  pageAddress k frame := sel4.pageAddress k.1 frame
  rtc k := sel4.rtc k.1

/-- The invocations the rootserver has made. -/
def Root.log (r : Root (K × List Invocation)) : List Invocation := r.kernel.2

/-- What a reader is told: the next byte, or that there will be none. -/
inductive Answer
  | byte (value : ℤ)
  | eof
  deriving DecidableEq

/-- The byte an answer carries. -/
def Answer.byte? : Answer → Option ℤ
  | .byte value => some value
  | .eof => none

namespace Flow

/-! ## The steps on a pipe -/

/-- The message is a call through the capability of pipe `i`: a write, a read or a close. -/
structure Call (i : ℕ) (m : Message) : Prop where
  badge : m.badge = pipeBaseBadge + i
  label : m.label = .other
  number : m.mr 0 = 6 ∨ m.mr 0 = 8 ∨ m.mr 0 = 24

/-- The bytes a call writes. -/
def written (m : Message) : List ℕ := if m.mr 0 = 8 then m.bytes else []

/-- The values the rootserver has sent to the reader of pipe `i` between two states: the answer to
a read, or a message to the reply capability that the pipe has saved. -/
def told (i : ℕ) (r r' : Root (K × List Invocation)) : List ℤ :=
  (r'.log.drop r.log.length).filterMap fun
    | .reply [value] => some value
    | .send cap [value] => if cap = (r.pipes i).readerReplyCap then some value else none
    | _ => none

/-- The answers of a step. A value is a byte of data if the pipe has unread bytes when it is sent,
and stands for the end of the data otherwise. That value is 0, so that a reader can tell the two
apart as long as no byte 0 is written. -/
def answers (i : ℕ) (r : Root (K × List Invocation)) (m : Message)
    (r' : Root (K × List Invocation)) : List Answer :=
  (told i r r').map fun value =>
    if (r.pipes i).buffer ++ written m ≠ [] then .byte value else .eof

variable (sel4 : SeL4 K) (boot : Boot) (i : ℕ)

/-- A step on pipe `i`, labelled with its message and the answers it gives. The buffer holds what a
write adds, the reader does not read while it is parked, and a slot is free when it parks. -/
structure Step (r : Root (K × List Invocation)) (e : Message × List Answer)
    (r' : Root (K × List Invocation)) : Prop where
  call : Call i e.1
  fits : ((r.pipes i).buffer ++ written e.1).length ≤ pipeSize
  oneReader : e.1.mr 0 = 6 → (r.pipes i).readerReplyCap = 0
  slot : r.alloc.allocSlot.1 ≠ 0
  step : Rootserver.Step (recorded sel4) boot r e.1 r'
  answered : e.2 = answers i r e.1 r'

/-- A pipe that `SYS_PIPE` has just set up. -/
structure Fresh (p : Pipe) : Prop where
  buffer : p.buffer = []
  reader : p.readerReplyCap = 0
  eof : p.eof = false

/-! ## What one step does -/

variable {sel4 boot i} {r r' : Root (K × List Invocation)} {m : Message}

/-- A write adds as many bytes as there is room for. -/
theorem foldl_put (bs : List ℕ) (p : Pipe) :
    bs.foldl Pipe.put p = { p with buffer := p.buffer ++ bs.take (pipeSize - p.buffer.length) } := by
  induction bs generalizing p with
  | nil => simp
  | cons b bs ih =>
    rw [List.foldl_cons, ih, Pipe.put]
    split
    · rename_i hlt
      obtain ⟨n, hn⟩ := Nat.exists_eq_add_of_lt hlt
      rw [hn, show p.buffer.length + n + 1 - p.buffer.length = n + 1 by omega, List.take_succ_cons,
        List.length_append, List.length_singleton,
        show p.buffer.length + n + 1 - (p.buffer.length + 1) = n by omega]
      simp
    · rename_i hge
      rw [Nat.sub_eq_zero_of_le (not_lt.mp hge), List.take_zero, List.take_zero]

theorem foldl_put_of_fits {bs : List ℕ} {p : Pipe} (h : (p.buffer ++ bs).length ≤ pipeSize) :
    bs.foldl Pipe.put p = { p with buffer := p.buffer ++ bs } := by
  rw [List.length_append] at h
  rw [foldl_put, List.take_of_length_le (by omega)]

theorem isPipeCall_of_call (hi : i < maxPipes) (h : Call i m) :
    isPipeCall m.badge ∧ m.badge - pipeBaseBadge = i := by
  rw [h.badge]
  exact ⟨⟨by omega, by omega⟩, by omega⟩

/-- A call through a pipe runs its handler with the sender 0. -/
theorem run_handle (hi : i < maxPipes) (h : Call i m) :
    (handle (recorded sel4) boot m).run r = (syscall (recorded sel4) boot 0 m).run r := by
  have hsender : r.senderPid m.badge = some 0 := by
    simp [Root.senderPid, (isPipeCall_of_call hi h).1]
  simp only [handle, run_bind, run_get, hsender, h.label]

/-- What a call does to the pipe and what it tells the reader, whether a write fits or not; `slot` is
what the allocator hands out. -/
inductive Outcome (p : Pipe) (slot : ℕ) (m : Message) : List ℤ → Pipe → Prop
  | write (h8 : m.mr 0 = 8)
      (h : p.readerReplyCap = 0 ∨ (m.bytes.foldl Pipe.put p).buffer = []) :
      Outcome p slot m [] (m.bytes.foldl Pipe.put p)
  | handOff (h8 : m.mr 0 = 8) (h : p.readerReplyCap ≠ 0) (byte : ℕ) (rest : List ℕ)
      (hb : (m.bytes.foldl Pipe.put p).buffer = byte :: rest) :
      Outcome p slot m [(byte : ℤ)]
        { m.bytes.foldl Pipe.put p with buffer := rest, readerReplyCap := 0 }
  | read (h6 : m.mr 0 = 6) (byte : ℕ) (rest : List ℕ) (hb : p.buffer = byte :: rest) :
      Outcome p slot m [(byte : ℤ)] { p with buffer := rest }
  | readEof (h6 : m.mr 0 = 6) (hb : p.buffer = []) (he : p.eof = true) : Outcome p slot m [0] p
  | park (h6 : m.mr 0 = 6) (hb : p.buffer = []) (he : p.eof = false) :
      Outcome p slot m [] { p with readerReplyCap := slot }
  | close (h24 : m.mr 0 = 24) (h : p.readerReplyCap = 0) :
      Outcome p slot m [] { p with eof := true }
  | closeParked (h24 : m.mr 0 = 24) (h : p.readerReplyCap ≠ 0) :
      Outcome p slot m [0] { p with eof := true, readerReplyCap := 0 }

/-- What a step does to the pipe and what it tells the reader. -/
inductive Effect (p : Pipe) (m : Message) : List ℤ → Pipe → Prop
  /-- A write with nobody parked, or one that leaves the buffer empty. -/
  | write (h8 : m.mr 0 = 8) (h : p.readerReplyCap = 0 ∨ p.buffer ++ m.bytes = []) :
      Effect p m [] { p with buffer := p.buffer ++ m.bytes }
  /-- A write that hands its first byte to the parked reader. -/
  | handOff (h8 : m.mr 0 = 8) (h : p.readerReplyCap ≠ 0) (byte : ℕ) (rest : List ℕ)
      (hb : p.buffer ++ m.bytes = byte :: rest) :
      Effect p m [(byte : ℤ)] { p with buffer := rest, readerReplyCap := 0 }
  | read (h6 : m.mr 0 = 6) (byte : ℕ) (rest : List ℕ) (hb : p.buffer = byte :: rest) :
      Effect p m [(byte : ℤ)] { p with buffer := rest }
  | readEof (h6 : m.mr 0 = 6) (hb : p.buffer = []) (he : p.eof = true) : Effect p m [0] p
  | park (h6 : m.mr 0 = 6) (hb : p.buffer = []) (he : p.eof = false) (cap : ℕ) (hcap : cap ≠ 0) :
      Effect p m [] { p with readerReplyCap := cap }
  | close (h24 : m.mr 0 = 24) (h : p.readerReplyCap = 0) : Effect p m [] { p with eof := true }
  /-- A close that answers the parked reader. -/
  | closeParked (h24 : m.mr 0 = 24) (h : p.readerReplyCap ≠ 0) :
      Effect p m [0] { p with eof := true, readerReplyCap := 0 }

/-- The state of pipe `i` and the invocations made so far. -/
def Sees (i : ℕ) (p : Pipe) (log : List Invocation) (r : Root (K × List Invocation)) : Prop :=
  r.pipes i = p ∧ r.log = log

section
variable {p : Pipe} {log : List Invocation}

theorem sees_sys (inv : Invocation) (h : Sees i p log r) :
    Ends (sys (recorded sel4) inv) r fun _ t => Sees i p (log ++ [inv]) t := by
  intro _ t hrun
  cases hrun
  exact ⟨h.1, congrArg (· ++ [inv]) h.2⟩

theorem sees_reply (mrs : List ℤ) (h : Sees i p log r) :
    Ends (reply (recorded sel4) mrs) r fun _ t => Sees i p (log ++ [.reply mrs]) t :=
  (sees_sys _ h).seq fun _ _ ht => .pure ht

theorem sees_setPipe (f : Pipe → Pipe) (h : Sees i p log r) :
    Ends (setPipe i f) r fun _ t => Sees i (f p) log t :=
  .modify ⟨by rw [Root.setPipe_self, h.1], h.2⟩

theorem sees_freeSlot (slot : ℕ) (h : Sees i p log r) :
    Ends (freeSlot slot) r fun _ t => Sees i p log t :=
  .modify h

theorem sees_allocSlot (h : Sees i p log r) :
    Ends allocSlot r fun cap t => cap = r.alloc.allocSlot.1 ∧ Sees i p log t := by
  intro _ t hrun
  cases hrun
  exact ⟨rfl, h⟩

theorem sees_answer (cap : ℕ) (mrs : List ℤ) (h : Sees i p log r) :
    Ends (answer (recorded sel4) boot cap mrs) r fun _ t =>
      Sees i p (log ++ [.send cap mrs] ++ [.cnodeDelete (boot.rootSlot cap)]) t :=
  (sees_sys _ h).seq fun _ _ ht => (sees_sys _ ht).seq fun _ _ hu => .pure hu

theorem sees_answerReader (value : ℤ) (h : Sees i p log r) :
    Ends (answerReader (recorded sel4) boot i value) r fun _ t =>
      Sees i { p with readerReplyCap := 0 }
        (log ++ [.send p.readerReplyCap [value]] ++
          [.cnodeDelete (boot.rootSlot p.readerReplyCap)]) t := by
  refine .bind (.get ?_)
  rw [h.1]
  refine .seq (sees_answer _ _ h) fun _ t ht => ?_
  exact .seq (sees_freeSlot _ ht) fun _ u hu => sees_setPipe _ hu

/-- The hand-off sends the first byte of the buffer if a reader is parked. -/
theorem sees_handOff (h : Sees i p log r) :
    Ends (handOff (recorded sel4) boot i) r fun _ t =>
      (p.readerReplyCap = 0 ∨ p.buffer = []) ∧ Sees i p log t ∨
      ∃ byte rest, p.readerReplyCap ≠ 0 ∧ p.buffer = byte :: rest ∧
        Sees i { p with buffer := rest, readerReplyCap := 0 }
          (log ++ [.send p.readerReplyCap [(byte : ℤ)]] ++
            [.cnodeDelete (boot.rootSlot p.readerReplyCap)]) t := by
  refine .bind (.get ?_)
  rw [h.1]
  cases hb : p.buffer with
  | nil => exact .pure (.inl ⟨.inr rfl, h⟩)
  | cons byte rest =>
    refine .onlyIf (fun hreader => ?_) fun hreader => .inl ⟨.inl (not_not.mp hreader), h⟩
    refine .seq (sees_setPipe _ h) fun _ t ht => (sees_answerReader _ ht).mono fun _ u hu => ?_
    exact .inr ⟨byte, rest, hreader, rfl, hu⟩

/-- Closing sets the end mark and answers a parked reader. -/
theorem sees_closeWriter (h : Sees i p log r) :
    Ends (closeWriter (recorded sel4) boot i) r fun _ t =>
      p.readerReplyCap = 0 ∧ Sees i { p with eof := true } log t ∨
      p.readerReplyCap ≠ 0 ∧ Sees i { p with eof := true, readerReplyCap := 0 }
        (log ++ [.send p.readerReplyCap [0]] ++
          [.cnodeDelete (boot.rootSlot p.readerReplyCap)]) t := by
  refine .seq (sees_setPipe _ h) fun _ t ht => .bind (.get ?_)
  rw [ht.1]
  refine .onlyIf (fun hreader => ?_) fun hreader => .inl ⟨not_not.mp hreader, ht⟩
  exact (sees_answerReader _ ht).mono fun _ u hu => .inr ⟨hreader, hu⟩

end

/-- The values that a list of new invocations tells the reader. -/
theorem told_of_sees {p : Pipe} {invs : List Invocation} (h : Sees i p (r.log ++ invs) r') :
    told i r r' = invs.filterMap fun
      | .reply [value] => some value
      | .send cap [value] => if cap = (r.pipes i).readerReplyCap then some value else none
      | _ => none := by
  rw [told, h.2, List.drop_left]

theorem outcome_write (h8 : m.mr 0 = 8) (hpipe : isPipeCall m.badge)
    (hidx : m.badge - pipeBaseBadge = i) :
    Ends (sysPuts (recorded sel4) boot m) r fun _ t =>
      Outcome (r.pipes i) r.alloc.allocSlot.1 m (told i r t) (t.pipes i) := by
  have h0 : Sees i (r.pipes i) r.log r := ⟨rfl, rfl⟩
  have hcap : (m.bytes.foldl Pipe.put (r.pipes i)).readerReplyCap = (r.pipes i).readerReplyCap := by
    rw [foldl_put]
  rw [sysPuts, onlyIf, if_pos hpipe, hidx]
  refine .seq (.seq (sees_setPipe _ h0) fun _ t ht => sees_handOff ht) fun _ t ht => ?_
  rw [hcap] at ht
  rcases ht with ⟨hno, ht⟩ | ⟨byte, rest, hreader, hb, ht⟩
  · refine (sees_reply _ ht).mono fun _ u hu => ?_
    rw [told_of_sees hu, hu.1]
    exact .write h8 hno
  · refine (sees_reply _ ht).mono fun _ u hu => ?_
    rw [List.append_assoc, List.append_assoc] at hu
    rw [told_of_sees hu, hu.1]
    have hout := @Outcome.handOff _ r.alloc.allocSlot.1 _ h8 hreader byte rest hb
    simpa using hout

theorem outcome_read (h6 : m.mr 0 = 6) (hpipe : isPipeCall m.badge)
    (hidx : m.badge - pipeBaseBadge = i) :
    Ends (sysRead (recorded sel4) boot m) r fun _ t =>
      Outcome (r.pipes i) r.alloc.allocSlot.1 m (told i r t) (t.pipes i) := by
  have h0 : Sees i (r.pipes i) r.log r := ⟨rfl, rfl⟩
  rw [sysRead, if_pos hpipe, hidx]
  refine .bind (.get ?_)
  cases hb : (r.pipes i).buffer with
  | cons byte rest =>
    refine .seq (sees_setPipe _ h0) fun _ t ht => (sees_reply _ ht).mono fun _ u hu => ?_
    rw [told_of_sees hu, hu.1]
    exact .read h6 byte rest hb
  | nil =>
    refine .ite (fun he => ?_) fun he => ?_
    · refine (sees_reply _ h0).mono fun _ u hu => ?_
      rw [told_of_sees hu, hu.1]
      exact .readEof h6 hb he
    · refine .seq (sees_allocSlot h0) fun cap t ⟨hcap, ht⟩ => ?_
      refine .seq (sees_setPipe _ ht) fun _ u hu => .seq (sees_sys _ hu) fun _ v hv => .pure ?_
      rw [told_of_sees hv, hv.1, hcap]
      exact .park h6 hb (by simpa using he)

theorem outcome_close (h24 : m.mr 0 = 24) (hpipe : isPipeCall m.badge)
    (hidx : m.badge - pipeBaseBadge = i) :
    Ends (sysPipeWrClose (recorded sel4) boot m) r fun _ t =>
      Outcome (r.pipes i) r.alloc.allocSlot.1 m (told i r t) (t.pipes i) := by
  have h0 : Sees i (r.pipes i) r.log r := ⟨rfl, rfl⟩
  rw [sysPipeWrClose, onlyIf, if_pos hpipe, hidx]
  refine .seq (sees_closeWriter h0) fun _ t ht => ?_
  rcases ht with ⟨hreader, ht⟩ | ⟨hreader, ht⟩
  · refine (sees_reply _ ht).mono fun _ u hu => ?_
    rw [told_of_sees hu, hu.1]
    exact .close h24 hreader
  · refine (sees_reply _ ht).mono fun _ u hu => ?_
    rw [List.append_assoc, List.append_assoc] at hu
    rw [told_of_sees hu, hu.1]
    have hout := @Outcome.closeParked _ r.alloc.allocSlot.1 _ h24 hreader
    simpa using hout

/-- Every call on the pipe that comes back has one of the outcomes. -/
theorem outcome_of_call (hi : i < maxPipes) (h : Call i m)
    (hstep : Rootserver.Step (recorded sel4) boot r m r') :
    Outcome (r.pipes i) r.alloc.allocSlot.1 m (told i r r') (r'.pipes i) := by
  obtain ⟨hpipe, hidx⟩ := isPipeCall_of_call hi h
  rw [Rootserver.Step, run_handle hi h, syscall, run_bind, run_get] at hstep
  rcases h.number with h6 | h8 | h24
  · rw [h6] at hstep
    exact outcome_read h6 hpipe hidx _ _ hstep
  · rw [h8] at hstep
    exact outcome_write h8 hpipe hidx _ _ hstep
  · rw [h24] at hstep
    exact outcome_close h24 hpipe hidx _ _ hstep

/-- A write that fits is stored whole, and a reader parks in a slot. -/
theorem Outcome.effect {p p' : Pipe} {slot : ℕ} {values : List ℤ} (h : Outcome p slot m values p')
    (hfits : (p.buffer ++ written m).length ≤ pipeSize) (hslot : slot ≠ 0) :
    Effect p m values p' := by
  have hput (h8 : m.mr 0 = 8) :
      m.bytes.foldl Pipe.put p = { p with buffer := p.buffer ++ m.bytes } := by
    rw [written, if_pos h8] at hfits
    exact foldl_put_of_fits hfits
  cases h with
  | write h8 hno =>
    rw [hput h8] at hno ⊢
    exact .write h8 hno
  | handOff h8 hreader byte rest hb =>
    rw [hput h8] at hb ⊢
    exact .handOff h8 hreader byte rest hb
  | read h6 byte rest hb => exact .read h6 byte rest hb
  | readEof h6 hb he => exact .readEof h6 hb he
  | park h6 hb he => exact .park h6 hb he slot hslot
  | close h24 hreader => exact .close h24 hreader
  | closeParked h24 hreader => exact .closeParked h24 hreader

/-- Every step has one of the effects. -/
theorem effect_of_step (hi : i < maxPipes) {e : Message × List Answer}
    (h : Step sel4 boot i r e r') : Effect (r.pipes i) e.1 (told i r r') (r'.pipes i) :=
  (outcome_of_call hi h.call h.step).effect h.fits h.slot

/-! ## What a run keeps -/

/-- The bytes written in the steps of a run. -/
def writtenBytes (es : List (Message × List Answer)) : List ℤ :=
  es.flatMap fun e => (written e.1).map (↑)

/-- The bytes handed to the reader in the steps of a run, in order. -/
def deliveredBytes (es : List (Message × List Answer)) : List ℤ :=
  es.flatMap fun e => e.2.filterMap Answer.byte?

/-- The number of reads in a run. -/
def readCount (es : List (Message × List Answer)) : ℕ := es.countP fun e => e.1.mr 0 = 6

/-- The number of answers in a run. -/
def answerCount (es : List (Message × List Answer)) : ℕ := (es.flatMap (·.2)).length

/-- What is true of the pipe after the steps `es` on a fresh one. -/
structure Inv (p : Pipe) (es : List (Message × List Answer)) : Prop where
  /-- Nothing is lost, duplicated or reordered. -/
  flow : deliveredBytes es ++ p.buffer.map (↑) = writtenBytes es
  parked : p.readerReplyCap ≠ 0 → p.buffer = [] ∧ p.eof = false
  once : readCount es = answerCount es + if p.readerReplyCap = 0 then 0 else 1

/-- What a step on a pipe does for the reader. -/
structure Serves (p : Pipe) (e : Message × List Answer) (p' : Pipe) : Prop where
  /-- The end is only reported at an empty buffer and a set end mark. -/
  eof : Answer.eof ∈ e.2 → p'.buffer = [] ∧ p'.eof = true
  /-- A parked reader gets the first byte of the next write that has one. -/
  byte : ∀ b bs, p.readerReplyCap ≠ 0 → written e.1 = b :: bs →
    e.2 = [.byte b] ∧ p'.readerReplyCap = 0
  /-- A parked reader is told the end when the pipe is closed. -/
  close : p.readerReplyCap ≠ 0 → e.1.mr 0 = 24 → e.2 = [.eof] ∧ p'.readerReplyCap = 0
  /-- An empty write leaves a parked reader parked. -/
  stays : p.readerReplyCap ≠ 0 → e.1.mr 0 = 8 → written e.1 = [] →
    e.2 = [] ∧ p'.readerReplyCap = p.readerReplyCap

theorem writtenBytes_snoc (es : List (Message × List Answer)) (e : Message × List Answer) :
    writtenBytes (es ++ [e]) = writtenBytes es ++ (written e.1).map (↑) := by
  simp [writtenBytes]

theorem deliveredBytes_snoc (es : List (Message × List Answer)) (e : Message × List Answer) :
    deliveredBytes (es ++ [e]) = deliveredBytes es ++ e.2.filterMap Answer.byte? := by
  simp [deliveredBytes]

theorem readCount_snoc (es : List (Message × List Answer)) (e : Message × List Answer) :
    readCount (es ++ [e]) = readCount es + if e.1.mr 0 = 6 then 1 else 0 := by
  simp [readCount, List.countP_append, List.countP_cons]

theorem answerCount_snoc (es : List (Message × List Answer)) (e : Message × List Answer) :
    answerCount (es ++ [e]) = answerCount es + e.2.length := by
  simp [answerCount]

/-- The answers of a step with the given effect. -/
def tagged (p : Pipe) (m : Message) (values : List ℤ) : List Answer :=
  values.map fun value => if p.buffer ++ written m ≠ [] then .byte value else .eof

/-- Every effect keeps the invariant. -/
theorem Inv.step {p p' : Pipe} {es : List (Message × List Answer)} {values : List ℤ}
    (h : Inv p es) (heff : Effect p m values p') (hone : m.mr 0 = 6 → p.readerReplyCap = 0) :
    Inv p' (es ++ [(m, tagged p m values)]) := by
  refine ⟨?_, ?_, ?_⟩
  -- what was written is what was delivered and what the buffer holds
  · rw [deliveredBytes_snoc, writtenBytes_snoc, ← h.flow]
    cases heff with
    | write h8 hno => simp [written, h8, tagged]
    | handOff h8 hreader byte rest hb =>
      have hp := (h.parked hreader).1
      rw [hp, List.nil_append] at hb
      simp [written, h8, tagged, hp, hb, Answer.byte?]
    | read h6 byte rest hb => simp [written, h6, tagged, hb, Answer.byte?]
    | readEof h6 hb he => simp [written, h6, tagged, hb, Answer.byte?]
    | park h6 hb he cap hcap => simp [written, h6, tagged]
    | close h24 hreader => simp [written, h24, tagged]
    | closeParked h24 hreader =>
      simp [written, h24, tagged, (h.parked hreader).1, Answer.byte?]
  · intro hreader
    cases heff with
    | write h8 hno =>
      have hb := hno.resolve_left hreader
      exact ⟨hb, (h.parked hreader).2⟩
    | handOff => exact absurd rfl hreader
    | read h6 byte rest hb => exact absurd (hone h6) hreader
    | readEof h6 hb he => exact absurd (hone h6) hreader
    | park h6 hb he cap hcap => exact ⟨hb, he⟩
    | close h24 hno => exact absurd hno hreader
    | closeParked => exact absurd rfl hreader
  -- every read is answered but the parked one
  · rw [readCount_snoc, answerCount_snoc, h.once]
    cases heff with
    | write h8 hno => simp [h8, tagged]
    | handOff h8 hreader byte rest hb => simp [h8, tagged, hreader]
    | read h6 byte rest hb => simp [h6, tagged, hone h6]
    | readEof h6 hb he => simp [h6, tagged, hone h6]
    | park h6 hb he cap hcap => simp [h6, tagged, hone h6, hcap]
    | close h24 hreader => simp [h24, tagged]
    | closeParked h24 hreader => simp [h24, tagged, hreader]

/-- Every effect on a pipe that meets the invariant serves the reader. -/
theorem Inv.serves {p p' : Pipe} {es : List (Message × List Answer)} {values : List ℤ}
    (h : Inv p es) (heff : Effect p m values p') (hone : m.mr 0 = 6 → p.readerReplyCap = 0) :
    Serves p (m, tagged p m values) p' := by
  refine ⟨?_, ?_, ?_, ?_⟩
  -- told EOF: the pipe is empty and at its end
  · intro heof
    cases heff with
    | write => simp [tagged] at heof
    | handOff h8 hreader byte rest hb =>
      simp [tagged, written, h8, hb] at heof
    | read h6 byte rest hb => simp [tagged, hb] at heof
    | readEof h6 hb he => exact ⟨hb, he⟩
    | park => simp [tagged] at heof
    | close => simp [tagged] at heof
    | closeParked h24 hreader => exact ⟨(h.parked hreader).1, rfl⟩
  -- a write to a parked reader: its first byte is the answer
  · intro b bs hreader hw
    have hb := (h.parked hreader).1
    have h8 : m.mr 0 = 8 := by
      by_contra hne
      simp [written, hne] at hw
    rw [written, if_pos h8] at hw
    cases heff with
    | write _ hno => simp [hreader, hw] at hno
    | handOff _ _ byte rest hcons =>
      rw [hb, List.nil_append, hw] at hcons
      obtain ⟨rfl, rfl⟩ := List.cons.inj hcons
      exact ⟨by simp [tagged, written, h8, hw], rfl⟩
    | read h6 | readEof h6 | park h6 => exact absurd (hone h6) hreader
    | close h24 | closeParked h24 => exact absurd (h8.symm.trans h24) (by decide)
  · intro hreader (h24 : m.mr 0 = 24)
    have hb := (h.parked hreader).1
    cases heff with
    | write h8 | handOff h8 => exact absurd (h8.symm.trans h24) (by decide)
    | read h6 | readEof h6 | park h6 => exact absurd (hone h6) hreader
    | close _ hno => exact absurd hno hreader
    | closeParked => exact ⟨by simp [tagged, written, h24, hb], rfl⟩
  · intro hreader h8 hw
    rw [written, if_pos h8] at hw
    cases heff with
    | write => exact ⟨rfl, rfl⟩
    | handOff _ _ byte rest hcons =>
      rw [(h.parked hreader).1, hw] at hcons
      cases hcons
    | read h6 | readEof h6 | park h6 => exact absurd (hone h6) hreader
    | close h24 | closeParked h24 => exact absurd (h8.symm.trans h24) (by decide)

/-- The label of a step is determined by what the step does. -/
theorem Step.label_eq {e : Message × List Answer} (h : Step sel4 boot i r e r') :
    e = (e.1, tagged (r.pipes i) e.1 (told i r r')) :=
  Prod.ext rfl h.answered

/-- In every run on a fresh pipe the bytes handed to the reader, followed by those in the buffer,
are the bytes written; a reader is parked only at an empty buffer without end mark; every read is
answered exactly once or still parked; and every further step serves the reader. -/
theorem pipe_flow (hi : i < maxPipes) {es : List (Message × List Answer)}
    (hfresh : Fresh (r.pipes i)) (hrun : Run (Step sel4 boot i) r es r') :
    Inv (r'.pipes i) es ∧
      ∀ e r'', Step sel4 boot i r' e r'' → Serves (r'.pipes i) e (r''.pipes i) := by
  have hinv : Inv (r'.pipes i) es := by
    induction hrun with
    | nil =>
      exact ⟨by simp [hfresh.buffer, writtenBytes, deliveredBytes],
        fun h => absurd hfresh.reader h, by simp [hfresh.reader, readCount, answerCount]⟩
    | snoc _ he ih =>
      rw [he.label_eq]
      exact ih.step (effect_of_step hi he) he.oneReader
  refine ⟨hinv, fun e r'' he => ?_⟩
  rw [he.label_eq]
  exact hinv.serves (effect_of_step hi he) he.oneReader

/-! A reader parks on a fresh pipe and is handed the byte of the next write. -/

/-- A state with no processes and 100 slots. -/
def idle : Root (Unit × List Invocation) := blank ((), []) ⟨100, 200, []⟩

/-- `SYS_READ` through pipe 0. -/
def readCall : Message := { badge := 1000, mr := fun _ => 6 }

/-- `SYS_PUTS` of the byte 65 through pipe 0. -/
def writeCall : Message := { badge := 1000, mr := fun n => if n = 0 then 8 else 65 }

/-- The state after `readCall`. -/
def parked : Root (Unit × List Invocation) :=
  (next (recorded granting) someBoot idle readCall).get (by decide)

/-- The state after `writeCall`. -/
def handed : Root (Unit × List Invocation) :=
  (next (recorded granting) someBoot parked writeCall).get (by decide)

theorem pipe_flow_readThenWrite :
    Run (Step granting someBoot 0) idle [(readCall, []), (writeCall, [.byte 65])] handed ∧
      Inv (handed.pipes 0) [(readCall, []), (writeCall, [.byte 65])] := by
  have hread : Step granting someBoot 0 idle (readCall, []) parked :=
    ⟨⟨rfl, rfl, by decide⟩, by decide, by decide, by decide, step_get _ _ _, by decide⟩
  have hwrite : Step granting someBoot 0 parked (writeCall, [.byte 65]) handed :=
    ⟨⟨rfl, rfl, by decide⟩, by decide, by decide, by decide, step_get _ _ _, by decide⟩
  have hrun := (Run.single hread).trans (.single hwrite)
  exact ⟨hrun, (pipe_flow (by decide) ⟨rfl, rfl, rfl⟩ hrun).1⟩

end Flow

end PsychWard.Rootserver
