import PsychWard.Common.Run
import PsychWard.Rootserver.Serving

/-!
# The writers of pipes

A reader that is parked on a pipe depends on the end of the writer to be told so. The rootserver
knows the writer by `writer_pid`: the creator of the pipe at first, then the thread whose
`SYS_CLONE` names the pipe. Who is really started to write is kept in history variables: the
creator, then each thread that is given the slot of the pipe's capability as its standard output.

`Unhooks` is the step after which a parked reader may be left alone: the writer is killed or
recovered, or it exits without being the process that is registered. `fed_of_run` says that nothing
else does it, and that the end of the writer hands the end of the data to the parked reader.
-/

namespace PsychWard.Rootserver

open Program

variable {K : Type} {sel4 : SeL4 K} {boot : Boot}

/-- History variables: the number of lives of each PID, and for each pipe the slot of its capability,
the process that was started to write into it, and which of its lives that is. -/
structure WriterLog where
  age : ℕ → ℕ
  place : ℕ → Place
  writer : ℕ → ℕ
  life : ℕ → ℕ

/-- The sender of a message, 0 for a call through a pipe. -/
def Root.sender (r : Root K) (m : Message) : ℕ := (r.table.senderPid m.badge).getD 0

/-- The pipe has been set up in this step. -/
def Made (r r' : Root K) (i : ℕ) : Prop :=
  (r.pipes i).active = false ∧ (r'.pipes i).active = true

/-- The sender gives the capability of pipe `i` as standard output to the thread it starts. -/
def WriterLog.Passes (v : WriterLog) (r : Root K) (m : Message) (i : ℕ) : Prop :=
  (r.pipes i).active = true ∧ m.mr 6 = (v.place i).index ∧
    (r.pcbs (r.sender m)).cspace = (v.place i).cnode

/-- The message starts a thread that writes into pipe `i`. -/
def WriterLog.Starts (v : WriterLog) (r : Root K) (m : Message) (i : ℕ) : Prop :=
  (m.label = .other ∧ m.mr 0 = 101) ∧ r.table.senderPid m.badge ≠ none ∧
    r.table.freePid ≠ none ∧ v.Passes r m i

instance (r r' : Root K) (i : ℕ) : Decidable (Made r r' i) := inferInstanceAs (Decidable (_ ∧ _))

instance (v : WriterLog) (r : Root K) (m : Message) (i : ℕ) : Decidable (v.Passes r m i) :=
  inferInstanceAs (Decidable (_ ∧ _))

instance (v : WriterLog) (r : Root K) (m : Message) (i : ℕ) : Decidable (v.Starts r m i) :=
  inferInstanceAs (Decidable (_ ∧ _))

/-- The history after a message. The low 8 bits of the index select a slot of a CNode of 256. -/
def WriterLog.after (v : WriterLog) (r : Root K) (m : Message) (r' : Root K) : WriterLog where
  age p := if (r.table p).active = false ∧ (r'.table p).active = true then v.age p + 1 else v.age p
  place i :=
    if Made r r' i then childSlot (r.pcbs (r.sender m)).cspace (m.mr 1 % 256) else v.place i
  writer i :=
    if Made r r' i then r.sender m
    else if v.Starts r m i then r.table.freePid.getD 0 else v.writer i
  life i :=
    if Made r r' i then v.age (r.sender m)
    else if v.Starts r m i then v.age (r.table.freePid.getD 0) + 1 else v.life i

/-- A step of the rootserver together with its history. -/
def LoggedStep (sel4 : SeL4 K) (boot : Boot) (x : Root K × WriterLog) (m : Message)
    (y : Root K × WriterLog) : Prop :=
  Step sel4 boot x.1 m y.1 ∧ y.2 = x.2.after x.1 m y.1

/-- A pipe in use on which a reader is parked is not at its end, and the process that was started to
write into it is still alive. -/
def Fed (x : Root K × WriterLog) : Prop :=
  ∀ i < maxPipes, (x.1.pipes i).active = true → (x.1.pipes i).readerReplyCap ≠ 0 →
    (x.1.pipes i).eof = false ∧ x.1.table.Alive (x.2.writer i) ∧
      x.2.life i = x.2.age (x.2.writer i)

/-- Pipe `i` is in use and not at its end, and the process that was started to write into it is
alive. -/
structure WriterLog.Open (v : WriterLog) (r : Root K) (i : ℕ) : Prop where
  lt : i < maxPipes
  active : (r.pipes i).active = true
  eof : (r.pipes i).eof = false
  alive : r.table.Alive (v.writer i)

/-- The step separates a pipe in use and not at its end from its writer. -/
inductive Unhooks (sel4 : SeL4 K) (boot : Boot) (x : Root K × WriterLog) (m : Message) : Prop
  /-- The writer is killed or recovered. -/
  | dropped (i : ℕ) (hopen : x.2.Open x.1 i) (hsender : x.1.table.senderPid m.badge ≠ none)
      (hm : x.1.table.Recovers m (x.2.writer i))
  /-- The writer exits, and another process is registered. -/
  | unregistered (i : ℕ) (hopen : x.2.Open x.1 i) (hm : x.1.table.Exits m (x.2.writer i))
      (hwriter : (x.1.pipes i).writerPid ≠ x.2.writer i)
  /-- A pipe is set up by a call through another pipe, whose sender has no process. -/
  | unowned (i : ℕ) (hm : m.label = .other ∧ m.mr 0 = 20)
      (hsender : x.1.table.senderPid m.badge = some 0) (hfree : x.1.freePipe = some i)
      (hgrant : x.1.Grants sel4 boot 0 m i)

/-- What the step means to the readers of pipe `i`: its writer has ended, or closes the pipe. -/
def Finishes (x : Root K × WriterLog) (m : Message) (r' : Root K) (i : ℕ) : Prop :=
  x.1.table.Alive (x.2.writer i) ∧ ¬ r'.table.Alive (x.2.writer i) ∨
    m.badge = pipeBaseBadge + i ∧ m.label = .other ∧ m.mr 0 = 24

/-- When the writer of a pipe in use ends or closes it, the parked reader is sent the end of the
data. -/
def HandsEof (boot : Boot) (x : Root (K × List Invocation) × WriterLog) (m : Message)
    (r' : Root (K × List Invocation)) : Prop :=
  ∀ i < maxPipes, (x.1.pipes i).active = true → (x.1.pipes i).readerReplyCap ≠ 0 →
    Finishes x m r' i → ((r'.pipes i).eof = true ∧ (r'.pipes i).readerReplyCap = 0) ∧
      .sent (x.1.pipes i).readerReplyCap [0] ∈ x.1.dealings boot r'

/-- What every state keeps: the process that was started to write into a pipe in use and not at its
end is alive. -/
structure WriterInv (x : Root K × WriterLog) : Prop where
  sound : ∀ i, (x.1.pipes i).Sound
  feeds : ∀ i < maxPipes, (x.1.pipes i).active = true → (x.1.pipes i).eof = false →
    x.1.table.Alive (x.2.writer i) ∧ x.2.life i = x.2.age (x.2.writer i)

theorem fed_of_inv {x : Root K × WriterLog} (h : WriterInv x) : Fed x :=
  fun i hi hactive hreader => ⟨h.sound i hreader, h.feeds i hi hactive (h.sound i hreader)⟩

theorem WriterInv.open {x : Root K × WriterLog} (h : WriterInv x) {i : ℕ} (hi : i < maxPipes)
    (hactive : (x.1.pipes i).active = true) (heof : (x.1.pipes i).eof = false) :
    x.2.Open x.1 i :=
  ⟨hi, hactive, heof, (h.feeds i hi hactive heof).1⟩

/-! ## One step -/

section
variable {r r' : Root K} {v : WriterLog} {m : Message} {i : ℕ}

/-- A pipe that goes on with a writer that goes on keeps what the invariant says. -/
theorem feeds_of_kept (hmade : ¬ Made r r' i) (hstarts : ¬ v.Starts r m i)
    (h : r.table.Alive (v.writer i) ∧ v.life i = v.age (v.writer i))
    (halive : (r'.table (v.writer i)).active = true) :
    r'.table.Alive ((v.after r m r').writer i) ∧
      (v.after r m r').life i = (v.after r m r').age ((v.after r m r').writer i) := by
  have hw : (v.after r m r').writer i = v.writer i := by
    simp only [WriterLog.after, if_neg hmade, if_neg hstarts]
  have hl : (v.after r m r').life i = v.life i := by
    simp only [WriterLog.after, if_neg hmade, if_neg hstarts]
  have ha : (v.after r m r').age (v.writer i) = v.age (v.writer i) := by
    simp [WriterLog.after, h.1.1]
  rw [hw, hl, ha]
  exact ⟨⟨halive, h.1.2⟩, h.2⟩

theorem not_made (hcont : (r'.pipes i).active = true → (r.pipes i).active = true) :
    ¬ Made r r' i := by
  rintro ⟨hno, hyes⟩
  rw [hcont hyes] at hno
  cases hno

theorem not_starts (h : ¬ (m.label = .other ∧ m.mr 0 = 101)) : ¬ v.Starts r m i :=
  fun hs => h hs.1

/-- The exit of a process or thread ends the pipes in use into which it is registered to write. -/
theorem ended_of_exits (hstep : Step sel4 boot r m r') {p : ℕ} (hp : r.table.Alive p)
    (hexits : r.table.Exits m p) (hi : i < maxPipes) (hactive : (r.pipes i).active = true)
    (hwriter : (r.pipes i).writerPid = p) : r'.pipes i = (r.pipes i).ended := by
  have hall : r'.pipes =
      fun i => if i ∈ List.range maxPipes then (r.pipes i).endedBy p else r.pipes i := by
    rcases hexits with ⟨hexit, hsender⟩ | ⟨⟨hexit, rfl⟩, -⟩
    · have hrun := step_syscall hstep hsender hexit.1
      rw [syscall, run_bind, run_get, hexit.2] at hrun
      exact pipes_sysExit hp.2.1 r _ _ hrun
    · have hrun := step_syscall hstep (Table.senderPid_of_alive hp) hexit.1
      rw [syscall, run_bind, run_get, hexit.2] at hrun
      exact pipes_sysThreadExit hp _ _ hrun
  rw [hall]
  simp only [List.mem_range.mpr hi, if_true]
  exact if_pos ⟨hactive, hwriter⟩

/-- The writer of an open pipe survives a step that unhooks nobody, or the step is its exit and it is
registered. -/
theorem survives_of_not_unhooks (hopen : v.Open r i) (hstep : Step sel4 boot r m r')
    (hno : ¬ Unhooks sel4 boot (r, v) m) : (r'.table (v.writer i)).active = true ∨
      r.table.Exits m (v.writer i) ∧ (r.pipes i).writerPid = v.writer i := by
  rcases (step_moves hstep).survives hopen.alive.1 with hlive | hrec | hexits
  · exact .inl hlive
  · cases hsender : r.table.senderPid m.badge with
    | none =>
      rw [step_ignored hstep hsender]
      exact .inl hopen.alive.1
    | some sender => exact absurd (.dropped i hopen (by rw [hsender]; simp) hrec) hno
  · by_cases hwriter : (r.pipes i).writerPid = v.writer i
    · exact .inr ⟨hexits, hwriter⟩
    · exact absurd (.unregistered i hopen hexits hwriter) hno

/-- A message that is neither `SYS_PIPE` nor `SYS_CLONE`. -/
theorem writerInv_continue (h : WriterInv (r, v)) (hstep : Step sel4 boot r m r')
    (hm : ¬ (m.label = .other ∧ (m.mr 0 = 20 ∨ m.mr 0 = 101)))
    (hno : ¬ Unhooks sel4 boot (r, v) m) : WriterInv (r', v.after r m r') := by
  have hcont := step_continue hstep hm
  refine ⟨fun i => (hcont i).sound (h.sound i), fun i hi hactive heof => ?_⟩
  have hold := h.feeds i hi ((hcont i).active hactive) ((hcont i).eof heof)
  have hopen := h.open hi ((hcont i).active hactive) ((hcont i).eof heof)
  have hstarts : ¬ v.Starts r m i := not_starts fun h => hm ⟨h.1, .inr h.2⟩
  refine feeds_of_kept (not_made (hcont i).active) hstarts hold ?_
  rcases survives_of_not_unhooks hopen hstep hno with hlive | ⟨hexits, hwriter⟩
  · exact hlive
  -- the writer has exited, and its end has been noted in the pipe
  · rw [ended_of_exits hstep hold.1 hexits hi hopen.active hwriter] at heof
    cases heof

/-- The pipe and its writer are as they were. -/
theorem feeds_of_same (h : WriterInv (r, v)) (hstarts : ¬ v.Starts r m i)
    (htable : r'.table = r.table) (hpipe : r'.pipes i = r.pipes i) (hi : i < maxPipes)
    (hactive : (r'.pipes i).active = true) (heof : (r'.pipes i).eof = false) :
    r'.table.Alive ((v.after r m r').writer i) ∧
      (v.after r m r').life i = (v.after r m r').age ((v.after r m r').writer i) := by
  rw [hpipe] at hactive heof
  have hold := h.feeds i hi hactive heof
  refine feeds_of_kept (not_made fun _ => hactive) hstarts hold ?_
  rw [htable]
  exact hold.1.1

/-- `SYS_PIPE`. -/
theorem writerInv_pipe (h : WriterInv (r, v)) (hstep : Step sel4 boot r m r')
    (hm : m.label = .other ∧ m.mr 0 = 20) (hno : ¬ Unhooks sel4 boot (r, v) m) :
    WriterInv (r', v.after r m r') := by
  have hstarts (i : ℕ) : ¬ v.Starts r m i :=
    not_starts fun h => absurd (hm.2.symm.trans h.2) (by decide)
  cases hsender : r.table.senderPid m.badge with
  | none =>
    have heq := step_ignored hstep hsender
    refine ⟨fun i => by rw [heq]; exact h.sound i, fun i hi => ?_⟩
    exact feeds_of_same h (hstarts i) (by rw [heq]) (by rw [heq]) hi
  | some sender =>
    have hrun := step_syscall hstep hsender hm.1
    rw [syscall, run_bind, run_get, hm.2] at hrun
    have htable : r'.table = r.table := sameTable_sysPipe sender m r _ _ hrun
    -- the message opens the pipe `j`, or none
    rcases pipes_sysPipe sender m r _ _ hrun with ⟨-, hpipes⟩ | ⟨j, hfree, hpipes⟩
    · refine ⟨fun i => by rw [hpipes]; exact h.sound i, fun i hi => ?_⟩
      exact feeds_of_same h (hstarts i) htable (by rw [hpipes]) hi
    · refine ⟨fun i => ?_, fun i hi hactive heof => ?_⟩
      · by_cases hij : i = j
        · subst hij
          rw [hpipes, Function.update_self]
          exact fun hreader => absurd rfl hreader
        · rw [hpipes, Function.update_of_ne hij]
          exact h.sound i
      · by_cases hij : i = j
        · subst hij
          have hpipe : r'.pipes i = _ := (congrFun hpipes i).trans (Function.update_self ..)
          have hgrant : r.Grants sel4 boot sender m i := by
            rw [hpipe] at hactive
            exact of_decide_eq_true hactive
          have hmade : Made r r' i := ⟨(freePipe_eq_some hfree).1, hactive⟩
          -- an unbadged caller would own the pipe as PID 0
          have hpos : 0 < sender := by
            rcases Nat.eq_zero_or_pos sender with rfl | hpos
            · exact absurd (.unowned i hm hsender hfree hgrant) hno
            · exact hpos
          have halive := Table.alive_of_senderPid hsender hpos
          have hs : r.sender m = sender := by rw [Root.sender, hsender]; rfl
          have hw : (v.after r m r').writer i = sender := by
            simp only [WriterLog.after, if_pos hmade, hs]
          have hl : (v.after r m r').life i = v.age sender := by
            simp only [WriterLog.after, if_pos hmade, hs]
          have ha : (v.after r m r').age sender = v.age sender := by
            simp [WriterLog.after, halive.1]
          rw [hw, hl, ha, htable]
          exact ⟨halive, rfl⟩
        · have hpipe : r'.pipes i = r.pipes i :=
            (congrFun hpipes i).trans (Function.update_of_ne hij ..)
          exact feeds_of_same h (hstarts i) htable hpipe hi hactive heof

/-- `SYS_CLONE`. -/
theorem writerInv_clone (h : WriterInv (r, v)) (hstep : Step sel4 boot r m r')
    (hm : m.label = .other ∧ m.mr 0 = 101) : WriterInv (r', v.after r m r') := by
  cases hsender : r.table.senderPid m.badge with
  | none =>
    have heq := step_ignored hstep hsender
    refine ⟨fun i => by rw [heq]; exact h.sound i, fun i hi => ?_⟩
    exact feeds_of_same h (fun hs => hs.2.1 hsender) (by rw [heq]) (by rw [heq]) hi
  | some sender =>
    have hrun := step_syscall hstep hsender hm.1
    rw [syscall, run_bind, run_get, hm.2] at hrun
    rcases pipes_sysClone sender m r _ _ hrun with ⟨hfree, hpipes, htable⟩ | ⟨p, hfree, htable, hpipes⟩
    · refine ⟨fun i => by rw [hpipes]; exact h.sound i, fun i hi => ?_⟩
      exact feeds_of_same h (fun hs => hs.2.2.1 hfree) htable (by rw [hpipes]) hi
    · have hp := Table.freePid_eq_some hfree
      have hsame (i : ℕ) : (r'.pipes i).active = (r.pipes i).active ∧
          (r'.pipes i).eof = (r.pipes i).eof ∧
          (r'.pipes i).readerReplyCap = (r.pipes i).readerReplyCap := by
        rw [hpipes]
        split <;> exact ⟨rfl, rfl, rfl⟩
      have hnew : r'.table p = ⟨shellThreadName, 0, true, 0⟩ := by rw [htable, Table.start_self]
      refine ⟨fun i => ?_, fun i hi hactive heof => ?_⟩
      · intro hreader
        rw [(hsame i).2.1]
        exact h.sound i ((hsame i).2.2 ▸ hreader)
      · rw [(hsame i).1] at hactive
        rw [(hsame i).2.1] at heof
        have hmade : ¬ Made r r' i := not_made fun _ => hactive
        by_cases hpass : v.Passes r m i
        -- the new thread is started to write
        · have hstarts : v.Starts r m i := ⟨hm, by rw [hsender]; simp, by rw [hfree]; simp, hpass⟩
          have hw : (v.after r m r').writer i = p := by
            simp only [WriterLog.after, if_neg hmade, if_pos hstarts, hfree, Option.getD_some]
          have hl : (v.after r m r').life i = v.age p + 1 := by
            simp only [WriterLog.after, if_neg hmade, if_pos hstarts, hfree, Option.getD_some]
          have ha : (v.after r m r').age p = v.age p + 1 := by
            simp [WriterLog.after, hp.1, hnew]
          rw [hw, hl, ha]
          exact ⟨⟨by rw [hnew], hp.2⟩, rfl⟩
        -- the pipe keeps its writer, who is not the new thread
        · have hold := h.feeds i hi hactive heof
          have hne : v.writer i ≠ p := by
            intro heq
            have hfreed := hold.1.1
            rw [heq, hp.1] at hfreed
            cases hfreed
          refine feeds_of_kept hmade (fun hs => hpass hs.2.2.2) hold ?_
          rw [htable, Table.start_of_ne hne]
          exact hold.1.1

/-- Every step that unhooks no writer keeps the invariant. -/
theorem writerInv_step {x y : Root K × WriterLog} (h : WriterInv x)
    (hstep : LoggedStep sel4 boot x m y) (hno : ¬ Unhooks sel4 boot x m) : WriterInv y := by
  obtain ⟨hrun, hlog⟩ := hstep
  have hy : y = (y.1, x.2.after x.1 m y.1) := Prod.ext rfl hlog
  rw [hy]
  by_cases hpipe : m.label = .other ∧ m.mr 0 = 20
  · exact writerInv_pipe h hrun hpipe hno
  · by_cases hclone : m.label = .other ∧ m.mr 0 = 101
    · exact writerInv_clone h hrun hclone
    · refine writerInv_continue h hrun (fun hm => ?_) hno
      rcases hm with ⟨hl, hm | hm⟩
      · exact hpipe ⟨hl, hm⟩
      · exact hclone ⟨hl, hm⟩

end

/-! ## The end of the data -/

section
variable {r t : Root (K × List Invocation)} {v : WriterLog} {m : Message} {i : ℕ}

/-- Who exits is told to the readers of the pipes into which it is registered to write. -/
theorem Serving.reads {L : List (Field × List ℤ)} {D : List ℕ} {started : Option ℕ} {T : Table}
    {p : ℕ} (h : Serving boot r m L D started T) (hexits : r.table.Exits m p)
    (hon : (r.table p).active = true) (hoff : (T p).active = false) (hi : i < maxPipes)
    (hactive : (r.pipes i).active = true) (hwriter : (r.pipes i).writerPid = p)
    (hcap : (r.pipes i).readerReplyCap ≠ 0) : (.reader i, [0]) ∈ L := by
  have hmem : (.reader i, [0]) ∈ r.readersOf p (List.range maxPipes) :=
    mem_readersOf.mpr ⟨i, List.mem_range.mpr hi, ⟨⟨hactive, hwriter⟩, hcap⟩, rfl⟩
  have hcall : m.label = .other ∧ (m.mr 0 = 103 ∨ m.mr 0 = 105) :=
    hexits.elim (fun h => ⟨h.1.1, .inl h.1.2⟩) fun h => ⟨h.1.1.1, .inr h.1.1.2⟩
  have hrecovers (p : ℕ) : ¬ r.table.Recovers m p := by
    rintro (⟨-, hl, -⟩ | ⟨hm, -⟩ | ⟨hm, -⟩)
    · exact hl hcall.1
    · rcases hcall.2 with h' | h' <;> exact absurd (hm.2.symm.trans h') (by decide)
    · rcases hcall.2 with h' | h' <;> exact absurd (hm.2.symm.trans h') (by decide)
  have hstays (hlive : (T p).active = true) : False := by
    rw [hoff] at hlive
    cases hlive
  -- only an exit switches a PCB off here, and only that of the one that exits
  cases h with
  | silent | reader | drivers | window => exact (hstays hon).elim
  | start n =>
    refine (hstays ?_).elim
    by_cases hp : p = n
    · rw [hp, Table.start_self]
    · rwa [Table.start_of_ne hp]
  | kill p' hm =>
    rcases hcall.2 with h' | h' <;> exact absurd (hm.2.symm.trans h') (by decide)
  | recover p' hm => exact absurd hm (hrecovers p')
  | respawn p' n _ _ hm => exact absurd hm (hrecovers p')
  | exit p' =>
    by_cases hp : p = p'
    · exact List.mem_append_left _ (hp ▸ hmem)
    · exact (hstays (Table.stop_active.mpr ⟨hp, by rwa [Table.wakeAll_active]⟩)).elim
  | threadExit p' q =>
    by_cases hp : p = p'
    · exact List.mem_append_left _ (hp ▸ hmem)
    · exact (hstays (Table.stop_active.mpr ⟨hp, by rwa [Table.wakeOne_active]⟩)).elim
  | threadWake p' q => exact (hstays (by rwa [Table.wakeOne_active])).elim

/-- An answered field has been sent its message. -/
theorem Clears.sent {L : List (Field × List ℤ)} {D : List ℕ} {started : Option ℕ} {T : Table}
    (h : Clears boot L D started T r t) {f : Field} {mrs : List ℤ} (hmem : (f, mrs) ∈ L) :
    .sent (r.saved f) mrs ∈ r.dealings boot t := by
  rw [h.deals.eq]
  exact List.mem_append_left _ (List.mem_flatMap.mpr ⟨_, hmem, List.mem_cons_self⟩)

/-- `SYS_PIPE_WR_CLOSE` through pipe `i`. -/
theorem eof_of_close (hstep : Step (recorded sel4) boot r m t) (hi : i < maxPipes)
    (hcap : (r.pipes i).readerReplyCap ≠ 0)
    (hm : m.badge = pipeBaseBadge + i ∧ m.label = .other ∧ m.mr 0 = 24) :
    t.pipes i = (r.pipes i).ended ∧ .sent (r.pipes i).readerReplyCap [0] ∈ r.dealings boot t := by
  have hcall : Flow.Call i m := ⟨hm.1, hm.2.1, .inr (.inr hm.2.2)⟩
  obtain ⟨hpipe, hidx⟩ := Flow.isPipeCall_of_call hi hcall
  have hrun := hstep
  rw [Step, Flow.run_handle hi hcall, syscall, run_bind, run_get, hm.2.2] at hrun
  have hclose : Ends (sysPipeWrClose (recorded sel4) boot m) r fun _ t =>
      t.pipes = (r.setPipe i Pipe.ended).pipes ∧
        .sent (r.pipes i).readerReplyCap [0] ∈ r.dealings boot t := by
    rw [sysPipeWrClose, onlyIf, if_pos hpipe, hidx]
    refine .seq ((clears_closeWriter i r).and (pipes_closeWriter i r)) fun _ u hu => ?_
    refine (((hushed_unmoved sel4 boot).reply [] u).and
      ((quiet_samePipes (recorded sel4)).reply [] u)).mono fun _ w hw => ?_
    refine ⟨hw.2.trans hu.2, (hu.1.unmoved hw.1).sent (f := .reader i) ?_⟩
    rw [if_pos hcap]
    exact List.mem_singleton_self _
  obtain ⟨hpipes, hsent⟩ := hclose _ _ hrun
  refine ⟨?_, hsent⟩
  rw [hpipes, Root.setPipe_self]

/-- The end of a writer that is not unhooked hands the end of the data to the parked reader. -/
theorem handsEof_step (h : WriterInv (r, v)) (hstep : Step (recorded sel4) boot r m t)
    (hno : ¬ Unhooks (recorded sel4) boot (r, v) m) : HandsEof boot (r, v) m t := by
  intro i hi hactive hcap hends
  rcases hends with ⟨hon, hoff⟩ | hclose
  · have hopen := h.open hi hactive (h.sound i hcap)
    have hdead : (t.table (v.writer i)).active = false := by
      refine Bool.eq_false_iff.mpr fun hlive => hoff ⟨hlive, hon.2⟩
    rcases survives_of_not_unhooks hopen hstep hno with hlive | ⟨hexits, hwriter⟩
    · exact absurd ⟨hlive, hon.2⟩ hoff
    have hended := ended_of_exits hstep hon hexits hi hactive hwriter
    have hcall : m.mr 0 = 103 ∨ m.mr 0 = 105 :=
      hexits.elim (fun h => .inl h.1.2) fun h => .inr h.1.1.2
    have hparks : r.parks m = none := by
      refine Option.eq_none_iff_forall_ne_some.mpr fun f hf => ?_
      obtain ⟨-, -, -, ⟨hm, -⟩ | ⟨hm, -⟩ | ⟨hm, -⟩⟩ := uses_cases (parks_eq_some.mp hf).1 <;> omega
    have hopens : r.opens m = none := by
      rw [Root.opens, if_neg]
      rintro ⟨-, -, hm⟩
      omega
    obtain ⟨L, D, started, hserving, hclears⟩ := step_serving hstep hparks hopens
    refine ⟨?_, hclears.sent (hserving.reads hexits hon.1 hdead hi hactive hwriter hcap)⟩
    rw [hended]
    exact ⟨rfl, rfl⟩
  · obtain ⟨hended, hsent⟩ := eof_of_close hstep hi hcap hclose
    refine ⟨?_, hsent⟩
    rw [hended]
    exact ⟨rfl, rfl⟩

end

/-! ## Runs -/

/-- In every run from boot in which no step separates a pipe from its writer, a parked reader of a
pipe in use waits for a writer that is alive; and a step that ends this writer, or in which the pipe
is closed, sends the reader the end of the data. -/
theorem fed_of_run {dev : Devices} {r : Root (K × List Invocation)} {v : WriterLog}
    {es : List Message} {y : Root (K × List Invocation) × WriterLog}
    (hboot : Booted (recorded sel4) boot dev r)
    (hrun : Run (guarded (LoggedStep (recorded sel4) boot) fun x m =>
      ¬ Unhooks (recorded sel4) boot x m) (r, v) es y) :
    Fed y ∧ ∀ m r', Step (recorded sel4) boot y.1 m r' → ¬ Unhooks (recorded sel4) boot y m →
      HandsEof boot y m r' := by
  have hinv : WriterInv y := by
    refine Run.invariant (fun x m z hx hstep => writerInv_step hx hstep.2 hstep.1) hrun ?_
    refine ⟨fun i => ?_, fun i _ hactive => ?_⟩
    · rw [pipes_of_booted hboot]
      exact fun hreader => absurd rfl hreader
    · rw [pipes_of_booted hboot] at hactive
      cases hactive
  exact ⟨fed_of_inv hinv, fun m r' hstep hno => handsEof_step hinv hstep hno⟩

/-! The shell sets up a pipe and starts a thread that writes into it; another thread reads. -/

variable (sel4 boot) in
/-- A step with its history, if the rootserver comes back from the message. -/
def logged (x : Root K × WriterLog) (m : Message) : Option (Root K × WriterLog) :=
  (next sel4 boot x.1 m).map fun t => (t, x.2.after x.1 m t)

theorem loggedStep_of {x y : Root K × WriterLog} {m : Message} (h : logged sel4 boot x m = some y) :
    LoggedStep sel4 boot x m y := by
  obtain ⟨t, hnext, rfl⟩ := Option.map_eq_some_iff.mp h
  exact ⟨step_of_next _ _ hnext, rfl⟩

/-- The message is a system call that ends nobody, and no `SYS_PIPE` through a pipe. -/
def Message.Keeps (m : Message) : Prop :=
  m.label = .other ∧ (m.mr 0 ≠ 102 ∧ m.mr 0 ≠ 103 ∧ m.mr 0 ≠ 105 ∧ m.mr 0 ≠ 117) ∧
    (m.mr 0 = 20 → m.badge ≠ 0 ∧ ¬ isPipeCall m.badge)

instance (m : Message) : Decidable m.Keeps := inferInstanceAs (Decidable (_ ∧ _))

theorem not_unhooks_of_keeps {x : Root K × WriterLog} {m : Message} (h : m.Keeps) :
    ¬ Unhooks sel4 boot x m := by
  obtain ⟨hl, ⟨h102, h103, h105, h117⟩, hpipe⟩ := h
  rintro (⟨i, -, -, hm⟩ | ⟨i, -, hm, -⟩ | ⟨i, hm, hsender, -⟩)
  · rcases hm with ⟨-, hfault, -⟩ | ⟨hm, -⟩ | ⟨hm, -⟩
    · exact hfault hl
    · exact h102 hm.2
    · exact h117 hm.2
  · rcases hm with ⟨hm, -⟩ | ⟨⟨hm, -⟩, -⟩
    · exact h103 hm.2
    · exact h105 hm.2
  · rw [Table.senderPid, if_pos (hpipe hm.2)] at hsender
    split at hsender
    · rename_i hlive
      rw [Option.some.inj hsender] at hlive
      exact absurd hlive.1 (by decide)
    · cases hsender

/-- `SYS_PIPE` of the shell with slot 20. -/
def pipeCall : Message := { badge := 5, mr := fun _ => 20 }

/-- `SYS_CLONE` of the shell for a thread with slot 20 as its output and a number for the pipe. -/
def cloneWriter (pipe : ℕ) : Message :=
  { badge := 5, mr := fun n => if n = 0 then 101 else if n = 8 then pipe else 20 }

/-- `SYS_READ` through pipe 0. -/
def pipeRead : Message := { badge := 1000, mr := fun _ => 6 }

/-- `SYS_PIPE_WR_CLOSE` through pipe 0. -/
def writerClose : Message := { badge := 1000, mr := fun _ => 24 }

/-- `SYS_THREAD_EXIT` of the thread with PID 6. -/
def writerExit : Message := { badge := 5 * 2 ^ 16 + 6, mr := fun _ => 105 }

/-- A capability fault of the thread with PID 6. -/
def writerFault : Message := { badge := 5 * 2 ^ 16 + 6, label := .capFault, mr := fun _ => 0 }

/-- Nothing has been written yet. -/
def noWriters : WriterLog := ⟨fun _ => 0, fun _ => ⟨0, 0, 0⟩, fun _ => 0, fun _ => 0⟩

/-- The messages up to the read, for a writer that is started for the number `pipe`. -/
def readCalls (pipe : ℕ) : List Message := [pipeCall, cloneWriter pipe, pipeRead]

/-- A writer has been started for the index of its pipe, and a reader is parked. -/
def reading : Root (Unit × List Invocation) × WriterLog :=
  (runSteps (fun x m => if m.Keeps then logged (recorded granting) someBoot x m else none)
    (loggedRoot, noWriters) (readCalls 0)).get (by decide +kernel)

/-- The same for the number that `ls` in a pipeline passes. -/
def misreading : Root (Unit × List Invocation) × WriterLog :=
  (runSteps (fun x m => if m.Keeps then logged (recorded granting) someBoot x m else none)
    (loggedRoot, noWriters) (readCalls 20)).get (by decide +kernel)

theorem run_of_keeps {es : List Message} {y : Root (Unit × List Invocation) × WriterLog}
    (h : runSteps (fun x m => if m.Keeps then logged (recorded granting) someBoot x m else none)
      (loggedRoot, noWriters) es = some y) :
    Run (guarded (LoggedStep (recorded granting) someBoot) fun x m =>
      ¬ Unhooks (recorded granting) someBoot x m) (loggedRoot, noWriters) es y := by
  refine (Run.of_runSteps h).mono fun x m z hxz => ?_
  split at hxz
  · exact ⟨not_unhooks_of_keeps ‹_›, loggedStep_of hxz⟩
  · cases hxz

theorem run_reading : Run (guarded (LoggedStep (recorded granting) someBoot) fun x m =>
    ¬ Unhooks (recorded granting) someBoot x m) (loggedRoot, noWriters) (readCalls 0) reading :=
  run_of_keeps (Option.some_get _).symm

theorem run_misreading : Run (guarded (LoggedStep (recorded granting) someBoot) fun x m =>
    ¬ Unhooks (recorded granting) someBoot x m) (loggedRoot, noWriters) (readCalls 20) misreading :=
  run_of_keeps (Option.some_get _).symm

/-- The writer that is registered exits. -/
def exited : Root (Unit × List Invocation) :=
  (next (recorded granting) someBoot reading.1 writerExit).get (by decide +kernel)

/-- The writer that is not registered closes the pipe. -/
def closedByWriter : Root (Unit × List Invocation) :=
  (next (recorded granting) someBoot misreading.1 writerClose).get (by decide +kernel)

/-- The exit unhooks nobody: the only pipe in use has the thread as its registered writer. -/
theorem not_unhooks_exit : ¬ Unhooks (recorded granting) someBoot reading writerExit := by
  have hpipes : ∀ i < maxPipes, (reading.1.pipes i).active = true →
      (reading.1.pipes i).writerPid = reading.2.writer i := by decide +kernel
  rintro (⟨i, -, -, hm⟩ | ⟨i, hopen, -, hwriter⟩ | ⟨i, hm, -⟩)
  · rcases hm with ⟨-, hfault, -⟩ | ⟨hm, -⟩ | ⟨hm, -⟩
    · exact hfault rfl
    · exact absurd hm.2 (by decide)
    · exact absurd hm.2 (by decide)
  · exact hwriter (hpipes i hopen.lt hopen.active)
  · exact absurd hm.2 (by decide)

/-- A reader is parked on a pipe whose writer is alive; it is sent the end of the data by the exit of
a registered writer and by the close of one that is not registered. -/
theorem fed_of_run_reading :
    ((reading.1.pipes 0).readerReplyCap ≠ 0 ∧ Fed reading ∧
      .sent (reading.1.pipes 0).readerReplyCap [0] ∈ reading.1.dealings someBoot exited) ∧
    (misreading.1.pipes 0).readerReplyCap ≠ 0 ∧ Fed misreading ∧
      .sent (misreading.1.pipes 0).readerReplyCap [0] ∈
        misreading.1.dealings someBoot closedByWriter := by
  have hreading : (reading.1.pipes 0).active = true ∧ (reading.1.pipes 0).readerReplyCap ≠ 0 ∧
      reading.1.table.Alive (reading.2.writer 0) ∧ ¬ exited.table.Alive (reading.2.writer 0) := by
    decide +kernel
  have hmisreading : (misreading.1.pipes 0).active = true ∧
      (misreading.1.pipes 0).readerReplyCap ≠ 0 := by decide +kernel
  obtain ⟨hfed, heof⟩ := fed_of_run booted_loggedRoot run_reading
  obtain ⟨hfed', heof'⟩ := fed_of_run booted_loggedRoot run_misreading
  refine ⟨⟨hreading.2.1, hfed, ?_⟩, hmisreading.2, hfed', ?_⟩
  · exact (heof _ _ (step_get _ _ _) not_unhooks_exit 0 (by decide) hreading.1 hreading.2.1
      (.inl hreading.2.2)).2
  · exact (heof' _ _ (step_get _ _ _) (not_unhooks_of_keeps (by decide)) 0 (by decide)
      hmisreading.1 hmisreading.2 (.inr (by decide))).2

/-- The writer has crashed. -/
def writerless : Root (Unit × List Invocation) × WriterLog :=
  (logged (recorded granting) someBoot misreading writerFault).get (by decide +kernel)

/-- The reader of `ls |` stays parked after the crash of the thread that lists the directory. -/
theorem not_fed_writerless : Booted (recorded granting) someBoot someDevices loggedRoot ∧
    Run (LoggedStep (recorded granting) someBoot) (loggedRoot, noWriters)
      (readCalls 20 ++ [writerFault]) writerless ∧ ¬ Fed writerless := by
  have hparked : (writerless.1.pipes 0).active = true ∧ (writerless.1.pipes 0).readerReplyCap ≠ 0 ∧
      ¬ writerless.1.table.Alive (writerless.2.writer 0) := by decide +kernel
  refine ⟨booted_loggedRoot, ?_, fun h => hparked.2.2 (h 0 (by decide) hparked.1 hparked.2.1).2.1⟩
  exact run_misreading.of_guarded.snoc (loggedStep_of (Option.some_get _).symm)

end PsychWard.Rootserver
