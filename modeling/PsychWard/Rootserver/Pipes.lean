import PsychWard.Rootserver.Blind

/-!
# The lives of pipes

What the messages do to the pipes as objects: who writes into them, whether they are in use and at
their end. `Pipe.Continues` is what a pipe goes through under every message but two: `SYS_PIPE`,
which sets up a new one, and `SYS_CLONE`, which registers a new writer.
-/

namespace PsychWard.Rootserver

open Program

variable {K : Type} {sel4 : SeL4 K} {boot : Boot}

/-- A reader is parked only before the end of the data. -/
def Pipe.Sound (x : Pipe) : Prop := x.readerReplyCap ≠ 0 → x.eof = false

/-- From `x` to `y` the pipe keeps its writer, is not opened again and stays at its end. -/
structure Pipe.Continues (x y : Pipe) : Prop where
  writer : y.writerPid = x.writerPid
  active : y.active = true → x.active = true
  eof : y.eof = false → x.eof = false
  sound : x.Sound → y.Sound

/-- A pipe that nothing happened to goes on. -/
theorem Pipe.Continues.refl (x : Pipe) : x.Continues x := ⟨rfl, id, id, id⟩

/-- Two steps of a pipe that goes on. -/
theorem Pipe.Continues.trans {x y z : Pipe} (h : x.Continues y) (h' : y.Continues z) :
    x.Continues z :=
  ⟨h'.writer.trans h.writer, fun hz => h.active (h'.active hz), fun hz => h.eof (h'.eof hz),
    fun hx => h'.sound (h.sound hx)⟩

/-- Every pipe continues. -/
def PipesContinue (r t : Root K) : Prop := ∀ i, (r.pipes i).Continues (t.pipes i)

/-- The two states have the same pipes. -/
def SamePipes (r t : Root K) : Prop := t.pipes = r.pipes

/-- The pipes are left alone by all that spawning does. -/
theorem quiet_samePipes (sel4 : SeL4 K) : Quiet sel4 SamePipes where
  refl _ := rfl
  trans _ _ _ h h' := h'.trans h
  mute _ _ _ _ := rfl
  callBlk _ _ _ _ _ _ := rfl
  alloc _ _ := rfl
  elfWindow _ _ := rfl
  ipcWindow _ _ := rfl
  cloneWindow _ _ := rfl
  humble _ _ _ _ := rfl
  invoke _ _ _ := rfl
  pcb _ _ _ _ := rfl

/-- And by all that tearing down does, the answers to waiters included. -/
theorem blind_samePipes (sel4 : SeL4 K) : Blind sel4 SamePipes where
  toQuiet := quiet_samePipes sel4
  process _ _ _ := rfl
  drivers _ _ _ := rfl
  sleeper _ _ := rfl

/-- After boot no pipe is in use. -/
theorem pipes_of_booted {sel4 : SeL4 K} {boot : Boot} {dev : Devices} {r : Root K}
    (h : Booted sel4 boot dev r) (i : ℕ) :
    r.pipes i = {} := by
  obtain ⟨k, alloc, -, -, hrun⟩ := h
  rw [show r.pipes = _ from (blind_samePipes sel4).bootProcesses dev _ _ _ hrun]
  rfl

/-- Pipes left alone go on. -/
theorem continue_of_same {r t : Root K} (h : SamePipes r t) : PipesContinue r t := fun i => by
  rw [show t.pipes = r.pipes from h]
  exact .refl _

/-- Going on is a frame: it composes. -/
theorem frame_continue : Frame (PipesContinue (K := K)) where
  refl _ _ := .refl _
  trans _ _ _ h h' i := (h i).trans (h' i)

/-- What leaves the pipes alone lets them go on. -/
theorem quiet_continue (sel4 : SeL4 K) : Quiet sel4 PipesContinue where
  toFrame := frame_continue
  mute _ _ _ _ := continue_of_same rfl
  callBlk _ _ _ _ _ _ := continue_of_same rfl
  alloc _ _ := continue_of_same rfl
  elfWindow _ _ := continue_of_same rfl
  ipcWindow _ _ := continue_of_same rfl
  cloneWindow _ _ := continue_of_same rfl
  humble _ _ _ _ := continue_of_same rfl
  invoke _ _ _ := continue_of_same rfl
  pcb _ _ _ _ := continue_of_same rfl

/-! ## Processes do not touch pipes -/

/-- The kernel keeps no pipes. -/
theorem samePipes_sys (inv : Invocation) : Keeps SamePipes (sys sel4 inv) := by
  intro r _ t hrun
  cases hrun
  rfl

/-! ## The end of a writer -/

/-- A pipe after its end mark has been set and its parked reader answered. -/
def Pipe.ended (x : Pipe) : Pipe := { x with eof := true, readerReplyCap := 0 }

/-- What the end of the writer `p` makes of a pipe. -/
def Pipe.endedBy (p : ℕ) (x : Pipe) : Pipe :=
  if x.active ∧ x.writerPid = p then x.ended else x

/-- A pipe goes on when its writer closes. -/
theorem Pipe.continues_ended (x : Pipe) : x.Continues x.ended :=
  ⟨rfl, id, fun h => absurd h (by simp [Pipe.ended]), fun _ h => absurd rfl h⟩

/-- A pipe goes on when the process `p` ends, its writer or not. -/
theorem Pipe.continues_endedBy (p : ℕ) (x : Pipe) : x.Continues (x.endedBy p) := by
  unfold Pipe.endedBy
  split
  · exact x.continues_ended
  · exact .refl x

/-- The second end of a process finds no writer. -/
theorem Pipe.endedBy_endedBy (p : ℕ) (x : Pipe) : (x.endedBy p).endedBy p = x.endedBy p := by
  by_cases h : x.active = true ∧ x.writerPid = p
  · have hx : x.endedBy p = x.ended := if_pos h
    rw [hx]
    exact if_pos h
  · have hx : x.endedBy p = x := if_neg h
    rw [hx, hx]

/-- Answering a reader clears its capability and nothing else. -/
theorem pipes_answerReader (i : ℕ) (value : ℤ) (r : Root K) :
    Ends (answerReader sel4 boot i value) r fun _ t =>
      t.pipes = (r.setPipe i fun x => { x with readerReplyCap := 0 }).pipes := by
  refine .bind (.get (.seq ((quiet_samePipes sel4).answer _ _ r) fun _ t ht => ?_))
  refine .seq ((quiet_samePipes sel4).freeSlot _ t) fun _ u hu => ?_
  refine (ends_setPipe i _ u).mono fun _ v hv => ?_
  rw [hv]
  simp only [Root.setPipe, show u.pipes = r.pipes from Eq.trans hu ht]

/-- Closing the writer clears the capability of the reader, who was answered, as well. -/
theorem pipes_closeWriter (i : ℕ) (r : Root K) : Ends (closeWriter sel4 boot i) r fun _ t =>
    t.pipes = (r.setPipe i Pipe.ended).pipes := by
  refine .seq (ends_setPipe i _ r) fun _ t ht => .bind (.get (.onlyIf (fun h => ?_) fun h => ?_))
  · refine (pipes_answerReader i 0 t).mono fun _ u hu => ?_
    rw [hu, ht]
    simp only [Root.setPipe, Function.update_self, Function.update_idem]
    rfl
  · have hzero : (r.pipes i).readerReplyCap = 0 := by
      rw [ht, Root.setPipe_self] at h
      exact not_not.mp h
    rw [ht]
    simp only [Root.setPipe, Pipe.ended, ← hzero]

/-- The pipes a process writes into are ended, all others stay as they are. -/
theorem pipes_closePipesOf (p : ℕ) (r : Root K) : Ends (closePipesOf sel4 boot p) r fun _ t =>
    t.pipes = fun i => if i ∈ List.range maxPipes then (r.pipes i).endedBy p else r.pipes i := by
  unfold closePipesOf
  generalize List.range maxPipes = l
  induction l generalizing r with
  | nil => exact .pure (by simp)
  | cons i l ih =>
    rw [List.forM_cons]
    refine .seq (Q := fun _ (t : Root K) => t.pipes = (r.setPipe i (Pipe.endedBy p)).pipes) ?_ ?_
    · refine .bind (.get (.onlyIf (fun h => ?_) fun h => ?_))
      · refine (pipes_closeWriter i r).mono fun _ t ht => ?_
        rw [ht]
        simp only [Root.setPipe, Pipe.endedBy, if_pos h]
      · simp only [Root.setPipe, Pipe.endedBy, if_neg h, Function.update_eq_self]
    · intro _ t ht
      refine (ih t).mono fun _ u hu => ?_
      rw [hu, ht]
      funext j
      by_cases hj : j = i
      · subst hj
        simp [Pipe.endedBy_endedBy]
      · simp [Root.setPipe_of_ne r _ hj, hj]

/-! ## Every other message lets the pipes continue -/

/-- A handler that leaves the pipes alone lets them go on. -/
theorem continue_keeps {p : RootM K PUnit} (h : Keeps SamePipes p) : Keeps PipesContinue p :=
  h.mono fun _ _ => continue_of_same

/-- A change that lets every pipe go on. -/
theorem continue_setPipe (i : ℕ) {f : Pipe → Pipe} (hf : ∀ x : Pipe, x.Continues (f x)) :
    Keeps PipesContinue (setPipe i f : RootM K PUnit) := by
  refine .modify fun r j => ?_
  by_cases hj : j = i
  · subst hj
    rw [Root.setPipe_self]
    exact hf _
  · rw [Root.setPipe_of_ne r f hj]
    exact .refl _

/-- A pipe goes on when its reader is answered. -/
theorem continue_answerReader (i : ℕ) (value : ℤ) :
    Keeps PipesContinue (answerReader sel4 boot i value) := by
  intro r
  refine (pipes_answerReader i value r).mono fun _ t ht => ?_
  intro j
  rw [ht]
  exact continue_setPipe i (f := fun x => { x with readerReplyCap := 0 })
    (fun x => ⟨rfl, id, id, fun _ h => absurd rfl h⟩) r _ _ rfl j

/-- A pipe goes on when its writer is closed. -/
theorem continue_closeWriter (i : ℕ) : Keeps PipesContinue (closeWriter sel4 boot i) := by
  intro r
  refine (pipes_closeWriter i r).mono fun _ t ht j => ?_
  rw [ht]
  exact continue_setPipe i Pipe.continues_ended r _ _ rfl j

/-- The pipes of a process that ends go on. -/
theorem continue_closePipesOf (p : ℕ) : Keeps PipesContinue (closePipesOf sel4 boot p) := by
  intro r
  refine (pipes_closePipesOf p r).mono fun _ t ht j => ?_
  rw [ht]
  dsimp only
  split
  · exact Pipe.continues_endedBy p _
  · exact .refl _

/-- Bytes put into a pipe leave its ends alone. -/
theorem continues_put (x : Pipe) (bs : List ℕ) : x.Continues (bs.foldl Pipe.put x) := by
  induction bs generalizing x with
  | nil => exact .refl x
  | cons b bs ih =>
    refine Pipe.Continues.trans ?_ (ih (x.put b))
    unfold Pipe.put
    split
    · exact ⟨rfl, id, id, id⟩
    · exact .refl x

/-- `SYS_PUTS` to a pipe stores bytes, or answers the reader. -/
theorem continue_sysPuts (m : Message) : Keeps PipesContinue (sysPuts sel4 boot m) := by
  have hR := frame_continue (K := K)
  have hq := quiet_continue sel4
  refine .bind hR (.onlyIf hR ?_) fun _ => hq.reply _
  refine .bind hR (continue_setPipe _ fun x => continues_put x _) fun _ => ?_
  refine .bind hR (.get hR) fun r => ?_
  cases (r.pipes (m.badge - pipeBaseBadge)).buffer with
  | nil => exact .pure hR _
  | cons byte rest =>
    refine .onlyIf hR (.bind hR (continue_setPipe _ fun x => ⟨rfl, id, id, id⟩) fun _ => ?_)
    exact continue_answerReader _ _

/-- A read takes bytes out, or parks. -/
theorem continue_readPipe (i : ℕ) : Keeps PipesContinue (readPipe sel4 boot i) := by
  have hR := frame_continue (K := K)
  have hq := quiet_continue sel4
  intro r
  refine .bind (.get ?_)
  cases (r.pipes i).buffer with
  | cons byte rest =>
    refine Keeps.bind hR (continue_setPipe i ?_) (fun _ => hq.reply _) r
    exact fun x => ⟨rfl, id, id, id⟩
  | nil =>
    refine .ite (fun _ => hq.reply _ r) fun heof => ?_
    refine .seq ((quiet_samePipes sel4).allocSlot r) fun cap t ht => ?_
    refine .seq (ends_setPipe i _ t) fun _ u hu => ?_
    refine .seq (samePipes_sys _ u) fun _ v hv => .pure fun j => ?_
    rw [show v.pipes = u.pipes from hv, hu, ← show t.pipes = r.pipes from ht]
    by_cases hj : j = i
    · subst hj
      rw [Root.setPipe_self]
      refine ⟨rfl, id, id, fun _ _ => ?_⟩
      rw [show t.pipes = r.pipes from ht]
      simpa using heof
    · rw [Root.setPipe_of_ne t _ hj]
      exact .refl _

/-- `SYS_READ` reads a pipe or nothing. -/
theorem continue_sysRead (m : Message) : Keeps PipesContinue (sysRead sel4 boot m) :=
  .ite (continue_readPipe _) ((quiet_continue sel4).reply _)

/-- `SYS_PIPE_WR_CLOSE` closes the writer. -/
theorem continue_sysPipeWrClose (m : Message) :
    Keeps PipesContinue (sysPipeWrClose sel4 boot m) := by
  have hR := frame_continue (K := K)
  exact .bind hR (.onlyIf hR (continue_closeWriter _)) fun _ => (quiet_continue sel4).reply _

/-- `SYS_PIPE_CLOSE` makes a pipe inactive. -/
theorem continue_sysPipeClose (m : Message) : Keeps PipesContinue (sysPipeClose sel4 m) := by
  have hR := frame_continue (K := K)
  have hq := quiet_continue sel4
  refine .bind hR (.onlyIf hR (.bind hR (continue_setPipe _ fun x => ?_) fun _ => ?_))
    fun _ => hq.reply _
  · exact ⟨rfl, fun h => absurd h (by simp), id, id⟩
  · refine .bind hR (.get hR) fun r => .onlyIf hR ?_
    exact .bind hR (hq.sys _ trivial) fun _ => .pure hR _

/-- The exit of a process ends the pipes it writes into. -/
theorem pipes_sysExit {sender : ℕ} (hpos : 0 < sender) (r : Root K) :
    Ends (sysExit sel4 boot sender) r fun _ t => t.pipes =
      fun i => if i ∈ List.range maxPipes then (r.pipes i).endedBy sender else r.pipes i := by
  rw [sysExit, onlyIf, if_pos hpos]
  refine .seq (pipes_closePipesOf sender r) fun _ t ht => ?_
  exact ((blind_samePipes sel4).endOfExit sender t).mono fun _ u hu => hu.trans ht

/-- The exit of a thread ends the pipes it writes into. -/
theorem pipes_sysThreadExit {m : Message} {r : Root K}
    (h : r.table.Alive (m.badge % 2 ^ 16)) : Ends (sysThreadExit sel4 boot m) r fun _ t =>
      t.pipes = fun i => if i ∈ List.range maxPipes then (r.pipes i).endedBy (m.badge % 2 ^ 16)
        else r.pipes i := by
  refine .bind (.get (.onlyIf (fun _ => ?_) fun hno => absurd ⟨h.2.1, h.2.2, h.1⟩ hno))
  refine .seq (pipes_closePipesOf _ r) fun _ t ht => ?_
  exact ((blind_samePipes sel4).endOfThreadExit _ _ t).mono fun _ u hu => hu.trans ht

/-- `SYS_EXIT` closes the pipes that its sender writes. -/
theorem continue_sysExit (sender : ℕ) : Keeps PipesContinue (sysExit sel4 boot sender) := by
  have hR := frame_continue (K := K)
  refine .onlyIf hR (.bind hR (continue_closePipesOf _) fun _ => ?_)
  exact continue_keeps ((blind_samePipes sel4).endOfExit sender)

/-- `SYS_THREAD_EXIT` those that the thread writes. -/
theorem continue_sysThreadExit (m : Message) : Keeps PipesContinue (sysThreadExit sel4 boot m) := by
  have hR := frame_continue (K := K)
  refine .bind hR (.get hR) fun r => .onlyIf hR (.bind hR (continue_closePipesOf _) fun _ => ?_)
  exact continue_keeps ((blind_samePipes sel4).endOfThreadExit _ _)

/-- Every message but `SYS_PIPE` and `SYS_CLONE` lets the pipes continue. -/
theorem step_continue {r r' : Root K} {m : Message} (h : Step sel4 boot r m r')
    (hm : ¬ (m.label = .other ∧ (m.mr 0 = 20 ∨ m.mr 0 = 101))) : PipesContinue r r' := by
  suffices hends : Ends (handle sel4 boot m) r fun _ t => PipesContinue r t from hends _ _ h
  have hq := quiet_continue sel4
  refine .bind (.get ?_)
  cases r.senderPid m.badge with
  | none => exact .pure fun _ => .refl _
  | some sender =>
    cases hl : m.label with
    | vmFault =>
      refine .ite (fun _ => hq.pageFault _ _ r) fun _ => .ite (fun _ => .throw) fun _ => ?_
      exact continue_keeps ((blind_samePipes sel4).fatalFault sender) r
    | capFault => exact continue_keeps ((blind_samePipes sel4).fatalFault sender) r
    | other =>
      refine .bind (.get ?_)
      split
      · exact hq.reply _ r
      · exact hq.reply _ r
      · exact continue_keeps (blind_samePipes sel4).sysSleep r
      · exact hq.reply _ r
      · exact continue_sysRead m r
      · exact hq.reply _ r
      · exact continue_sysPuts m r
      · exact absurd ⟨hl, .inl ‹_›⟩ hm
      · exact continue_sysPipeWrClose m r
      · exact continue_sysPipeClose m r
      · exact hq.reply _ r
      · exact continue_keeps ((blind_samePipes sel4).sysExec m) r
      · exact absurd ⟨hl, .inr ‹_›⟩ hm
      · exact continue_keeps ((blind_samePipes sel4).sysKill m) r
      · exact continue_sysExit sender r
      · exact hq.reply _ r
      · exact continue_sysThreadExit m r
      · exact continue_keeps ((blind_samePipes sel4).sysWait sender m) r
      · exact hq.sysShmGet m r
      · exact hq.reply _ r
      · exact continue_keeps ((blind_samePipes sel4).sysDriverReady sender) r
      · exact continue_keeps (blind_samePipes sel4).sysWaitAllDriversReady r
      · exact continue_keeps ((blind_samePipes sel4).sysRecover m) r
      · exact hq.reply _ r

/-! ## The two other messages -/

/-- A pipe `SYS_PIPE` has just set up. -/
def Pipe.made (creator : ℕ) (granted : Bool) : Pipe :=
  { active := granted, writerPid := creator, ownerPid := creator }

/-- The kernel accepts the capability that `SYS_PIPE` mints for pipe `i`. -/
def Root.Grants (sel4 : SeL4 K) (boot : Boot) (r : Root K) (sender : ℕ) (m : Message) (i : ℕ) :
    Prop :=
  (sel4.invoke
    (sel4.invoke r.kernel (.cnodeDelete (childSlot (r.pcbs sender).cspace (m.mr 1)))).2
    (.cnodeMint (childSlot (r.pcbs sender).cspace (m.mr 1)) (boot.rootSlot boot.ep)
      (pipeBaseBadge + i))).1 = .noError

instance (r : Root K) (sender : ℕ) (m : Message) (i : ℕ) :
    Decidable (r.Grants sel4 boot sender m i) := inferInstanceAs (Decidable (_ = _))

/-- A free pipe is in the table and not in use. -/
theorem freePipe_eq_some {r : Root K} {i : ℕ} (h : r.freePipe = some i) :
    (r.pipes i).active = false ∧ i < maxPipes := by
  have hi := List.find?_some h
  exact ⟨by simpa using hi, List.mem_range.mp (List.mem_of_find?_eq_some h)⟩

/-- `SYS_PIPE` sets up the first inactive pipe, for as long as its capability is granted. -/
theorem pipes_sysPipe (sender : ℕ) (m : Message) (r : Root K) :
    Ends (sysPipe sel4 boot sender m) r fun _ t => r.freePipe = none ∧ t.pipes = r.pipes ∨
      ∃ i, r.freePipe = some i ∧
        t.pipes = Function.update r.pipes i
          (Pipe.made sender (decide (r.Grants sel4 boot sender m i))) := by
  have hq := quiet_samePipes sel4
  refine .bind (.get ?_)
  cases hfree : r.freePipe with
  | none => exact (hq.reply _ r).mono fun _ t ht => .inl ⟨rfl, ht⟩
  | some i =>
    refine .bind fun _ t ht => .bind fun _ u hu => .bind fun err v hv => ?_
    cases ht
    cases hu
    cases hv
    refine .ite (fun hok => ?_) fun hno => ?_
    · refine (hq.reply _ _).mono fun _ w hw => .inr ⟨i, rfl, ?_⟩
      rw [show w.pipes = _ from hw, decide_eq_true (show r.Grants sel4 boot sender m i from hok)]
      rfl
    · refine .seq (ends_setPipe i _ _) fun _ w hw => ?_
      refine (hq.reply _ w).mono fun _ x hx => .inr ⟨i, rfl, ?_⟩
      rw [show x.pipes = w.pipes from hx, hw,
        decide_eq_false (show ¬ r.Grants sel4 boot sender m i from hno)]
      simp only [Root.setPipe, Function.update_self, Function.update_idem]
      rfl

/-- `SYS_CLONE` starts a thread and registers it as the writer of the pipe it names. -/
theorem pipes_sysClone (sender : ℕ) (m : Message) (r : Root K) :
    Ends (sysClone sel4 boot sender m) r fun _ t =>
      r.table.freePid = none ∧ t.pipes = r.pipes ∧ t.table = r.table ∨
      ∃ p, r.table.freePid = some p ∧ t.table = r.table.start p shellThreadName 0 ∧
        ∀ i : ℕ, t.pipes i = if toInt32 (m.mr 8) = i ∧ i < maxPipes then
          { r.pipes i with writerPid := p } else r.pipes i := by
  have hq := quiet_samePipes sel4
  have hqt := quiet_sameTable sel4
  refine .bind (.get ?_)
  cases hfree : r.freePid with
  | none =>
    refine ((hq.reply _ r).and (hqt.reply _ r)).mono fun _ t ht => .inl ⟨hfree, ht.1, ht.2⟩
  | some p =>
    have hp := (Root.freePid_eq_some hfree).2.2
    refine .seq (ends_setPcb p _ r) fun _ t ht => ?_
    refine .seq ((hq.cloneBody sender hp m t).and (hqt.cloneBody sender hp m t)) fun _ u hu => ?_
    dsimp only
    generalize toInt32 (m.mr 8) = pipe
    refine .seq (Q := fun _ v => v.table = u.table ∧ ∀ i : ℕ, v.pipes i =
      if pipe = i ∧ i < maxPipes then { r.pipes i with writerPid := p } else r.pipes i) ?_ ?_
    · have hpipes : u.pipes = r.pipes := hu.1.trans (by rw [ht]; rfl)
      refine .onlyIf (fun h => ?_) fun h => ⟨rfl, fun i => ?_⟩
      · refine (ends_setPipe _ _ u).mono fun _ v hv => ⟨by rw [hv]; rfl, fun i => ?_⟩
        rw [hv]
        by_cases hi : pipe = i ∧ i < maxPipes
        · obtain rfl : i = pipe.toNat := by omega
          rw [if_pos hi, Root.setPipe_self, hpipes]
        · rw [if_neg hi, Root.setPipe_of_ne u _ (by omega), hpipes]
      · rw [if_neg (by omega), hpipes]
    · intro _ v hv
      refine .bind (.get ?_)
      refine .seq ((samePipes_sys _ v).and (sameTable_sys _ v)) fun _ w hw => ?_
      refine ((hq.reply _ w).and (hqt.reply _ w)).mono fun _ x hx => .inr ⟨p, hfree, ?_, fun i => ?_⟩
      · have htable : x.table = t.table := hx.2.trans (hw.2.trans (hv.1.trans hu.2))
        rw [htable, ht, table_setPcb]
        rfl
      · rw [show x.pipes = v.pipes from hx.1.trans hw.1]
        exact hv.2 i

end PsychWard.Rootserver
