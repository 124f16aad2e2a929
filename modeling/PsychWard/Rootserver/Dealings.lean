import PsychWard.Rootserver.Custody
import PsychWard.Rootserver.Pipes
import PsychWard.Rootserver.PipeFlow

/-!
# Answering those who wait

A caller that has to wait is parked: its reply capability is saved in a slot, and the number of the
slot in a field, `reader_reply_cap` of a pipe, `reply_cap` of a process or `driver_ready_wait_reply`.
Another message answers it later, through that slot.

What a piece of the program does for the parked callers is read off the kernel calls it makes.
`Clears` says that these are one message for each of the fields in a list, whose slot is then
emptied, and after that the emptying of other slots; that the fields in the list are 0 afterwards and
no other field has changed; and what has become of the process table.
-/

namespace PsychWard.Rootserver

open Program

/-- A field for a saved reply capability: `reader_reply_cap` of a pipe, `reply_cap` of a process, or
`driver_ready_wait_reply`. -/
inductive Field
  | reader (pipe : ℕ)
  | waiter (pid : ℕ)
  | drivers
  deriving DecidableEq

section
variable {K : Type}

/-- The slot in a field; 0 when nobody waits there. -/
def Root.saved (r : Root K) : Field → ℕ
  | .reader i => (r.pipes i).readerReplyCap
  | .waiter p => (r.pcbs p).replyCap
  | .drivers => r.driverReadyWaitReply

/-- The field that a blocking system call is about. -/
def Root.uses (r : Root K) (m : Message) : Option Field :=
  match r.senderPid m.badge with
  | none => none
  | some sender =>
    if m.label ≠ .other then none
    else if m.mr 0 = 6 ∧ isPipeCall m.badge then some (.reader (m.badge - pipeBaseBadge))
    else if m.mr 0 = 106 then some (.waiter sender)
    else if m.mr 0 = 110 then some .drivers
    else none

/-- The call is not answered at once: the pipe is empty and open, the process is alive, or a driver
is missing. -/
def Root.Delays (r : Root K) (m : Message) : Field → Prop
  | .reader i => (r.pipes i).buffer = [] ∧ (r.pipes i).eof = false
  | .waiter _ => 0 < toInt32 (m.mr 1) ∧ toInt32 (m.mr 1) < 256 ∧
      (r.pcbs (toInt32 (m.mr 1)).toNat).active = true
  | .drivers => r.allDriversReady = false

instance (r : Root K) (m : Message) : DecidablePred (r.Delays m)
  | .reader _ => inferInstanceAs (Decidable (_ ∧ _))
  | .waiter _ => inferInstanceAs (Decidable (_ ∧ _ ∧ _))
  | .drivers => inferInstanceAs (Decidable (_ = _))

/-- The field in which the reply capability of the caller is saved. -/
def Root.parks (r : Root K) (m : Message) : Option Field :=
  (r.uses m).filter fun f => r.Delays m f

/-- The field that `SYS_PIPE` sets to 0 with a new pipe. -/
def Root.opens (r : Root K) (m : Message) : Option Field :=
  if (r.senderPid m.badge).isSome ∧ m.label = .other ∧ m.mr 0 = 20 then r.freePipe.map .reader
  else none

end

/-- What a kernel call does to a slot of the root CNode: it sends a message through its capability,
or it empties it. -/
inductive Dealing
  | sent (cap : ℕ) (mrs : List ℤ)
  | deleted (slot : ℕ)
  deriving DecidableEq

/-- What the kernel call does to a slot of the root CNode, if anything. -/
def Invocation.dealing? (boot : Boot) : Invocation → Option Dealing
  | .send cap mrs => some (.sent cap mrs)
  | .cnodeDelete slot =>
    if slot = boot.rootSlot slot.index then some (.deleted slot.index) else none
  | _ => none

/-- The processes of `l` that wait for `p`, each with the message that tells it so. -/
def Table.waitersOf (T : Table) (p : ℕ) (l : List ℕ) : List (Field × List ℤ) :=
  (l.filter fun i => (T i).active ∧ (T i).waitingFor = p).map fun i => (.waiter i, [0])

section
variable {K : Type}

/-- The readers that are parked on the pipes of `l` into which `p` writes, with the end of the
data. -/
def Root.readersOf (r : Root K) (p : ℕ) (l : List ℕ) : List (Field × List ℤ) :=
  (l.filter fun i => ((r.pipes i).active ∧ (r.pipes i).writerPid = p) ∧
    (r.pipes i).readerReplyCap ≠ 0).map fun i => (.reader i, [0])

/-- One message through the slot of each field of the list, which is then emptied. -/
def Root.answering (r : Root K) (L : List (Field × List ℤ)) : List Dealing :=
  L.flatMap fun a => [.sent (r.saved a.1) a.2, .deleted (r.saved a.1)]

end

/-- The slots of a block that `SYS_EXIT` and `SYS_KILL` empty. -/
def Pcb.objects (boot : Boot) (pcb : Pcb) : List ℕ :=
  [pcb.badgedEp, pcb.tcb] ++ if pcb.vspace ≠ boot.rootVspace then [pcb.vspace] else []

/-- The slots that `generic_recover_process` empties. -/
def Pcb.spoils (pcb : Pcb) : List ℕ := pcb.released ++ pcb.window.filter (· ≠ 0)

variable {K : Type} {sel4 : SeL4 K} {boot : Boot} {r t u : Root (K × List Invocation)}

/-- From `r` to `t` the kernel calls deal with the slots of the root CNode as in `ds`. -/
def Deals (boot : Boot) (ds : List Dealing) (r t : Root (K × List Invocation)) : Prop :=
  ∃ ext, t.log = r.log ++ ext ∧ ext.filterMap (·.dealing? boot) = ds

/-- What the kernel calls from `r` to `t` do to the slots of the root CNode. -/
def Root.dealings (boot : Boot) (r t : Root (K × List Invocation)) : List Dealing :=
  (t.log.drop r.log.length).filterMap (·.dealing? boot)

/-- From `r` to `t` the callers in the fields of `L` have been answered and then the slots in `D` been
emptied, a process may have been started, and the process table has become `T`. -/
structure Clears (boot : Boot) (L : List (Field × List ℤ)) (D : List ℕ) (started : Option ℕ)
    (T : Table) (r t : Root (K × List Invocation)) : Prop where
  deals : Deals boot (r.answering L ++ D.map .deleted) r t
  saved : ∀ f, t.saved f =
    if f ∈ L.map Prod.fst ∨ started.map Field.waiter = some f then 0 else r.saved f
  table : t.table = T

/-- From `r` to `t` nobody has been answered and nobody parked. -/
structure Mum (boot : Boot) (r t : Root (K × List Invocation)) : Prop where
  deals : Deals boot [] r t
  saved : t.saved = r.saved

/-- Nor has the process table changed. -/
structure Unmoved (boot : Boot) (r t : Root (K × List Invocation)) : Prop extends Mum boot r t where
  table : SameTable r t

/-! ## Dealings -/

/-- A send on a capability of the rootserver is a dealing with it. -/
@[simp] theorem dealing_send (cap : ℕ) (mrs : List ℤ) :
    (Invocation.send cap mrs).dealing? boot = some (.sent cap mrs) := rfl

/-- So is the deletion of one of its slots. -/
@[simp] theorem dealing_delete (slot : ℕ) :
    (Invocation.cnodeDelete (boot.rootSlot slot)).dealing? boot = some (.deleted slot) := if_pos rfl

/-- A mute kernel call deals with no slot. -/
theorem dealing_of_mute {i : Invocation} (h : i.Mute) : i.dealing? boot = none := by
  cases i with
  | send cap mrs => exact h.elim
  | cnodeDelete slot =>
    refine if_neg fun heq => ?_
    have hdepth : slot.depth = 64 := congrArg Place.depth heq
    rw [show slot.depth = 8 from h] at hdepth
    cases hdepth
  | _ => rfl

/-- The dealings of a step are determined by the two logs. -/
theorem Deals.eq {ds : List Dealing} (h : Deals boot ds r t) : r.dealings boot t = ds := by
  obtain ⟨ext, hext, rfl⟩ := h
  rw [Root.dealings, hext, List.drop_left]

/-- No step, no dealing. -/
theorem Deals.refl (boot : Boot) (r : Root (K × List Invocation)) : Deals boot [] r r :=
  ⟨[], (List.append_nil _).symm, rfl⟩

/-- Dealings of two steps follow each other. -/
theorem Deals.trans {ds ds' : List Dealing} (h : Deals boot ds r t) (h' : Deals boot ds' t u) :
    Deals boot (ds ++ ds') r u := by
  obtain ⟨ext, hext, rfl⟩ := h
  obtain ⟨ext', hext', rfl⟩ := h'
  exact ⟨ext ++ ext', by rw [hext', hext, List.append_assoc], List.filterMap_append⟩

/-- Answers are sent in the order of the list. -/
theorem answering_append (r : Root K) (L L' : List (Field × List ℤ)) :
    r.answering (L ++ L') = r.answering L ++ r.answering L' := List.flatMap_append

/-- Which capability is used is read from the fields that are answered. -/
theorem answering_congr {r t : Root K} {L : List (Field × List ℤ)}
    (h : ∀ a ∈ L, t.saved a.1 = r.saved a.1) : t.answering L = r.answering L :=
  List.flatMap_congr fun a ha => by rw [h a ha]

/-! ## The fields -/

/-- The reply capability of a PCB is the field of a waiter. -/
theorem saved_setPcb (r : Root K) (p : ℕ) (f : Pcb → Pcb) : (r.setPcb p f).saved =
    Function.update r.saved (.waiter p) (f (r.pcbs p)).replyCap := by
  funext g
  by_cases hg : g = .waiter p
  · subst hg
    rw [Function.update_self]
    exact congrArg Pcb.replyCap (r.setPcb_self p f)
  · rw [Function.update_of_ne hg]
    cases g with
    | waiter q => exact congrArg Pcb.replyCap (r.setPcb_of_ne f fun h => hg (congrArg _ h))
    | reader i => rfl
    | drivers => rfl

/-- That of a pipe is the field of its reader. -/
theorem saved_setPipe (r : Root K) (i : ℕ) (f : Pipe → Pipe) : (r.setPipe i f).saved =
    Function.update r.saved (.reader i) (f (r.pipes i)).readerReplyCap := by
  funext g
  by_cases hg : g = .reader i
  · subst hg
    rw [Function.update_self]
    exact congrArg Pipe.readerReplyCap (r.setPipe_self i f)
  · rw [Function.update_of_ne hg]
    cases g with
    | reader j => exact congrArg Pipe.readerReplyCap (r.setPipe_of_ne f fun h => hg (congrArg _ h))
    | waiter q => rfl
    | drivers => rfl

/-! ## Work that answers nobody -/

/-- What is hushed makes no dealing, moves no field and leaves the table alone. -/
theorem hushed_mum (sel4 : SeL4 K) (boot : Boot) : Hushed (recorded sel4) (Mum boot) where
  refl r := ⟨.refl boot r, rfl⟩
  trans _ _ _ h h' := ⟨h.deals.trans h'.deals, h'.saved.trans h.saved⟩
  mute r inv _ hmute :=
    ⟨⟨[inv], rfl, List.filterMap_cons_none (dealing_of_mute hmute)⟩, rfl⟩
  callBlk r name offset a k hcall := by
    obtain ⟨p, -, hp⟩ := Option.map_eq_some_iff.mp hcall
    cases hp
    exact ⟨.refl boot r, rfl⟩
  alloc r _ := ⟨.refl boot r, rfl⟩
  elfWindow r _ := ⟨.refl boot r, rfl⟩
  ipcWindow r _ := ⟨.refl boot r, rfl⟩
  cloneWindow r _ := ⟨.refl boot r, rfl⟩
  humble r p f hf := by
    refine ⟨.refl boot r, ?_⟩
    rw [saved_setPcb, (hf _).2]
    exact Function.update_eq_self _ _

/-- So it moves nothing. -/
theorem hushed_unmoved (sel4 : SeL4 K) (boot : Boot) : Hushed (recorded sel4) (Unmoved boot) :=
  have hmum := hushed_mum sel4 boot
  have hsame := quiet_sameTable (recorded sel4)
  { refl := fun r => ⟨hmum.refl r, hsame.refl r⟩
    trans := fun _ _ _ h h' => ⟨hmum.trans _ _ _ h.toMum h'.toMum, h'.table.trans h.table⟩
    mute := fun r i hp hi => ⟨hmum.mute r i hp hi, rfl⟩
    callBlk := fun r n o a k hc => ⟨hmum.callBlk r n o a k hc, rfl⟩
    alloc := fun r a => ⟨hmum.alloc r a, rfl⟩
    elfWindow := fun r v => ⟨hmum.elfWindow r v, rfl⟩
    ipcWindow := fun r v => ⟨hmum.ipcWindow r v, rfl⟩
    cloneWindow := fun r v => ⟨hmum.cloneWindow r v, rfl⟩
    humble := fun r p f hf => ⟨hmum.humble r p f hf, hsame.humble r p f hf⟩ }

/-- Where nothing was dealt, nothing was cleared. -/
theorem Mum.clears (h : Mum boot r t) : Clears boot [] [] none t.table r t :=
  ⟨h.deals, fun f => by rw [h.saved]; exact (if_neg (by simp)).symm, rfl⟩

/-- No step clears nothing. -/
theorem Clears.refl (boot : Boot) (r : Root (K × List Invocation)) :
    Clears boot [] [] none r.table r r :=
  Mum.clears ⟨.refl boot r, rfl⟩

/-- Nor does a step that moves nothing. -/
theorem Unmoved.clears (h : Unmoved boot r t) : Clears boot [] [] none r.table r t :=
  h.table ▸ h.toMum.clears

/-! ## Composition -/

section
variable {L L' : List (Field × List ℤ)} {D D' : List ℕ} {started : Option ℕ} {T T' : Table}

/-- A field that was not answered is as it was, if nobody was started. -/
theorem Clears.saved_of_notMem (h : Clears boot L D none T r t) {f : Field}
    (hf : f ∉ L.map Prod.fst) : t.saved f = r.saved f := by
  rw [h.saved, if_neg]
  rintro (hmem | heq)
  · exact hf hmem
  · cases heq

/-- Callers are answered before other slots are emptied, and each of them once. -/
theorem Clears.append (h : Clears boot L D none T r t) (h' : Clears boot L' D' started T' t u)
    (hd : D = [] ∨ L' = []) (hL : ∀ a ∈ L', a.1 ∉ L.map Prod.fst) :
    Clears boot (L ++ L') (D ++ D') started T' r u := by
  refine ⟨?_, fun f => ?_, h'.table⟩
  · have hsame : t.answering L' = r.answering L' :=
      answering_congr fun a ha => h.saved_of_notMem (hL a ha)
    have hdeals := h.deals.trans h'.deals
    rw [hsame] at hdeals
    rcases hd with rfl | rfl <;>
      simpa [answering_append, List.map_append, List.append_assoc, Root.answering] using hdeals
  · rw [h'.saved, h.saved]
    simp only [List.map_append, List.mem_append]
    by_cases hf' : f ∈ L'.map Prod.fst ∨ started.map Field.waiter = some f
    · rw [if_pos hf', if_pos (hf'.elim (fun hmem => .inl (.inr hmem)) .inr)]
    · by_cases hf : f ∈ L.map Prod.fst
      · rw [if_neg hf', if_pos (.inl hf), if_pos (.inl (.inl hf))]
      · rw [if_neg hf', if_neg, if_neg]
        · rintro ((hmem | hmem) | heq)
          · exact hf hmem
          · exact hf' (.inl hmem)
          · exact hf' (.inr heq)
        · rintro (hmem | heq)
          · exact hf hmem
          · cases heq

/-- What moves nothing may follow. -/
theorem Clears.unmoved (h : Clears boot L D started T r t) (hu : Unmoved boot t u) :
    Clears boot L D started T r u := by
  refine ⟨?_, fun f => ?_, hu.table.trans h.table⟩
  · have hdeals := h.deals.trans hu.deals
    rwa [List.append_nil] at hdeals
  · rw [hu.saved]
    exact h.saved f

/-- And may come first. -/
theorem Unmoved.then (hu : Unmoved boot r t) (h : Clears boot L D started T t u) :
    Clears boot L D started T r u := by
  refine ⟨?_, fun f => ?_, h.table⟩
  · have hdeals := hu.deals.trans h.deals
    rwa [answering_congr fun a _ => congrFun hu.saved a.1] at hdeals
  · rw [h.saved, hu.saved]

end

/-! ## Answering -/

/-- A change of a pipe that leaves the capability of its reader alone. -/
theorem unmoved_setPipe (boot : Boot) (i : ℕ) {f : Pipe → Pipe}
    (hf : ∀ x : Pipe, (f x).readerReplyCap = x.readerReplyCap) :
    Keeps (Unmoved boot) (setPipe i f : RootM (K × List Invocation) PUnit) := by
  refine .modify fun r => ⟨⟨.refl boot r, ?_⟩, rfl⟩
  rw [saved_setPipe, hf]
  exact Function.update_eq_self _ _

/-- One message through a capability, which is then gone. -/
theorem deals_answer (cap : ℕ) (mrs : List ℤ) (r : Root (K × List Invocation)) :
    Ends (answer (recorded sel4) boot cap mrs) r fun _ t =>
      Deals boot [.sent cap mrs, .deleted cap] r t ∧ t.saved = r.saved ∧ SameTable r t := by
  intro _ t hrun
  cases hrun
  refine ⟨⟨[.send cap mrs, .cnodeDelete (boot.rootSlot cap)], ?_, ?_⟩, rfl, rfl⟩
  · simp [Root.log, recorded]
  · simp

/-- A caller gets its message when its field is 0 in the end. -/
theorem clears_one {f : Field} {mrs : List ℤ} {T : Table}
    (hdeals : Deals boot [.sent (r.saved f) mrs, .deleted (r.saved f)] r t)
    (hsaved : t.saved = Function.update r.saved f 0) (htable : t.table = T) :
    Clears boot [(f, mrs)] [] none T r t := by
  refine ⟨hdeals, fun g => ?_, htable⟩
  rw [hsaved, Function.update_apply]
  by_cases hg : g = f
  · rw [if_pos hg, if_pos (.inl (by simpa using hg))]
  · rw [if_neg hg, if_neg (by simpa using hg)]

/-- The parked reader of a pipe gets its message. -/
theorem clears_answerReader (i : ℕ) (value : ℤ) (r : Root (K × List Invocation)) :
    Ends (answerReader (recorded sel4) boot i value) r fun _ t =>
      Clears boot [(.reader i, [value])] [] none r.table r t := by
  refine .bind (.get (.seq (deals_answer _ _ r) fun _ t ⟨hdeals, hsaved, hsame⟩ => ?_))
  refine .seq ((hushed_unmoved sel4 boot).freeSlot _ t) fun _ u hu => .modify ?_
  refine clears_one ?_ ?_ ?_
  · have hall := hdeals.trans hu.deals
    rwa [List.append_nil] at hall
  · rw [saved_setPipe, hu.saved, hsaved]
  · exact hu.table.trans hsame

/-- The reply capability of a block is forgotten. -/
theorem clears_forget (boot : Boot) (i : ℕ) (r : Root (K × List Invocation)) :
    Ends (setPcb i fun pcb => { pcb with replyCap := 0 }) r fun _ t => Deals boot [] r t ∧
      t.saved = Function.update r.saved (.waiter i) 0 ∧ SameTable r t := by
  refine .modify ⟨.refl boot r, saved_setPcb r i _, ?_⟩
  exact sameTable_setPcb r i _ fun _ => rfl

/-- The message to a process that waits, up to what is done with the slot. -/
theorem clears_awaken (i : ℕ) (r : Root (K × List Invocation))
    {fin : RootM (K × List Invocation) PUnit}
    (hfin : ∀ u, Ends fin u fun _ t => Deals boot [] u t ∧
      t.saved = Function.update u.saved (.waiter i) 0 ∧ SameTable u t) :
    Ends (do
      setPcb i fun pcb => { pcb with waitingFor := 0 }
      answer (recorded sel4) boot (r.pcbs i).replyCap [0]
      fin) r fun _ t => Clears boot [(.waiter i, [0])] [] none
        (Function.update r.table i { r.table i with waitingFor := 0 }) r t := by
  refine .seq (ends_setPcb i _ r) fun _ t ht => ?_
  refine .seq (deals_answer _ _ t) fun _ u ⟨hdeals, hsaved, hsame⟩ => ?_
  refine (hfin u).mono fun _ v ⟨hdeals', hsaved', hsame'⟩ => ?_
  have hkept : t.saved = r.saved := by
    rw [ht, saved_setPcb]
    exact Function.update_eq_self _ _
  obtain ⟨ext, hext, hds⟩ := hdeals.trans hdeals'
  refine clears_one ⟨ext, ?_, hds⟩ ?_ ?_
  · rw [hext, ht]
    rfl
  · rw [hsaved', hsaved, hkept]
  · rw [show v.table = t.table from hsame'.trans hsame, ht, table_setPcb]
    rfl

section
variable (p i : ℕ) (r : Root (K × List Invocation))

/-- A process that waits for `p` is answered 0. -/
theorem waitersOf_pos {T : Table} {p i : ℕ} (h : (T i).active = true ∧ (T i).waitingFor = p) :
    T.waitersOf p [i] = [(.waiter i, [0])] := by
  rw [Table.waitersOf, List.filter_cons_of_pos (by simpa using h)]
  rfl

/-- One that does not is passed over. -/
theorem waitersOf_neg {T : Table} {p i : ℕ} (h : ¬ ((T i).active = true ∧ (T i).waitingFor = p)) :
    T.waitersOf p [i] = [] := by
  rw [Table.waitersOf, List.filter_cons_of_neg (by simpa using h)]
  rfl

/-- A process that does not wait for `p` is left alone. -/
theorem clears_not_waiting
    (h : ¬ ((r.table i).active = true ∧ (r.table i).waitingFor = p)) :
    Clears boot (r.table.waitersOf p [i]) [] none
      (Function.update r.table i (Table.woken p (r.table i))) r r := by
  rw [waitersOf_neg h, Table.woken, if_neg h, Function.update_eq_self]
  exact .refl boot r

/-- A process that waits for `p` gets its message, and its slot goes back to the pool. -/
theorem clears_wake : Ends (wake (recorded sel4) boot p i) r fun _ t =>
    Clears boot (r.table.waitersOf p [i]) [] none
      (Function.update r.table i (Table.woken p (r.table i))) r t := by
  refine .bind (.get (.onlyIf (fun h => ?_) fun h => clears_not_waiting p i r h))
  have hwaits : (r.table i).active = true ∧ (r.table i).waitingFor = p := h
  rw [waitersOf_pos hwaits, Table.woken, if_pos hwaits]
  refine clears_awaken i r fun u => ?_
  refine .seq ((hushed_unmoved sel4 boot).freeSlot _ u) fun _ v hv => ?_
  refine (clears_forget boot i v).mono fun _ w hw => ?_
  exact ⟨hv.deals.trans hw.1, by rw [hw.2.1, hv.saved], hw.2.2.trans hv.table⟩

/-- The same without the slot. -/
theorem clears_wakeAndDrop : Ends (wakeAndDrop (recorded sel4) boot p i) r fun _ t =>
    Clears boot (r.table.waitersOf p [i]) [] none
      (Function.update r.table i (Table.woken p (r.table i))) r t := by
  refine .bind (.get (.onlyIf (fun h => ?_) fun h => clears_not_waiting p i r h))
  have hwaits : (r.table i).active = true ∧ (r.table i).waitingFor = p := h
  rw [waitersOf_pos hwaits, Table.woken, if_pos hwaits]
  exact clears_awaken i r fun u => clears_forget boot i u

end

/-- The loop goes through the PIDs one at a time. -/
theorem waitersOf_cons (T : Table) (p i : ℕ) (l : List ℕ) :
    T.waitersOf p (i :: l) = T.waitersOf p [i] ++ T.waitersOf p l := by
  simp only [Table.waitersOf, ← List.map_append, ← List.filter_append, List.singleton_append]

/-- Who waits is read from the lines of the table that the loop visits. -/
theorem waitersOf_congr {T T' : Table} {p : ℕ} {l : List ℕ} (h : ∀ q ∈ l, T' q = T q) :
    T'.waitersOf p l = T.waitersOf p l := by
  simp only [Table.waitersOf]
  rw [List.filter_congr fun q hq => by rw [h q hq]]

/-- Who is answered when `p` ends. -/
theorem mem_waitersOf {T : Table} {p : ℕ} {l : List ℕ} {a : Field × List ℤ} :
    a ∈ T.waitersOf p l ↔
      ∃ q ∈ l, ((T q).active = true ∧ (T q).waitingFor = p) ∧ a = (.waiter q, [0]) := by
  rw [Table.waitersOf, List.mem_map]
  constructor
  · rintro ⟨q, hq, rfl⟩
    obtain ⟨hl, hwaits⟩ := List.mem_filter.mp hq
    exact ⟨q, hl, of_decide_eq_true hwaits, rfl⟩
  · rintro ⟨q, hl, hwaits, rfl⟩
    exact ⟨q, List.mem_filter.mpr ⟨hl, decide_eq_true hwaits⟩, rfl⟩

/-- The loop over the table answers every process that waits for `p`, and each of them once. -/
theorem clears_wakes {p : ℕ} {g : ℕ → RootM (K × List Invocation) PUnit}
    (hg : ∀ i r, Ends (g i) r fun _ t => Clears boot (r.table.waitersOf p [i]) [] none
      (Function.update r.table i (Table.woken p (r.table i))) r t)
    {l : List ℕ} (hl : l.Nodup) (r : Root (K × List Invocation)) :
    Ends (forM l g) r fun _ t => Clears boot (r.table.waitersOf p l) [] none
      (fun q => if q ∈ l then Table.woken p (r.table q) else r.table q) r t := by
  induction l generalizing r with
  | nil =>
    refine .pure ?_
    simp only [List.not_mem_nil, if_false]
    exact .refl boot r
  | cons i l ih =>
    obtain ⟨hi, hl⟩ := List.nodup_cons.mp hl
    rw [List.forM_cons]
    refine .seq (hg i r) fun _ t ht => (ih hl t).mono fun _ u hu => ?_
    have hother (q : ℕ) (hq : q ∈ l) : t.table q = r.table q := by
      rw [ht.table, Function.update_of_ne]
      rintro rfl
      exact hi hq
    rw [waitersOf_congr hother] at hu
    rw [waitersOf_cons]
    have hboth := ht.append hu (.inl rfl) fun a ha hmem => ?_
    · refine ⟨hboth.deals, hboth.saved, hboth.table.trans ?_⟩
      funext q
      by_cases hq : q = i
      · subst hq
        simp [hi, ht.table]
      · simp [hq, ht.table]
    -- the fields of `l` are others than that of `i`
    · obtain ⟨q, hq, -, rfl⟩ := mem_waitersOf.mp ha
      obtain ⟨b, hb, heq⟩ := List.mem_map.mp hmem
      obtain ⟨j, hj, -, rfl⟩ := mem_waitersOf.mp hb
      obtain rfl : j = q := Field.waiter.inj heq
      exact hi (List.mem_singleton.mp hj ▸ hq)

/-! ## The end of a writer -/

/-- Which readers are told EOF when `p` ends. -/
theorem mem_readersOf {r : Root K} {p : ℕ} {l : List ℕ} {a : Field × List ℤ} :
    a ∈ r.readersOf p l ↔ ∃ i ∈ l, (((r.pipes i).active = true ∧ (r.pipes i).writerPid = p) ∧
      (r.pipes i).readerReplyCap ≠ 0) ∧ a = (.reader i, [0]) := by
  rw [Root.readersOf, List.mem_map]
  constructor
  · rintro ⟨q, hq, rfl⟩
    obtain ⟨hl, hreads⟩ := List.mem_filter.mp hq
    exact ⟨q, hl, of_decide_eq_true hreads, rfl⟩
  · rintro ⟨q, hl, hreads, rfl⟩
    exact ⟨q, List.mem_filter.mpr ⟨hl, decide_eq_true hreads⟩, rfl⟩

/-- The loop goes through the pipes one at a time. -/
theorem readersOf_cons (r : Root K) (p i : ℕ) (l : List ℕ) :
    r.readersOf p (i :: l) = r.readersOf p [i] ++ r.readersOf p l := by
  simp only [Root.readersOf, ← List.map_append, ← List.filter_append, List.singleton_append]

/-- Who is told EOF is read from the pipes that the loop visits. -/
theorem readersOf_congr {r t : Root K} {p : ℕ} {l : List ℕ} (h : ∀ i ∈ l, t.pipes i = r.pipes i) :
    t.readersOf p l = r.readersOf p l := by
  simp only [Root.readersOf]
  rw [List.filter_congr fun i hi => by rw [h i hi]]

/-- A close tells the parked reader of the pipe, if there is one. -/
theorem clears_closeWriter (i : ℕ) (r : Root (K × List Invocation)) :
    Ends (closeWriter (recorded sel4) boot i) r fun _ t =>
      Clears boot (if (r.pipes i).readerReplyCap ≠ 0 then [(.reader i, [0])] else []) [] none
        r.table r t := by
  have hmark : Keeps (Unmoved boot)
      (setPipe i fun x => { x with eof := true } : RootM (K × List Invocation) PUnit) :=
    unmoved_setPipe boot i fun _ => rfl
  refine .seq ((hmark r).and (ends_setPipe i _ r)) fun _ t ⟨hu, ht⟩ => .bind (.get ?_)
  have hreader : (t.pipes i).readerReplyCap = (r.pipes i).readerReplyCap := by
    rw [ht, Root.setPipe_self]
  rw [hreader]
  refine .onlyIf (fun h => ?_) fun h => ?_
  · rw [if_pos h]
    refine (clears_answerReader i 0 t).mono fun _ u hclears => hu.then ?_
    rwa [hu.table] at hclears
  · rw [if_neg h]
    exact hu.clears

/-- The end of the process `p` tells the parked readers of all pipes it writes into. -/
theorem clears_closePipesOf (p : ℕ) (r : Root (K × List Invocation)) :
    Ends (closePipesOf (recorded sel4) boot p) r fun _ t =>
      Clears boot (r.readersOf p (List.range maxPipes)) [] none r.table r t := by
  unfold closePipesOf
  have hnodup : (List.range maxPipes).Nodup := List.nodup_range
  generalize List.range maxPipes = l at hnodup ⊢
  induction l generalizing r with
  | nil => exact .pure (.refl boot r)
  | cons i l ih =>
    obtain ⟨hi, hnodup⟩ := List.nodup_cons.mp hnodup
    rw [List.forM_cons]
    -- one turn tells the reader of pipe `i` and leaves the other pipes alone
    refine .seq (Q := fun _ t => Clears boot (r.readersOf p [i]) [] none r.table r t ∧
      ∀ j ≠ i, t.pipes j = r.pipes j) ?_ fun _ t ⟨ht, hothers⟩ => ?_
    · refine .bind (.get (.onlyIf (fun h => ?_) fun h => ⟨?_, fun _ _ => rfl⟩))
      · refine ((clears_closeWriter i r).and (pipes_closeWriter i r)).mono
          fun _ t ⟨hclears, hpipes⟩ => ⟨?_, fun j hj => ?_⟩
        · by_cases hcap : (r.pipes i).readerReplyCap ≠ 0
          · rw [if_pos hcap] at hclears
            rwa [Root.readersOf, List.filter_cons_of_pos (by simpa using ⟨h, hcap⟩)]
          · rw [if_neg hcap] at hclears
            rwa [Root.readersOf, List.filter_cons_of_neg (by simpa using fun _ _ => not_not.mp hcap)]
        · rw [hpipes, Root.setPipe_of_ne r _ hj]
      · rw [Root.readersOf, List.filter_cons_of_neg (by simpa using fun ha hw => absurd ⟨ha, hw⟩ h)]
        exact .refl boot r
    · refine (ih t hnodup).mono fun _ u hu => ?_
      have hl (j : ℕ) (hj : j ∈ l) : t.pipes j = r.pipes j := by
        refine hothers j ?_
        rintro rfl
        exact hi hj
      rw [readersOf_congr hl, ht.table] at hu
      rw [readersOf_cons]
      refine ht.append hu (.inl rfl) fun a ha hmem => ?_
      obtain ⟨j, hj, -, rfl⟩ := mem_readersOf.mp ha
      obtain ⟨b, hb, heq⟩ := List.mem_map.mp hmem
      obtain ⟨k, hk, -, rfl⟩ := mem_readersOf.mp hb
      obtain rfl : k = j := Field.reader.inj heq
      exact hi (List.mem_singleton.mp hk ▸ hj)

/-! ## Emptying slots -/

/-- A deletion is one dealing and moves no field. -/
theorem clears_delete (slot : ℕ) (r : Root (K × List Invocation)) :
    Ends (sys (recorded sel4) (.cnodeDelete (boot.rootSlot slot))) r fun _ t =>
      Clears boot [] [slot] none r.table r t := by
  intro _ t hrun
  cases hrun
  refine ⟨⟨[.cnodeDelete (boot.rootSlot slot)], rfl, ?_⟩, fun f => ?_, rfl⟩
  · simp [Root.answering]
  · exact (if_neg (by simp)).symm

/-- Slots that are emptied after others. -/
theorem Clears.empty {L : List (Field × List ℤ)} {D D' : List ℕ} {T T' : Table}
    {started : Option ℕ} (h : Clears boot L D none T r t)
    (h' : Clears boot [] D' started T' t u) : Clears boot L (D ++ D') started T' r u := by
  have hboth := h.append h' (.inr rfl) fun a ha => absurd ha List.not_mem_nil
  rwa [List.append_nil] at hboth

/-- A slot that is released was deleted first. -/
theorem clears_releaseCap (cap : ℕ) (r : Root (K × List Invocation)) :
    Ends (releaseCap (recorded sel4) boot cap) r fun _ t =>
      Clears boot [] [cap] none r.table r t := by
  have hq := hushed_unmoved sel4 boot
  refine .seq (hq.sys (.cnodeRevoke (boot.rootSlot cap)) trivial trivial r) fun _ t ht => ?_
  refine .seq (clears_delete cap t) fun _ u hu => ?_
  refine (hq.freeSlot cap u).mono fun _ v hv => ht.then (Clears.unmoved ?_ hv)
  rwa [ht.table] at hu

/-- A copy that was never made is not deleted. -/
theorem clears_dropCopy (cap : ℕ) (r : Root (K × List Invocation)) :
    Ends (dropCopy (recorded sel4) boot cap) r fun _ t =>
      Clears boot [] ([cap].filter (· ≠ 0)) none r.table r t := by
  refine .onlyIf (fun h => ?_) fun h => ?_
  · rw [List.filter_cons_of_pos (by simpa using h)]
    refine .seq (clears_delete cap r) fun _ t ht => ?_
    exact ((hushed_unmoved sel4 boot).freeSlot cap t).mono fun _ u hu => ht.unmoved hu
  · rw [List.filter_cons_of_neg (by simpa using h)]
    exact .refl boot r

/-- A loop that empties the slots `d x` for the `x` it visits. -/
theorem clears_forM {γ : Type} {g : γ → RootM (K × List Invocation) PUnit} {d : γ → List ℕ}
    (hg : ∀ x r, Ends (g x) r fun _ t => Clears boot [] (d x) none r.table r t) (l : List γ)
    (r : Root (K × List Invocation)) :
    Ends (forM l g) r fun _ t => Clears boot [] (l.flatMap d) none r.table r t := by
  induction l generalizing r with
  | nil => exact .pure (.refl boot r)
  | cons x l ih =>
    rw [List.forM_cons]
    refine .seq (hg x r) fun _ t ht => (ih t).mono fun _ u hu => ?_
    rw [ht.table] at hu
    exact ht.empty hu

/-! ## The end of a process -/

/-- An update of a block that keeps the saved reply capability. -/
theorem clears_setPcb (boot : Boot) (p : ℕ) (f : Pcb → Pcb) (r : Root (K × List Invocation))
    (hf : (f (r.pcbs p)).replyCap = (r.pcbs p).replyCap) :
    Ends (setPcb p f) r fun _ t =>
      Clears boot [] [] none (Function.update r.table p (f (r.pcbs p)).life) r t := by
  refine .modify ?_
  rw [← table_setPcb]
  refine Mum.clears ⟨.refl boot r, ?_⟩
  rw [saved_setPcb, hf]
  exact Function.update_eq_self _ _

/-- Stopping a process is no dealing. -/
theorem clears_stop (boot : Boot) (p : ℕ) (r : Root (K × List Invocation)) :
    Ends (setPcb p fun pcb => { pcb with active := false }) r fun _ t =>
      Clears boot [] [] none (r.table.stop p) r t :=
  clears_setPcb boot p _ r rfl

/-- A process goes with its objects; nobody is answered. -/
theorem clears_deleteProcess (p : ℕ) (pcb : Pcb) (r : Root (K × List Invocation)) :
    Ends (deleteProcess (recorded sel4) boot p pcb) r fun _ t =>
      Clears boot [] (pcb.objects boot) none (r.table.stop p) r t := by
  refine .seq (clears_stop boot p r) fun _ t ht => ?_
  refine .seq (clears_delete pcb.badgedEp t) fun _ u hu => ?_
  refine .seq (clears_delete pcb.tcb u) fun _ v hv => ?_
  rw [ht.table] at hu
  rw [hu.table] at hv
  have hv' := (ht.empty hu).empty hv
  refine .onlyIf (fun h => ?_) fun h => ?_
  · refine .seq (clears_delete pcb.vspace v) fun _ w hw => .pure ?_
    rw [hv.table] at hw
    rw [Pcb.objects, if_pos h]
    exact hv'.empty hw
  · rw [Pcb.objects, if_neg h]
    exact hv'

/-- The loops over the processes visit each PID once. -/
theorem nodup_pids : pids.Nodup := List.nodup_range'

/-- What a process that waits is told, and what is taken from the block of a failed process. -/
theorem clears_tearDown (p : ℕ) (old : Pcb) (r : Root (K × List Invocation)) :
    Ends (tearDown (recorded sel4) boot p old) r fun _ t =>
      Clears boot (r.table.waitersOf p pids) old.spoils none (r.table.wakeAll p) r t := by
  have hq := hushed_unmoved sel4 boot
  refine .seq (clears_wakes (clears_wakeAndDrop p) nodup_pids r) fun _ t ht => ?_
  refine .seq (Keeps.onlyIf hq.toFrame (hq.stopThread old) t) fun _ u hu => ?_
  refine .seq (clears_forM clears_releaseCap old.released u) fun _ v hv => ?_
  refine .seq (hq.setPcb p ?hf v) fun _ w hw => ?_
  case hf => exact fun _ => ⟨rfl, rfl⟩
  have hreleased : Clears boot (r.table.waitersOf p pids) old.released none (r.table.wakeAll p)
      r v := by
    rw [List.flatMap_singleton', hu.table, ht.table] at hv
    exact (ht.unmoved hu).empty hv
  have hcopies (c : ℕ → ℕ) : Ends (forM (List.range 4) fun i => dropCopy (recorded sel4) boot (c i)) w
      fun _ x => Clears boot [] (((List.range 4).map c).filter (· ≠ 0)) none w.table w x := by
    refine (clears_forM (fun i => clears_dropCopy (c i)) _ w).mono fun _ x hx => ?_
    rwa [List.map_eq_flatMap, List.filter_flatMap]
  have hw' := hreleased.unmoved hw
  refine .onlyIf (fun hshm => ?_) fun hshm => ?_
  · refine (hcopies old.shmCopies).mono fun _ x hx => ?_
    rw [hw'.table] at hx
    rw [Pcb.spoils, Pcb.window, if_pos hshm]
    exact hw'.empty hx
  · rw [Pcb.spoils, Pcb.window, if_neg hshm, List.filter_nil, List.append_nil]
    exact hw'

/-! ## The start of a process -/

/-- A new PCB starts with no saved capability. -/
theorem clears_renew (boot : Boot) (p : ℕ) {x : Pcb} (hx : x.replyCap = 0)
    (r : Root (K × List Invocation)) :
    Ends (setPcb p fun _ => x) r fun _ t =>
      Clears boot [] [] (some p) (Function.update r.table p x.life) r t := by
  refine .modify ⟨.refl boot r, fun f => ?_, table_setPcb r p _⟩
  rw [saved_setPcb, hx, Function.update_apply]
  simp [eq_comm]

/-- Nobody is answered while a process is being started. -/
theorem mum_spawnBody {p : ℕ} (hp : p < 256) (image : List ℕ) (role : Role) :
    Keeps (Mum boot) (spawnBody (recorded sel4) boot p image role) := by
  refine (hushed_mum sel4 boot).spawnBody (fun r q cnode ep role => ⟨.refl boot r, ?_⟩) hp _ _
  rw [saved_setPcb]
  exact Function.update_eq_self _ _

/-- Where no caller is answered and no slot emptied, nobody is answered. -/
theorem Clears.toMum {T : Table} (h : Clears boot [] [] none T r t) : Mum boot r t :=
  ⟨h.deals, funext fun _ => h.saved_of_notMem List.not_mem_nil⟩

/-- What deals nothing may follow, whatever it does to the table. -/
theorem Clears.mum {L : List (Field × List ℤ)} {D : List ℕ} {started : Option ℕ} {T : Table}
    (h : Clears boot L D started T r t) (hu : Mum boot t u) :
    Clears boot L D started u.table r u := by
  refine ⟨?_, fun f => ?_, rfl⟩
  · have hdeals := h.deals.trans hu.deals
    rwa [List.append_nil] at hdeals
  · rw [hu.saved]
    exact h.saved f

/-- `spawn_process` starts a process at the first free PID, or none. -/
theorem clears_spawnProcess (name : CString) (data : Option (List ℕ)) (role : Role)
    (r : Root (K × List Invocation)) :
    Ends (spawnProcess (recorded sel4) boot name data role) r fun pid t =>
      pid = -1 ∧ t = r ∨ ∃ p, r.table.freePid = some p ∧ pid = p ∧
        Clears boot [] [] (some p) (r.table.start p (name.take 31) role.isDriver) r t := by
  have hclears : Ends (spawnProcess (recorded sel4) boot name data role) r fun _ t =>
      ∀ p, r.freePid = some p → t = r ∨ Clears boot [] [] (some p) t.table r t := by
    unfold spawnProcess
    cases data.orElse fun _ => boot.cpioGetFile name with
    | none => exact .pure fun _ _ => .inl rfl
    | some image =>
      refine .bind (.get ?_)
      cases hfree : r.freePid with
      | none => exact .pure fun _ _ => .inl rfl
      | some p =>
        have hp := (Root.freePid_eq_some hfree).2.2
        refine .seq (clears_renew boot p rfl r) fun _ t ht => ?_
        refine .seq (mum_spawnBody hp image role t) fun _ u hu => .pure fun q hq => .inr ?_
        obtain rfl := Option.some.inj hq
        exact ht.mum hu
  refine ((table_spawnProcess name data role r).and hclears).mono fun pid t ⟨htable, h⟩ => ?_
  refine htable.imp id fun ⟨p, hfree, hpid, hstart⟩ => ⟨p, hfree, hpid, ?_⟩
  rcases h p hfree with rfl | hclears
  · -- a process that runs was not free before
    have hrun := congrArg Life.active (congrFun hstart p)
    rw [Table.start_self, (Table.freePid_eq_some hfree).1] at hrun
    cases hrun
  · rwa [hstart] at hclears

end PsychWard.Rootserver
