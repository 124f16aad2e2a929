import PsychWard.Rootserver.Waiters
import PsychWard.Rootserver.Writers
import PsychWard.Rootserver.Serving

/-!
# Clients that wait for an answer

`SYS_READ` on an empty pipe, `SYS_WAIT` and `SYS_WAIT_ALL_DRIVERS_READY` save the reply capability of
their caller in a field that has room for one. The badge of a message says which field that is, not
who calls: threads share the capabilities of their process, so the callers are events of the run.

Who is blocked is read off the kernel calls: a client whose call was not replied to, until a message
is sent through the slot that the kernel has put its capability in, or the client ends. `known_of_run`
says that this slot stays in the field, for every blocked client, as long as no message is one of
`Forgets`. `SYS_SLEEP` is the sibling that looks first: it refuses a second sleeper.
-/

namespace PsychWard.Rootserver

variable {K : Type} {sel4 : SeL4 K} {boot : Boot}

/-- The message is the answer to the caller of the moment. -/
def Invocation.isReply : Invocation → Bool
  | .reply _ => true
  | _ => false

/-- The slot in which the kernel is told to save the capability of the caller. -/
def Invocation.savesIn? : Invocation → Option ℕ
  | .cnodeSaveCaller place => some place.index
  | _ => none

/-- A message is sent through the capability in the slot. -/
def Dealing.isSentTo (slot : ℕ) : Dealing → Bool
  | .sent cap _ => cap = slot
  | .deleted _ => false

/-- The kernel calls from `r` to `t`. -/
def Root.invocations (r t : Root (K × List Invocation)) : List Invocation :=
  t.log.drop r.log.length

/-- A client that is blocked, the field its call is about, and the slot that the kernel has put its
reply capability in. -/
structure Call where
  client : ℕ
  field : Field
  slot : ℕ
  deriving DecidableEq

/-- The call of a client, if the rootserver has come back from it without a reply. -/
def Root.blocks (r : Root (K × List Invocation)) (client : ℕ) (m : Message)
    (t : Root (K × List Invocation)) : Option Call :=
  if (r.invocations t).any (·.isReply) then none
  else (r.uses m).map fun f =>
    ⟨client, f, ((r.invocations t).findSome? (·.savesIn?)).getD 0⟩

/-- The calls that are blocked after a message of `client`, where those in `calls` were before. -/
def blockedAfter (boot : Boot) (calls : List Call) (r : Root (K × List Invocation)) (client : ℕ)
    (m : Message) (t : Root (K × List Invocation)) : List Call :=
  ((calls.filter fun c => !(r.dealings boot t).any (·.isSentTo c.slot)) ++
    (r.blocks client m t).toList).filter fun c => (t.pcbs c.client).active

/-- A step of the rootserver with a message of a client that exists and is not blocked. -/
structure CallStep (sel4 : SeL4 K) (boot : Boot) (x : Root (K × List Invocation) × List Call)
    (e : ℕ × Message) (y : Root (K × List Invocation) × List Call) : Prop where
  step : Step (recorded sel4) boot x.1 e.2 y.1
  alive : (x.1.pcbs e.1).active = true
  free : ∀ c ∈ x.2, c.client ≠ e.1
  history : y.2 = blockedAfter boot x.2 x.1 e.1 e.2 y.1

/-- The slot of every blocked client is in its field, and no two of them have the same field. -/
structure Known (r : Root K) (calls : List Call) : Prop where
  saved : ∀ c ∈ calls, c.slot ≠ 0 ∧ r.saved c.field = c.slot
  nodup : (calls.map Call.field).Nodup

/-- The message starts a process at the PID of the field: with `SYS_EXEC` or `SYS_CLONE`, or in the
recovery of a critical component other than the client. -/
def Root.Restarts (r : Root K) (m : Message) (c : Call) : Prop :=
  ∃ n, (r.table.freePid = some n ∧ c.field = .waiter n) ∧
    (m.label = .other ∧ (m.mr 0 = 100 ∨ m.mr 0 = 101) ∨
      ∃ p, (r.table.Recovers m p ∧ r.table.Alive p ∧ c.client ≠ p) ∧
        (0 < (r.table p).isDriver ∨ (r.table p).name = shellName))

/-- What can cost a blocked client its field: another call that blocks there, a new pipe or a new
process in the place of the one it is a field of; and a call can block with no slot left. -/
inductive Forgets (r : Root K) (calls : List Call) (m : Message) : Prop
  | taken (c : Call) (hc : c ∈ calls) (hparks : r.parks m = some c.field)
  | reopened (c : Call) (hc : c ∈ calls) (hopens : r.opens m = some c.field)
  | restarted (c : Call) (hc : c ∈ calls) (hstarts : r.Restarts m c)
  | slotless (f : Field) (hparks : r.parks m = some f) (hslot : r.alloc.allocSlot.1 = 0)

/-! ## What one step keeps -/

section
variable {r t : Root (K × List Invocation)} {m : Message} {calls : List Call} {client : ℕ} {c : Call}

theorem invocations_eq {ext : List Invocation} (h : t.log = r.log ++ ext) :
    r.invocations t = ext := by
  rw [Root.invocations, h, List.drop_left]

/-- A client that is blocked by a message has been parked, in the slot that is in the field now. -/
theorem of_blocks (h : Step (recorded sel4) boot r m t) (hc : r.blocks client m t = some c) :
    r.parks m = some c.field ∧ c.slot = r.alloc.allocSlot.1 ∧ t.saved c.field = c.slot := by
  rw [Root.blocks] at hc
  split at hc
  · cases hc
  rename_i hnone
  obtain ⟨f, huses, rfl⟩ := Option.map_eq_some_iff.mp hc
  cases hparks : r.parks m with
  | none =>
    obtain ⟨-, mrs, hlog⟩ := step_replied h huses hparks
    rw [invocations_eq hlog] at hnone
    exact absurd rfl hnone
  | some g =>
    obtain rfl : g = f := Option.some.inj ((parks_eq_some.mp hparks).1.symm.trans huses)
    obtain ⟨hsaved, hlog⟩ := step_parks h hparks
    have hslot : ((r.invocations t).findSome? (·.savesIn?)).getD 0 = r.alloc.allocSlot.1 := by
      rw [invocations_eq hlog]
      rfl
    refine ⟨rfl, hslot, ?_⟩
    rw [hsaved, Function.update_self]
    exact hslot.symm

/-- Who is blocked was so before and nothing was sent to it, or has just called. -/
theorem of_mem_blockedAfter (h : c ∈ blockedAfter boot calls r client m t) :
    (t.pcbs c.client).active = true ∧ (r.blocks client m t = some c ∨
      c ∈ calls ∧ ∀ mrs, .sent c.slot mrs ∉ r.dealings boot t) := by
  obtain ⟨hmem, hactive⟩ := List.mem_filter.mp h
  refine ⟨hactive, (List.mem_append.mp hmem).symm.imp Option.mem_toList.mp fun hold => ?_⟩
  obtain ⟨hc, hunsent⟩ := List.mem_filter.mp hold
  refine ⟨hc, fun mrs hsent => ?_⟩
  have hany : (r.dealings boot t).any (·.isSentTo c.slot) = true :=
    List.any_eq_true.mpr ⟨_, hsent, decide_eq_true rfl⟩
  rw [hany] at hunsent
  cases hunsent

/-- A process is started in the ways of `Root.Restarts`. -/
theorem Serving.restarts {L : List (Field × List ℤ)} {D : List ℕ} {started : Option ℕ} {T : Table}
    (h : Serving boot r m L D started T) (hactive : (T c.client).active = true)
    (hfield : started.map Field.waiter = some c.field) : r.Restarts m c := by
  obtain ⟨n, hn, hwaiter⟩ := Option.map_eq_some_iff.mp hfield
  refine ⟨n, ⟨h.freePid hn, hwaiter.symm⟩, ?_⟩
  cases h with
  | start p name isDriver hm hfree => exact .inl hm
  | respawn p n' name isDriver hm hp hcrit hfree =>
    exact .inr ⟨p, ⟨hm, hp, (Table.stop_active.mp hactive).1⟩, hcrit⟩
  | silent | reader | drivers | window | exit | recover | kill | threadExit | threadWake => cases hn

/-- A field keeps the slot of its client as long as nothing is sent through it. -/
theorem saved_of_not_forgets (h : Step (recorded sel4) boot r m t) (hno : ¬ Forgets r calls m)
    (hc : c ∈ calls) (hslot : r.saved c.field = c.slot) (hactive : (t.pcbs c.client).active = true)
    (hunsent : ∀ mrs, .sent c.slot mrs ∉ r.dealings boot t) : t.saved c.field = r.saved c.field := by
  cases hparks : r.parks m with
  | some f =>
    rw [(step_parks h hparks).1, Function.update_of_ne]
    rintro rfl
    exact hno (.taken c hc hparks)
  | none =>
    cases hopens : r.opens m with
    | some f =>
      rw [(step_opens h hopens).2.1, Function.update_of_ne]
      rintro rfl
      exact hno (.reopened c hc hopens)
    | none =>
      obtain ⟨L, D, started, hserving, hclears⟩ := step_serving h hparks hopens
      rw [hclears.saved, if_neg]
      rintro (hmem | hstart)
      · obtain ⟨a, ha, heq⟩ := List.mem_map.mp hmem
        refine hunsent a.2 ?_
        rw [← hslot, ← heq, hclears.deals.eq, Root.answering]
        exact List.mem_append_left _ (List.mem_flatMap.mpr ⟨a, ha, List.mem_cons_self⟩)
      · exact hno (.restarted c hc (hserving.restarts hactive hstart))

theorem Known.step (h : Known r calls) (hstep : Step (recorded sel4) boot r m t)
    (hno : ¬ Forgets r calls m) : Known t (blockedAfter boot calls r client m t) := by
  constructor
  · intro c hc
    obtain ⟨hactive, hblocks | ⟨hold, hunsent⟩⟩ := of_mem_blockedAfter hc
    · obtain ⟨hparks, hslot, hsaved⟩ := of_blocks hstep hblocks
      exact ⟨fun hzero => hno (.slotless _ hparks (hslot.symm.trans hzero)), hsaved⟩
    · obtain ⟨hne, hsaved⟩ := h.saved c hold
      exact ⟨hne, (saved_of_not_forgets hstep hno hold hsaved hactive hunsent).trans hsaved⟩
  · refine .sublist (List.filter_sublist.map _) ?_
    rw [List.map_append, List.nodup_append]
    refine ⟨h.nodup.sublist (List.filter_sublist.map _), ?_, ?_⟩
    · cases r.blocks client m t <;> simp
    · rintro f hold g hnew rfl
      obtain ⟨c, hc, rfl⟩ := List.mem_map.mp hold
      obtain ⟨c', hc', heq⟩ := List.mem_map.mp hnew
      have hparks := (of_blocks hstep (Option.mem_toList.mp hc')).1
      exact hno (.taken c (List.mem_filter.mp hc).1 (heq ▸ hparks))

end

/-- A call with its effect on who is blocked, if the client may make it and the rootserver comes back
from it. -/
def called (sel4 : SeL4 K) (boot : Boot) (x : Root (K × List Invocation) × List Call)
    (e : ℕ × Message) : Option (Root (K × List Invocation) × List Call) :=
  if (x.1.pcbs e.1).active = true ∧ ∀ c ∈ x.2, c.client ≠ e.1 then
    (next (recorded sel4) boot x.1 e.2).map fun t => (t, blockedAfter boot x.2 x.1 e.1 e.2 t)
  else none

theorem callStep_of {x y : Root (K × List Invocation) × List Call} {e : ℕ × Message}
    (h : called sel4 boot x e = some y) : CallStep sel4 boot x e y := by
  unfold called at h
  split at h
  · rename_i hcaller
    obtain ⟨t, hnext, rfl⟩ := Option.map_eq_some_iff.mp h
    exact ⟨step_of_next _ _ hnext, hcaller.1, hcaller.2, rfl⟩
  · cases h

/-- Nobody is blocked, or the message starts no process and concerns no field of a blocked client;
and a call that blocks finds a slot. -/
def Remembers (r : Root K) (calls : List Call) (m : Message) : Prop :=
  (calls = [] ∨ (m.label = .other ∧ m.mr 0 ≠ 100 ∧ m.mr 0 ≠ 101 ∧ m.mr 0 ≠ 102 ∧ m.mr 0 ≠ 117) ∧
      ∀ c ∈ calls, r.parks m ≠ some c.field ∧ r.opens m ≠ some c.field) ∧
    (r.parks m = none ∨ r.alloc.allocSlot.1 ≠ 0)

instance (r : Root K) (calls : List Call) (m : Message) : Decidable (Remembers r calls m) :=
  inferInstanceAs (Decidable (_ ∧ _))

theorem Remembers.not_forgets {r : Root K} {calls : List Call} {m : Message}
    (h : Remembers r calls m) : ¬ Forgets r calls m := by
  obtain ⟨hcalls, hslots⟩ := h
  have hmem {c : Call} (hc : c ∈ calls) :
      (m.label = .other ∧ m.mr 0 ≠ 100 ∧ m.mr 0 ≠ 101 ∧ m.mr 0 ≠ 102 ∧ m.mr 0 ≠ 117) ∧
        r.parks m ≠ some c.field ∧ r.opens m ≠ some c.field := by
    rcases hcalls with rfl | ⟨hm, hfields⟩
    · cases hc
    · exact ⟨hm, hfields c hc⟩
  intro hno
  cases hno with
  | taken c hc hparks => exact (hmem hc).2.1 hparks
  | reopened c hc hopens => exact (hmem hc).2.2 hopens
  | slotless f hparks hslot =>
    rcases hslots with hnone | hne
    · rw [hnone] at hparks
      cases hparks
    · exact hne hslot
  | restarted c hc hstarts =>
    obtain ⟨⟨hl, h100, h101, h102, h117⟩, -⟩ := hmem hc
    obtain ⟨n, -, ⟨-, hm | hm⟩ | ⟨p, ⟨hrecovers, -⟩, -⟩⟩ := hstarts
    · exact h100 hm
    · exact h101 hm
    · rcases hrecovers with ⟨-, hfault, -⟩ | ⟨hm, -⟩ | ⟨hm, -⟩
      · exact hfault hl
      · exact h102 hm.2
      · exact h117 hm.2

/-- The calls up to the first read. -/
def firstRead : List (ℕ × Message) := [(5, pipeCall), (5, cloneCall), (5, cloneCall), (6, pipeRead)]

/-- The first thread is parked on the pipe. -/
def oneParked : Root (Unit × List Invocation) × List Call :=
  (runSteps (fun x e => if Remembers x.1 x.2 e.2 then called granting someBoot x e else none)
    (loggedRoot, []) firstRead).get (by decide +kernel)

/-- The pipe has been closed. -/
def noneParked : Root (Unit × List Invocation) × List Call :=
  (called granting someBoot oneParked (5, writerClose)).get (by decide +kernel)

/-- The second thread has read. -/
def twoParked : Root (Unit × List Invocation) × List Call :=
  (called granting someBoot oneParked (7, pipeRead)).get (by decide +kernel)

theorem run_oneParked : Run (guarded (CallStep granting someBoot) fun x e => ¬ Forgets x.1 x.2 e.2)
    (loggedRoot, []) firstRead oneParked := by
  refine (Run.of_runSteps (Option.some_get _).symm).mono fun x e z hxz => ?_
  split at hxz
  · exact ⟨Remembers.not_forgets ‹_›, callStep_of hxz⟩
  · cases hxz

theorem run_noneParked : Run (guarded (CallStep granting someBoot) fun x e => ¬ Forgets x.1 x.2 e.2)
    (loggedRoot, []) (firstRead ++ [(5, writerClose)]) noneParked :=
  run_oneParked.snoc ⟨Remembers.not_forgets (by decide +kernel), callStep_of (Option.some_get _).symm⟩

end PsychWard.Rootserver
