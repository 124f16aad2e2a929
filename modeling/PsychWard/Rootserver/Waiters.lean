import PsychWard.Common.Run
import PsychWard.Rootserver.Ready
import PsychWard.Rootserver.Serving

/-!
# Waiting for a process

`SYS_WAIT` parks its caller until the process it names has ended. PIDs are reused at once, so the
state is extended by history variables: `age` counts the lives a PID has had and `asked` remembers
which life of its target a caller was parked on. A `Wait` follows the capability that was saved for
the last `SYS_WAIT` of a process through the kernel calls: where it is and what was sent through it.

`SYS_KILL` of an ordinary process and `SYS_THREAD_EXIT` do not look at all waiters.
`Table.Strands` is the situation in which they leave one behind, and `waiters_of_run` says that
nothing else does. Where moreover nobody else has a claim to the slot of a waiter, every waiter is
told once, when its target ends.
-/

namespace PsychWard.Rootserver

variable {K : Type} {sel4 : SeL4 K} {boot : Boot}

/-- History variables: the number of lives of each PID, and for each process the life of its target
at its last `SYS_WAIT`. -/
structure Lives where
  age : ℕ → ℕ
  asked : ℕ → ℕ

/-- The message is a `SYS_WAIT` of the process `q` on a process that is alive. -/
def Table.Waits (T : Table) (m : Message) (q : ℕ) : Prop :=
  T.senderPid m.badge = some q ∧ (m.label = .other ∧ m.mr 0 = 106) ∧
    T.Alive (toInt32 (m.mr 1)).toNat

instance (T : Table) (m : Message) (q : ℕ) : Decidable (T.Waits m q) :=
  inferInstanceAs (Decidable (_ ∧ _))

/-- The history after a message has taken the table from `T` to `T'`. -/
def Lives.after (v : Lives) (T : Table) (m : Message) (T' : Table) : Lives where
  age p := if (T p).active = false ∧ (T' p).active = true then v.age p + 1 else v.age p
  asked q := if T.Waits m q then v.age (toInt32 (m.mr 1)).toNat else v.asked q

/-- What the kernel calls show of a `SYS_WAIT` whose capability was saved: the process that is waited
for, the slot the capability is in, what was sent through it, and whether the caller is to be told. -/
structure Wait where
  target : ℕ
  held : Option ℕ
  told : List (List ℤ)
  due : Bool
  deriving DecidableEq

/-- What a kernel call does to the saved capability. -/
def Wait.see (w : Wait) : Dealing → Wait
  | .sent cap mrs => if w.held = some cap then { w with told := w.told ++ [mrs] } else w
  | .deleted slot => if w.held = some slot then { w with held := none } else w

/-- What ends the wait of `q` for `p`: the end of `p`, or a `SYS_THREAD_EXIT` in the name of `p` by a
thread of `q` that makes `q` wait no more. -/
def Table.Departs (T : Table) (m : Message) (T' : Table) (p q : ℕ) : Prop :=
  (T p).active = true ∧ (T' p).active = false ∨
    (m.label = .other ∧ m.mr 0 = 105) ∧ (p = m.badge % 2 ^ 16 ∧ q = m.badge / 2 ^ 16 % 2 ^ 16) ∧
      (T' q).waitingFor ≠ p

instance (T : Table) (m : Message) (T' : Table) (p q : ℕ) : Decidable (T.Departs m T' p q) :=
  inferInstanceAs (Decidable (_ ∨ _))

/-- The wait of `q` after a message. -/
def Wait.after (w : Wait) (boot : Boot) (q : ℕ) (r : Root (K × List Invocation)) (m : Message)
    (t : Root (K × List Invocation)) : Wait :=
  { (r.dealings boot t).foldl Wait.see w with
    due := w.due || decide (r.table.Departs m t.table w.target q) }

/-- History variables: the lives, and the last `SYS_WAIT` of each process in its life. -/
structure Waited where
  lives : Lives
  wait : ℕ → Option Wait

/-- Before the first message. -/
def Waited.start : Waited := ⟨⟨fun _ => 0, fun _ => 0⟩, fun _ => none⟩

/-- The history after a message. -/
def Waited.after (sel4 : SeL4 K) (boot : Boot) (v : Waited) (r : Root (K × List Invocation))
    (m : Message) (t : Root (K × List Invocation)) : Waited where
  lives := v.lives.after r.table m t.table
  wait q :=
    if r.table.Waits m q then
      if r.alloc.allocSlot.1 ≠ 0 ∧ r.Saves sel4 boot then
        some ⟨(toInt32 (m.mr 1)).toNat, some r.alloc.allocSlot.1, [], false⟩
      else none
    else if (r.table q).active = false ∧ (t.table q).active = true then none
    else (v.wait q).map fun w => w.after boot q r m t

/-- A step of the rootserver together with its history. -/
def LivedStep (sel4 : SeL4 K) (boot : Boot) (x : Root (K × List Invocation) × Waited) (m : Message)
    (y : Root (K × List Invocation) × Waited) : Prop :=
  Step (recorded sel4) boot x.1 m y.1 ∧ y.2 = x.2.after sel4 boot x.1 m y.1

/-- `q` is parked in `SYS_WAIT` on `p`, with its reply capability saved. -/
def Root.Parked (r : Root K) (q p : ℕ) : Prop :=
  (r.pcbs q).active = true ∧ (r.pcbs q).waitingFor = p ∧ 0 < p ∧ (r.pcbs q).replyCap ≠ 0

/-- Every parked process waits for a process that is alive, in the life it asked for. -/
def Attended (x : Root (K × List Invocation) × Waited) : Prop :=
  ∀ q p, x.1.Parked q p → x.1.table.Alive p ∧ x.2.lives.asked q = x.2.lives.age p

/-- Until `q` is to be told it is parked, its capability is where the rootserver looks for it, and
nothing was sent through it; afterwards one message was sent, and the capability is gone. -/
def Wait.Settled (w : Wait) (r : Root K) (q : ℕ) : Prop :=
  (w.due = false → (r.Parked q w.target ∧ w.held = some (r.pcbs q).replyCap) ∧ w.told = []) ∧
    (w.due = true → w.told = [[0]] ∧ w.held = none)

/-- Every `SYS_WAIT` of a process that runs is answered once, when its target ends. -/
def Answered (x : Root (K × List Invocation) × Waited) : Prop :=
  ∀ q w, (x.1.pcbs q).active = true → x.2.wait q = some w → w.Settled x.1 q

/-- The message ends a process whose address space has the number of the slot in which the reply
capability of somebody else is saved. -/
def Root.Cuts (boot : Boot) (r : Root K) (m : Message) : Prop :=
  ∃ p q w, r.table.Removes m p ∧ (r.Parked q w ∧ q ≠ p ∧ w ≠ p) ∧
    (r.pcbs p).vspace = (r.pcbs q).replyCap ∧ (r.pcbs p).vspace ≠ boot.rootVspace

namespace Table

/-- The message ends a process while another one waits for it that is not woken: an ordinary process
is killed, or a thread exits and somebody else than its creator waits for it. -/
def Strands (T : Table) (m : Message) : Prop :=
  m.label = .other ∧ ∃ p q : ℕ, T.Alive p ∧ (T q).active = true ∧ q ≠ p ∧ (T q).waitingFor = p ∧
    (m.mr 0 = 102 ∧ toInt32 (m.mr 1) = p ∧ ¬ 0 < (T p).isDriver ∧ (T p).name ≠ shellName ∨
      m.mr 0 = 105 ∧ p = m.badge % 2 ^ 16 ∧ (T p).name.take 12 = shellThreadName ∧
        q ≠ m.badge / 2 ^ 16 % 2 ^ 16)

/-- What every state keeps: PIDs in use are in range, and whoever waits does so for a process that
is alive, in the life it asked for. -/
structure WaitInv (T : Table) (v : Lives) : Prop where
  range : ∀ p, (T p).active = true → 0 < p ∧ p < 256
  waits : ∀ q p : ℕ, (T q).active = true → (T q).waitingFor = p → 0 < p →
    T.Alive p ∧ v.asked q = v.age p

variable {T T' : Table} {v : Lives} {m : Message}

/-- A process that was alive before and is alive now has the same age. -/
theorem age_of_active {p : ℕ} (h : (T p).active = true) : (v.after T m T').age p = v.age p := by
  simp [Lives.after, h]

theorem asked_of_not_waits {q : ℕ} (h : ¬ T.Waits m q) :
    (v.after T m T').asked q = v.asked q := by
  simp [Lives.after, h]

/-- The invariant is kept when whoever still waits did so before and its target goes on. -/
theorem WaitInv.next (h : WaitInv T v) (hno : ∀ q, ¬ T.Waits m q)
    (hrange : ∀ p, (T' p).active = true → 0 < p ∧ p < 256)
    (hkeep : ∀ q p : ℕ, (T' q).active = true → (T' q).waitingFor = p → 0 < p →
      (T q).active = true ∧ (T q).waitingFor = p ∧
        ((T p).active = true → (T' p).active = true)) :
    WaitInv T' (v.after T m T') := by
  refine ⟨hrange, fun q p hq hw hp => ?_⟩
  obtain ⟨hq', hw', hon⟩ := hkeep q p hq hw hp
  obtain ⟨halive, hasked⟩ := h.waits q p hq' hw' hp
  refine ⟨⟨hon halive.1, halive.2⟩, ?_⟩
  rw [asked_of_not_waits (hno q), age_of_active halive.1]
  exact hasked

/-- Who waits after a wake-up waited before, for somebody else. -/
theorem waitingFor_of_woken {p p' : ℕ} {x : Life} (hx : x.active = true) (hp' : 0 < p')
    (h : (woken p x).waitingFor = p') : x.waitingFor = p' ∧ p' ≠ p := by
  unfold woken at h
  split at h
  · change (0 : ℤ) = p' at h
    omega
  · rename_i hno
    refine ⟨h, ?_⟩
    rintro rfl
    exact hno ⟨hx, h⟩

/-- Who is active and waits after everybody was woken from `p` did so before, for another one. -/
theorem of_wakeAll {p q p' : ℕ} (hrange : ∀ q, (T q).active = true → 0 < q ∧ q < 256)
    (hp' : 0 < p') (hq : (T.wakeAll p q).active = true) (hw : (T.wakeAll p q).waitingFor = p') :
    (T q).active = true ∧ (T q).waitingFor = p' ∧ p' ≠ p := by
  rw [wakeAll_active] at hq
  rw [wakeAll, if_pos (mem_pids.mpr (hrange q hq))] at hw
  exact ⟨hq, waitingFor_of_woken hq hp' hw⟩

/-- Who is active and waits after one was woken from `p` did so before, and is another one if its
target is `p`. -/
theorem of_wakeOne {p q i p' : ℕ} (hrange : ∀ q, (T q).active = true → 0 < q ∧ q < 256)
    (hp' : 0 < p') (hi : (T.wakeOne p q i).active = true)
    (hw : (T.wakeOne p q i).waitingFor = p') :
    (T i).active = true ∧ (T i).waitingFor = p' ∧ (p' = p → i ≠ q) := by
  rw [wakeOne_active] at hi
  by_cases hiq : i = q
  · subst hiq
    rw [wakeOne, if_pos (hrange i hi), Function.update_self] at hw
    obtain ⟨hw, hne⟩ := waitingFor_of_woken hi hp' hw
    exact ⟨hi, hw, fun h => absurd h hne⟩
  · refine ⟨hi, ?_, fun _ => hiq⟩
    unfold wakeOne at hw
    split at hw
    · rwa [Function.update_of_ne hiq] at hw
    · exact hw

/-- A message that is not a parking `SYS_WAIT` and strands nobody keeps the invariant. -/
theorem WaitInv.of_moves (h : WaitInv T v) (hmove : T.Moves m T') (hno : ∀ q, ¬ T.Waits m q)
    (hstrand : ¬ T.Strands m) : WaitInv T' (v.after T m T') := by
  cases hmove with
  | same => exact h.next hno h.range fun q p hq hw hp => ⟨hq, hw, id⟩
  | wait sender target hm hsender harg htarget =>
    refine absurd ⟨hsender, hm, ?_⟩ (hno sender)
    rw [harg]
    exact htarget
  | create p name isDriver _ hfree =>
    have hp := freePid_eq_some hfree
    refine h.next hno (fun q hq => ?_) fun q p' hq hw hp' => ?_
    · by_cases hqp : q = p
      · exact hqp ▸ hp.2
      · exact h.range q (by rwa [start_of_ne hqp] at hq)
    · by_cases hqp : q = p
      · subst hqp
        rw [start_self] at hw
        change (0 : ℤ) = p' at hw
        omega
      · rw [start_of_ne hqp] at hq hw
        refine ⟨hq, hw, fun hon => ?_⟩
        rwa [start_of_ne (by rintro rfl; simp [hp.1] at hon)]
  | exit p _ hp =>
    refine h.next hno (fun q hq => ?_) fun q p' hq hw hp' => ?_
    · rw [stop_active, wakeAll_active] at hq
      exact h.range q hq.2
    · rw [stop_active] at hq
      rw [stop_waitingFor] at hw
      obtain ⟨hq', hw', hne⟩ := of_wakeAll h.range hp' hq.2 hw
      exact ⟨hq', hw', fun hon => stop_active.mpr ⟨hne, by rwa [wakeAll_active]⟩⟩
  | respawn p n _ hp _ hfree =>
    have hn := freePid_eq_some hfree
    refine h.next hno (fun q hq => ?_) fun q p' hq hw hp' => ?_
    · rw [stop_active] at hq
      by_cases hqn : q = n
      · exact hqn ▸ hn.2
      · rw [start_of_ne hqn, wakeAll_active] at hq
        exact h.range q hq.2
    · rw [stop_active] at hq
      rw [stop_waitingFor] at hw
      by_cases hqn : q = n
      · subst hqn
        rw [start_self] at hw
        change (0 : ℤ) = p' at hw
        omega
      · rw [start_of_ne hqn] at hq hw
        obtain ⟨hq', hw', hne⟩ := of_wakeAll h.range hp' hq.2 hw
        refine ⟨hq', hw', fun hon => stop_active.mpr ⟨hne, ?_⟩⟩
        rwa [start_of_ne (by rintro rfl; simp [hn.1] at hon), wakeAll_active]
  -- nobody is woken here: whoever waits for the target is stranded
  | kill p hm harg hp hrole =>
    refine h.next hno (fun q hq => h.range q (stop_active.mp hq).2) fun q p' hq hw hp' => ?_
    rw [stop_active] at hq
    rw [stop_waitingFor] at hw
    refine ⟨hq.2, hw, fun hon => stop_active.mpr ⟨?_, hon⟩⟩
    rintro rfl
    exact hstrand ⟨hm.1, p', q, hp, hq.2, hq.1, hw, .inl ⟨hm.2, harg, hrole⟩⟩
  | threadExit hm hp hname =>
    refine h.next hno (fun q hq => ?_) fun q p' hq hw hp' => ?_
    · rw [stop_active, wakeOne_active] at hq
      exact h.range q hq.2
    · rw [stop_active] at hq
      rw [stop_waitingFor] at hw
      obtain ⟨hq', hw', hne⟩ := of_wakeOne h.range hp' hq.2 hw
      refine ⟨hq', hw', fun hon => stop_active.mpr ⟨?_, by rwa [wakeOne_active]⟩⟩
      intro hthread
      refine hstrand ⟨hm.1, _, q, hp, hq', hq.1, hthread ▸ hw', .inr ⟨hm.2, rfl, hname, ?_⟩⟩
      exact hne hthread
  | threadWake hm hp =>
    refine h.next hno (fun q hq => h.range q (by rwa [wakeOne_active] at hq))
      fun q p' hq hw hp' => ?_
    obtain ⟨hq', hw', -⟩ := of_wakeOne h.range hp' hq hw
    exact ⟨hq', hw', fun hon => by rwa [wakeOne_active]⟩

/-- A parking `SYS_WAIT` keeps the invariant: its caller waits for the life that is now. -/
theorem WaitInv.of_wait (h : WaitInv T v) {sender target : ℕ} (hw : T.Waits m sender)
    (hx : (toInt32 (m.mr 1)).toNat = target)
    (hT' : T' = Function.update T sender { T sender with waitingFor := target }) :
    WaitInv T' (v.after T m T') := by
  have htarget : T.Alive target := hx ▸ hw.2.2
  have hactive (q : ℕ) : (T' q).active = (T q).active := by
    by_cases hq : q = sender
    · subst hq
      simp [hT']
    · rw [hT', Function.update_of_ne hq]
  refine ⟨fun q hq => h.range q (by rwa [hactive] at hq), fun q p hq hwait hp => ?_⟩
  rw [hactive] at hq
  by_cases hqs : q = sender
  · subst hqs
    rw [hT', Function.update_self] at hwait
    have hcast : (target : ℤ) = p := hwait
    obtain rfl : target = p := by exact_mod_cast hcast
    refine ⟨⟨by rw [hactive]; exact htarget.1, htarget.2⟩, ?_⟩
    rw [age_of_active htarget.1]
    simp only [Lives.after, if_pos hw, hx]
  · rw [hT', Function.update_of_ne hqs] at hwait
    obtain ⟨halive, hasked⟩ := h.waits q p hq hwait hp
    refine ⟨⟨by rw [hactive]; exact halive.1, halive.2⟩, ?_⟩
    rw [age_of_active halive.1, asked_of_not_waits, hasked]
    intro hw'
    exact hqs (Option.some.inj (hw'.1.symm.trans hw.1))

end Table

/-- Every step that strands nobody keeps the invariant. -/
theorem waitInv_step {r t : Root K} {m : Message} {v : Lives} (h : Table.WaitInv r.table v)
    (hstep : Step sel4 boot r m t) (hstrand : ¬ r.table.Strands m) :
    Table.WaitInv t.table (v.after r.table m t.table) := by
  by_cases hw : ∃ q, r.table.Waits m q
  · obtain ⟨q, hw⟩ := hw
    obtain ⟨target, hx⟩ : ∃ target, (toInt32 (m.mr 1)).toNat = target := ⟨_, rfl⟩
    have htarget : r.table.Alive target := hx ▸ hw.2.2
    have harg : toInt32 (m.mr 1) = target := by
      have := htarget.2.1
      omega
    exact h.of_wait hw hx (step_wait hstep hw.1 hw.2.1 harg htarget)
  · exact h.of_moves (step_moves hstep) (not_exists.mp hw) hstrand

/-- After boot nobody waits. -/
theorem waitInv_booted (v : Lives) : Table.WaitInv Table.booted v := by
  have hbooted (p : ℕ) : (Table.booted p).waitingFor = 0 ∧
      ((Table.booted p).active = true → 0 < p ∧ p < 256) := by
    by_cases h : 1 ≤ p ∧ p ≤ 5
    · obtain rfl | rfl | rfl | rfl | rfl : p = 1 ∨ p = 2 ∨ p = 3 ∨ p = 4 ∨ p = 5 := by omega
      all_goals decide
    · simp [Table.booted_of_ne h]
  refine ⟨fun p => (hbooted p).2, fun q p _ hw hp => ?_⟩
  rw [(hbooted q).1] at hw
  omega

/-! ## The capability of a waiter -/

/-- The slot that a kernel call concerns. -/
def Dealing.slot : Dealing → ℕ
  | .sent cap _ => cap
  | .deleted slot => slot

namespace Wait

variable {w : Wait} {ds : List Dealing} {s : ℕ}

/-- A capability that is gone stays gone. -/
theorem foldl_see_gone (h : w.held = none) : ds.foldl see w = w := by
  induction ds with
  | nil => rfl
  | cons d ds ih =>
    have hd : w.see d = w := by cases d <;> simp [see, h]
    rw [List.foldl_cons, hd, ih]

theorem foldl_see_spared (h : w.held = some s) (hds : ∀ d ∈ ds, d.slot ≠ s) :
    ds.foldl see w = w := by
  induction ds with
  | nil => rfl
  | cons d ds ih =>
    obtain ⟨hd, hds⟩ := List.forall_mem_cons.mp hds
    have hsee : w.see d = w := by
      cases d with
      | sent cap mrs => exact if_neg fun heq => hd (Option.some.inj (heq.symm.trans h))
      | deleted slot => exact if_neg fun heq => hd (Option.some.inj (heq.symm.trans h))
    rw [List.foldl_cons, hsee, ih hds]

/-- Where one of the answered fields has the capability, it is used once. -/
theorem foldl_see_answered {r : Root K} {L : List (Field × List ℤ)} {mrs : List ℤ}
    (h : w.held = some s) (hmem : ∃ a ∈ L, r.saved a.1 = s)
    (hmrs : ∀ a ∈ L, r.saved a.1 = s → a.2 = mrs) :
    (r.answering L ++ ds).foldl see w = { w with told := w.told ++ [mrs], held := none } := by
  induction L with
  | nil => obtain ⟨a, ha, -⟩ := hmem; cases ha
  | cons a L ih =>
    obtain ⟨ha, hmrs⟩ := List.forall_mem_cons.mp hmrs
    rw [Root.answering, List.flatMap_cons, ← Root.answering, List.append_assoc, List.foldl_append]
    by_cases hs : r.saved a.1 = s
    · have hsee : [.sent (r.saved a.1) a.2, .deleted (r.saved a.1)].foldl see w =
          { w with told := w.told ++ [mrs], held := none } := by
        simp [see, hs, h, ha hs]
      rw [hsee, foldl_see_gone rfl]
    · have hsee : [.sent (r.saved a.1) a.2, .deleted (r.saved a.1)].foldl see w = w := by
        refine foldl_see_spared h fun d hd => ?_
        rcases List.mem_pair.mp hd with rfl | rfl <;> exact hs
      rw [hsee]
      refine ih ?_ hmrs
      obtain ⟨b, hb, hbs⟩ := hmem
      refine ⟨b, (List.mem_cons.mp hb).resolve_left ?_, hbs⟩
      rintro rfl
      exact hs hbs

end Wait

section
variable {r t : Root (K × List Invocation)} {m : Message} {v : Waited} {q : ℕ} {w : Wait}

/-- A wait that is over stays over. -/
theorem Wait.Settled.over (h : w.Settled r q) (hdue : w.due = true) :
    (w.after boot q r m t).Settled t q := by
  obtain ⟨htold, hgone⟩ := h.2 hdue
  have hafter : w.after boot q r m t = w := by
    rw [Wait.after, Wait.foldl_see_gone hgone, hdue]
    exact congrArg (fun b => { w with due := b }) hdue.symm
  rw [hafter]
  exact ⟨fun hno => absurd (hdue.symm.trans hno) (by decide), fun _ => ⟨htold, hgone⟩⟩

/-- A wait goes on while nothing happens to its capability, its process and its target. -/
theorem Wait.Settled.goOn (h : w.Settled r q) (hdue : w.due = false)
    (hds : ∀ d ∈ r.dealings boot t, d.slot ≠ r.saved (.waiter q))
    (hsaved : t.saved (.waiter q) = r.saved (.waiter q)) (hactive : (t.pcbs q).active = true)
    (hwaits : (t.table q).waitingFor = w.target) (hdep : ¬ r.table.Departs m t.table w.target q) :
    (w.after boot q r m t).Settled t q := by
  obtain ⟨⟨hparked, hheld⟩, htold⟩ := h.1 hdue
  have hafter : w.after boot q r m t = w := by
    rw [Wait.after, Wait.foldl_see_spared hheld hds, hdue, decide_eq_false hdep]
    exact congrArg (fun b => { w with due := b }) hdue.symm
  rw [hafter]
  have hcap : (t.pcbs q).replyCap = (r.pcbs q).replyCap := hsaved
  refine ⟨fun _ => ⟨⟨⟨hactive, hwaits, hparked.2.2.1, ?_⟩, ?_⟩, htold⟩,
    fun hno => absurd (hdue.symm.trans hno) (by decide)⟩
  · rw [hcap]
    exact hparked.2.2.2
  · rw [hcap]
    exact hheld

/-- A step that concerns neither the process nor any slot. -/
theorem Wait.Settled.calm (h : w.Settled r q) (hdeals : Deals boot [] r t)
    (hsaved : t.saved (.waiter q) = r.saved (.waiter q)) (hlife : t.table q = r.table q)
    (hactive : ∀ p, (t.table p).active = (r.table p).active) :
    (w.after boot q r m t).Settled t q := by
  cases hdue : w.due with
  | true => exact h.over hdue
  | false =>
    have hparked := (h.1 hdue).1.1
    have hwaits : (t.table q).waitingFor = w.target := hlife ▸ hparked.2.1
    refine h.goOn hdue ?_ hsaved ?_ hwaits ?_
    · rw [hdeals.eq]
      exact fun d hd => absurd hd List.not_mem_nil
    · exact (congrArg Life.active hlife).trans hparked.1
    · rintro (⟨hon, hoff⟩ | ⟨-, -, hno⟩)
      · rw [hactive, hon] at hoff
        cases hoff
      · exact hno hwaits

theorem Table.woken_of_ne {p : ℕ} {x : Life} (h : x.waitingFor ≠ p) : woken p x = x :=
  if_neg fun hw => h hw.2

theorem Table.wakeAll_of_ne {T : Table} {p q : ℕ} (h : (T q).waitingFor ≠ p) :
    T.wakeAll p q = T q := by
  rw [wakeAll, woken_of_ne h, ite_self]

theorem Table.wakeOne_of_ne {T : Table} {p q i : ℕ} (h : i = q → (T i).waitingFor ≠ p) :
    T.wakeOne p q i = T i := by
  unfold wakeOne
  split
  · by_cases hi : i = q
    · rw [← hi, Function.update_self, woken_of_ne (h hi)]
    · rw [Function.update_of_ne hi]
  · rfl

theorem notMem_waitersOf {T : Table} {p : ℕ} {l : List ℕ} (h : q ∈ l → (T q).waitingFor ≠ p) :
    ∀ a ∈ T.waitersOf p l, a.1 ≠ .waiter q := by
  intro a ha heq
  obtain ⟨i, hi, hwaits, rfl⟩ := mem_waitersOf.mp ha
  obtain rfl : i = q := Field.waiter.inj heq
  exact h hi hwaits.2

theorem notMem_readersOf {r : Root K} {p : ℕ} {l : List ℕ} :
    ∀ a ∈ r.readersOf p l, a.1 ≠ .waiter q := by
  intro a ha heq
  obtain ⟨i, -, -, rfl⟩ := mem_readersOf.mp ha
  cases heq

/-- Who waits is told when its wait ends, and otherwise goes on waiting. -/
theorem Serving.waiting {L : List (Field × List ℤ)} {D : List ℕ} {started : Option ℕ} {T : Table}
    {p : ℕ} (h : Serving boot r m L D started T)
    (hrange : ∀ q, (r.table q).active = true → 0 < q ∧ q < 256)
    (hp : (r.table p).active = true) (hq : (r.table q).active = true)
    (hw : (r.table q).waitingFor = p) (hpos : 0 < p)
    (hq' : (T q).active = true) (hstrand : ¬ r.table.Strands m) :
    (.waiter q, [0]) ∈ L ∧ r.table.Departs m T p q ∨
      (∀ a ∈ L, a.1 ≠ .waiter q) ∧ (T q).waitingFor = p ∧ ¬ r.table.Departs m T p q := by
  have htold {l : List ℕ} (hl : q ∈ l) : (.waiter q, [0]) ∈ r.table.waitersOf p l :=
    mem_waitersOf.mpr ⟨q, hl, ⟨hq, hw⟩, rfl⟩
  have hends (T' : Table) : r.table.Departs m (T'.stop p) p q :=
    .inl ⟨hp, congrArg Life.active (Function.update_self p _ T')⟩
  have hstays (hw' : (T q).waitingFor = p) (hon : (T p).active = true) :
      (T q).waitingFor = p ∧ ¬ r.table.Departs m T p q := by
    refine ⟨hw', ?_⟩
    rintro (⟨-, hoff⟩ | ⟨-, -, hno⟩)
    · rw [hon] at hoff
      cases hoff
    · exact hno hw'
  have hother {p' : ℕ} (hne : p ≠ p') : (r.table q).waitingFor ≠ p' := by
    rw [hw]
    exact_mod_cast hne
  -- one case for each way a message can serve the parked: who is named ends the wait of `q`, all
  -- others leave it alone
  cases h with
  | silent | window => exact .inr ⟨fun a ha => absurd ha List.not_mem_nil, hstays hw hp⟩
  | drivers | reader =>
    exact .inr ⟨List.forall_mem_singleton.mpr fun heq => (by cases heq), hstays hw hp⟩
  | start n name isDriver _ hfree =>
    have hn := Table.freePid_eq_some hfree
    have hne {i : ℕ} (hi : (r.table i).active = true) : i ≠ n := by
      rintro rfl
      rw [hn.1] at hi
      cases hi
    refine .inr ⟨fun a ha => absurd ha List.not_mem_nil, hstays ?_ ?_⟩
    · rw [Table.start_of_ne (hne hq)]
      exact hw
    · rw [Table.start_of_ne (hne hp)]
      exact hp
  | exit p' =>
    by_cases hpp : p = p'
    · subst hpp
      exact .inl ⟨List.mem_append_right _ (htold (mem_pids.mpr (hrange q hq))), hends _⟩
    · refine .inr ⟨List.forall_mem_append.mpr ⟨notMem_readersOf, notMem_waitersOf fun _ => hother hpp⟩,
        hstays ?_ ?_⟩
      · rw [Table.stop_waitingFor, Table.wakeAll_of_ne (hother hpp)]
        exact hw
      · rw [Table.stop_active, Table.wakeAll_active]
        exact ⟨hpp, hp⟩
  | recover p' =>
    by_cases hpp : p = p'
    · subst hpp
      exact .inl ⟨htold (mem_pids.mpr (hrange q hq)), hends _⟩
    · refine .inr ⟨notMem_waitersOf fun _ => hother hpp, hstays ?_ ?_⟩
      · rw [Table.stop_waitingFor, Table.wakeAll_of_ne (hother hpp)]
        exact hw
      · rw [Table.stop_active, Table.wakeAll_active]
        exact ⟨hpp, hp⟩
  | respawn p' n name isDriver _ _ _ hfree =>
    have hn := Table.freePid_eq_some hfree
    have hne {i : ℕ} (hi : (r.table i).active = true) : i ≠ n := by
      rintro rfl
      rw [hn.1] at hi
      cases hi
    by_cases hpp : p = p'
    · subst hpp
      exact .inl ⟨htold (mem_pids.mpr (hrange q hq)), hends _⟩
    · refine .inr ⟨notMem_waitersOf fun _ => hother hpp, hstays ?_ ?_⟩
      · rw [Table.stop_waitingFor, Table.start_of_ne (hne hq), Table.wakeAll_of_ne (hother hpp)]
        exact hw
      · rw [Table.stop_active, Table.start_of_ne (hne hp), Table.wakeAll_active]
        exact ⟨hpp, hp⟩
  | kill p' hm harg hp' hrole =>
    -- `SYS_KILL` tells nobody, so its target must not be the one that `q` waits for
    refine .inr ⟨fun a ha => absurd ha List.not_mem_nil, hstays ?_ ?_⟩
    · rw [Table.stop_waitingFor]
      exact hw
    · refine Table.stop_active.mpr ⟨?_, hp⟩
      rintro rfl
      exact hstrand ⟨hm.1, p, q, hp', hq, (Table.stop_active.mp hq').1, hw, .inl ⟨hm.2, harg, hrole⟩⟩
  | threadExit p' q' hm hp' hbadge hname =>
    by_cases hpp : p = p'
    · subst hpp
      -- only the parent of a thread is told: any other waiter would be stranded
      have hqq : q = q' := by
        by_contra hqq
        refine hstrand ⟨hm.1, p, q, hp', hq, (Table.stop_active.mp hq').1, hw,
          .inr ⟨hm.2, hbadge.1, hname, ?_⟩⟩
        rwa [← hbadge.2]
      subst hqq
      refine .inl ⟨List.mem_append_right _ (htold ?_), hends _⟩
      rw [if_pos (hrange q hq)]
      exact List.mem_singleton_self q
    · refine .inr ⟨List.forall_mem_append.mpr ⟨notMem_readersOf, notMem_waitersOf fun _ => hother hpp⟩,
        hstays ?_ ?_⟩
      · rw [Table.stop_waitingFor, Table.wakeOne_of_ne fun _ => hother hpp]
        exact hw
      · rw [Table.stop_active, Table.wakeOne_active]
        exact ⟨hpp, hp⟩
  | threadWake p' q' hm hp' hbadge =>
    by_cases hboth : p = p' ∧ q = q'
    · obtain ⟨rfl, rfl⟩ := hboth
      have hrangeq := hrange q hq
      refine .inl ⟨List.mem_append_right _ (htold ?_), .inr ⟨hm, hbadge, ?_⟩⟩
      · rw [if_pos hrangeq]
        exact List.mem_singleton_self q
      · rw [Table.wakeOne, if_pos hrangeq, Function.update_self, Table.woken, if_pos ⟨hq, hw⟩]
        intro (hzero : (0 : ℤ) = p)
        exact hpos.ne (by exact_mod_cast hzero)
    · have hno : q = q' → (r.table q).waitingFor ≠ p' := fun hqq => hother fun hpp => hboth ⟨hpp, hqq⟩
      refine .inr ⟨List.forall_mem_append.mpr ⟨notMem_readersOf, notMem_waitersOf fun hmem => hno ?_⟩,
        hstays ?_ ?_⟩
      · split at hmem
        · exact List.mem_singleton.mp hmem
        · cases hmem
      · rw [Table.wakeOne_of_ne hno]
        exact hw
      · rw [Table.wakeOne_active]
        exact hp

/-! ## One step -/

/-- A waiter is told, or goes on waiting, in a step that serves parked callers. -/
theorem Wait.Settled.serve {L : List (Field × List ℤ)} {D : List ℕ} {started : Option ℕ}
    (h : w.Settled r q) (hserving : Serving boot r m L D started t.table)
    (hclears : Clears boot L D started t.table r t) (hinv : r.table.WaitInv v.lives)
    (hbal : Balanced allPids [] r) (hstrand : ¬ r.table.Strands m) (hrepeat : ¬ r.Repeats m)
    (hcut : ¬ r.Cuts boot m) (hactive : (t.pcbs q).active = true) :
    (w.after boot q r m t).Settled t q := by
  cases hdue : w.due with
  | true => exact h.over hdue
  | false =>
    obtain ⟨⟨hparked, hheld⟩, htold⟩ := h.1 hdue
    have hq : r.Live (.waiter q) := ⟨(hinv.range q hparked.1).2, hparked.1⟩
    have hsame {a : Field × List ℤ} (ha : a ∈ L) (hs : r.saved a.1 = r.saved (.waiter q)) :
        a.1 = .waiter q := hbal.saved_injOn hq (hserving.live a ha) hparked.2.2.2 hs
    have htarget := (hinv.waits q w.target hparked.1 hparked.2.1 hparked.2.2.1).1
    -- either this step ends the wait, and its answer is the only one, or it concerns somebody else
    rcases hserving.waiting hinv.range htarget.1 hparked.1 hparked.2.1 hparked.2.2.1 hactive hstrand
      with ⟨hmem, hdep⟩ | ⟨hnot, hwaits, hdep⟩
    · have hmrs : ∀ a ∈ L, r.saved a.1 = r.saved (.waiter q) → a.2 = [0] := by
        intro a ha hs
        obtain ⟨f, mrs⟩ := a
        obtain rfl : f = .waiter q := hsame ha hs
        exact hserving.told ha
      have hafter : w.after boot q r m t = { w with told := [[0]], held := none, due := true } := by
        rw [Wait.after, hclears.deals.eq, Wait.foldl_see_answered hheld ⟨_, hmem, rfl⟩ hmrs, htold,
          decide_eq_true hdep, Bool.or_true]
        rfl
      rw [hafter]
      exact ⟨fun hno => (by cases hno), fun _ => ⟨rfl, rfl⟩⟩
    · have hfresh : started.map Field.waiter ≠ some (.waiter q) := by
        intro hstart
        obtain ⟨n, hn, hnq⟩ := Option.map_eq_some_iff.mp hstart
        obtain rfl : n = q := Field.waiter.inj hnq
        have hfree := (Table.freePid_eq_some (hserving.freePid hn)).1
        rw [show (r.table n).active = true from hparked.1] at hfree
        cases hfree
      refine h.goOn hdue ?_ ?_ hactive hwaits hdep
      · rw [hclears.deals.eq]
        intro d hd hs
        rcases List.mem_append.mp hd with hd | hd
        · obtain ⟨a, ha, hd⟩ := List.mem_flatMap.mp hd
          rcases List.mem_pair.mp hd with rfl | rfl
          · exact hnot a ha (hsame ha hs)
          · exact hnot a ha (hsame ha hs)
        · obtain ⟨slot, hslot, rfl⟩ := List.mem_map.mp hd
          -- a deleted slot can be that of `q` only if the removed process had it too
          obtain rfl : slot = r.saved (.waiter q) := hs
          obtain ⟨p, ⟨hremoves, hoff⟩, hvspace, hroot⟩ :=
            hserving.spares hbal hrepeat hq hparked.2.2.2 hslot
          refine hcut ⟨p, q, w.target, hremoves, ⟨hparked, ?_, ?_⟩, hvspace, hroot⟩
          · rintro rfl
            exact absurd (hoff.symm.trans hactive) (by decide)
          · rintro rfl
            exact hdep (.inl ⟨htarget.1, hoff⟩)
      · rw [hclears.saved, if_neg]
        rintro (hmem | hstart)
        · obtain ⟨a, ha, heq⟩ := List.mem_map.mp hmem
          exact hnot a ha heq
        · exact hfresh hstart

theorem Table.Waits.parks (h : r.table.Waits m q) : r.parks m = some (.waiter q) := by
  refine parks_eq_some.mpr ⟨uses_wait h.1 h.2.1, ?_⟩
  have hpos := h.2.2.2.1
  have hlt := h.2.2.2.2
  exact ⟨by omega, by omega, h.2.2.1⟩

theorem waits_of_parks (h : r.parks m = some (.waiter q)) : r.table.Waits m q := by
  obtain ⟨huses, hdelays⟩ := parks_eq_some.mp h
  obtain ⟨hpos, hlt, hactive⟩ := hdelays
  obtain ⟨sender, hsender, hl, hcall⟩ := uses_cases huses
  rcases hcall with ⟨-, -, heq⟩ | ⟨h106, heq⟩ | ⟨-, heq⟩
  · cases heq
  · obtain rfl := Field.waiter.inj heq
    exact ⟨hsender, ⟨hl, h106⟩, hactive, by omega, by omega⟩
  · cases heq

/-- A capability that has just been saved. -/
theorem settled_of_waits (h : Step (recorded sel4) boot r m t) (hwaits : r.table.Waits m q)
    (hslot : r.alloc.allocSlot.1 ≠ 0) (hactive : (t.pcbs q).active = true) {target : ℕ}
    (htarget : (toInt32 (m.mr 1)).toNat = target) :
    (⟨target, some r.alloc.allocSlot.1, [], false⟩ : Wait).Settled t q := by
  obtain ⟨hsaved, -⟩ := step_parks h hwaits.parks
  have hcap : (t.pcbs q).replyCap = r.alloc.allocSlot.1 :=
    (congrFun hsaved (.waiter q)).trans (Function.update_self _ _ _)
  have halive : r.table.Alive target := htarget ▸ hwaits.2.2
  have hpos := halive.2.1
  have htable := step_wait h hwaits.1 hwaits.2.1
    (show toInt32 (m.mr 1) = target by omega) halive
  have hlife : (t.table q).waitingFor = target := by rw [htable, Function.update_self]
  refine ⟨fun _ => ⟨⟨⟨hactive, hlife, hpos, ?_⟩, ?_⟩, rfl⟩, fun hno => (by cases hno)⟩
  · rw [hcap]
    exact hslot
  · rw [hcap]

/-- What one step keeps. -/
theorem answered_step (h : Answered (r, v)) (hstep : Step (recorded sel4) boot r m t)
    (hinv : r.table.WaitInv v.lives) (hbal : Balanced allPids [] r)
    (hstrand : ¬ r.table.Strands m) (hrepeat : ¬ r.Repeats m) (hcut : ¬ r.Cuts boot m) :
    Answered (t, v.after sel4 boot r m t) := by
  intro q w hactive hw
  by_cases hwaits : r.table.Waits m q
  · simp only [Waited.after, if_pos hwaits] at hw
    split at hw
    · rename_i hslot
      obtain rfl := Option.some.inj hw
      exact settled_of_waits hstep hwaits hslot.1 hactive rfl
    · cases hw
  simp only [Waited.after, if_neg hwaits] at hw
  split at hw
  · cases hw
  · rename_i hlife
    obtain ⟨w₀, hw₀, rfl⟩ := Option.map_eq_some_iff.mp hw
    have hon : (r.pcbs q).active = true := by
      by_contra hoff
      exact hlife ⟨Bool.eq_false_iff.mpr hoff, hactive⟩
    have hsettled : w₀.Settled r q := h q w₀ hon hw₀
    -- a step parks a caller, opens a pipe, or serves: the first two send nothing through a saved
    -- slot
    cases hparks : r.parks m with
    | some f =>
      obtain ⟨hsaved, hlog⟩ := step_parks hstep hparks
      have hne : f ≠ .waiter q := by
        rintro rfl
        exact hwaits (waits_of_parks hparks)
      obtain ⟨hactives, hothers⟩ := table_of_parks hstep hparks
      refine hsettled.calm ⟨_, hlog, rfl⟩ ?_ (hothers q hne) hactives
      rw [hsaved, Function.update_of_ne hne.symm]
    | none =>
      cases hopens : r.opens m with
      | some f =>
        obtain ⟨hdeals, hsaved, htable⟩ := step_opens hstep hopens
        refine hsettled.calm hdeals ?_ (by rw [htable]) fun _ => by rw [htable]
        rw [hsaved, Function.update_of_ne]
        rintro rfl
        obtain ⟨i, hi⟩ := reader_of_opens hopens
        cases hi
      | none =>
        obtain ⟨L, D, started, hserving, hclears⟩ := step_serving hstep hparks hopens
        exact hsettled.serve hserving hclears hinv hbal hstrand hrepeat hcut hactive

end

/-! ## Runs -/

/-- No waiter is left behind by the end of its target, and nobody else has a claim to its slot. -/
def Root.Minds (boot : Boot) (r : Root K) (m : Message) : Prop :=
  ¬ r.table.Strands m ∧ ¬ r.Repeats m ∧ ¬ r.Cuts boot m

theorem waitInv_of_run {dev : Devices} {r : Root (K × List Invocation)} {es : List Message}
    {y : Root (K × List Invocation) × Waited} (hboot : Booted (recorded sel4) boot dev r)
    (hrun : Run (guarded (LivedStep sel4 boot) fun x m => ¬ x.1.table.Strands m) (r, .start) es y) :
    y.1.table.WaitInv y.2.lives := by
  refine Run.invariant (I := fun x : Root (K × List Invocation) × Waited =>
    x.1.table.WaitInv x.2.lives) (fun x m z hx hstep => ?_) hrun ?_
  · rw [hstep.2.2]
    exact waitInv_step hx hstep.2.1 hstep.1
  · change Table.WaitInv r.table _
    rw [table_of_booted hboot]
    exact waitInv_booted _

/-- The second half of the run: slots are shared with nobody, so each waiter is answered once. -/
theorem once_of_run {dev : Devices} {r : Root (K × List Invocation)} {es : List Message}
    {y : Root (K × List Invocation) × Waited} (hboot : Booted (recorded sel4) boot dev r)
    (hrun : Run (guarded (LivedStep sel4 boot) fun x m => x.1.Minds boot m) (r, .start) es y) :
    Answered y := by
  refine (Run.invariant (I := fun x : Root (K × List Invocation) × Waited =>
    (x.1.table.WaitInv x.2.lives ∧ Balanced allPids [] x.1) ∧ Answered x)
    (fun x m z hx hstep => ?_) hrun ?_).2
  · obtain ⟨r, v⟩ := x
    obtain ⟨t, v'⟩ := z
    obtain ⟨⟨hstrand, hrepeat, hcut⟩, hrun, hafter⟩ := hstep
    obtain rfl : v' = v.after sel4 boot r m t := hafter
    obtain ⟨⟨hinv, hbal⟩, hanswered⟩ := hx
    exact ⟨⟨waitInv_step hinv hrun hstrand, hbal.step hrun hrepeat⟩,
      answered_step hanswered hrun hinv hbal hstrand hrepeat hcut⟩
  · refine ⟨⟨?_, .booted hboot⟩, fun q w _ hw => (by cases hw)⟩
    change Table.WaitInv r.table _
    rw [table_of_booted hboot]
    exact waitInv_booted _

/-- In every run from boot in which no step strands a waiter, whoever is parked in `SYS_WAIT` waits
for a process that is alive and is the one it asked to wait for. Where moreover nobody else has a
claim to the slot of a waiter, every waiter is answered once, when its target ends. -/
theorem waiters_of_run {dev : Devices} {r : Root (K × List Invocation)} {es : List Message}
    {y : Root (K × List Invocation) × Waited} (hboot : Booted (recorded sel4) boot dev r) :
    (Run (guarded (LivedStep sel4 boot) fun x m => ¬ x.1.table.Strands m) (r, .start) es y →
      Attended y) ∧
    (Run (guarded (LivedStep sel4 boot) fun x m => x.1.Minds boot m) (r, .start) es y →
      Answered y) := by
  refine ⟨fun hrun q p hparked => ?_, once_of_run hboot⟩
  exact (waitInv_of_run hboot hrun).waits q p hparked.1 hparked.2.1 hparked.2.2.1

/-! ## Runs of a small system -/

variable (sel4 boot) in
/-- A step with its history, if the rootserver comes back from the message. -/
def lived (x : Root (K × List Invocation) × Waited) (m : Message) :
    Option (Root (K × List Invocation) × Waited) :=
  (next (recorded sel4) boot x.1 m).map fun t => (t, x.2.after sel4 boot x.1 m t)

theorem livedStep_of {x y : Root (K × List Invocation) × Waited} {m : Message}
    (h : lived sel4 boot x m = some y) : LivedStep sel4 boot x m y := by
  obtain ⟨t, hnext, rfl⟩ := Option.map_eq_some_iff.mp h
  exact ⟨step_of_next _ _ hnext, rfl⟩

/-- `SYS_CLONE` by the shell, for no pipe. -/
def cloneCall : Message :=
  { badge := 5, mr := fun n => if n = 0 then 101 else if n = 8 then 2 ^ 64 - 1 else 0 }

/-- `SYS_WAIT` of the shell for a process. -/
def waitCall (p : ℕ) : Message := { badge := 5, mr := fun n => if n = 0 then 106 else p }

/-- `SYS_KILL` of PID 6 by the thread with PID 7. -/
def killCall : Message := { badge := 5 * 2 ^ 16 + 7, mr := fun n => if n = 0 then 102 else 6 }

/-- A driver faults. -/
def driverFault : Message := { badge := 1, label := .capFault, mr := fun _ => 0 }

/-- A message that is no kill, no exit and not `SYS_SHM_GET` does a waiter no harm. -/
theorem minds_of {r : Root K} {m : Message}
    (h : m.label ≠ .other ∨ m.mr 0 ≠ 102 ∧ m.mr 0 ≠ 103 ∧ m.mr 0 ≠ 105 ∧ m.mr 0 ≠ 107) :
    r.Minds boot m := by
  refine ⟨?_, ?_, ?_⟩
  · rintro ⟨hl, -, -, -, -, -, -, ⟨hm, -⟩ | ⟨hm, -⟩⟩ <;> tauto
  · rintro ⟨⟨hl, hm⟩, -⟩
    tauto
  · rintro ⟨-, -, -, ⟨hl, -, ⟨hm, -⟩ | ⟨hm, -⟩⟩, -⟩ <;> tauto

/-- The shell waits for a driver. -/
def waitingState : Root (Unit × List Invocation) × Waited :=
  (lived granting someBoot (loggedRoot, .start) (waitCall 1)).get (by decide +kernel)

/-- The driver has been recovered. -/
def toldState : Root (Unit × List Invocation) × Waited :=
  (lived granting someBoot waitingState driverFault).get (by decide +kernel)

theorem run_waitingState : Run (guarded (LivedStep granting someBoot) fun x m => x.1.Minds someBoot m)
    (loggedRoot, .start) [waitCall 1] waitingState :=
  .single ⟨minds_of (.inr (by decide)), livedStep_of (Option.some_get _).symm⟩

theorem run_toldState : Run (guarded (LivedStep granting someBoot) fun x m => x.1.Minds someBoot m)
    (loggedRoot, .start) ([waitCall 1] ++ [driverFault]) toldState :=
  run_waitingState.snoc ⟨minds_of (.inl (by decide)), livedStep_of (Option.some_get _).symm⟩

/-- The shell is parked and not told, and then told once. -/
theorem waiters_of_run_told :
    ((waitingState.1.Parked 5 1 ∧ Attended waitingState) ∧ Answered waitingState) ∧
      toldState.2.wait 5 = some ⟨1, none, [[0]], true⟩ ∧ Attended toldState ∧ Answered toldState := by
  have hmild {es : List Message} {y : Root (Unit × List Invocation) × Waited}
      (h : Run (guarded (LivedStep granting someBoot) fun x m => x.1.Minds someBoot m)
        (loggedRoot, .start) es y) :
      Run (guarded (LivedStep granting someBoot) fun x m => ¬ x.1.table.Strands m)
        (loggedRoot, .start) es y :=
    h.mono fun _ _ _ hstep => ⟨hstep.1.1, hstep.2⟩
  refine ⟨⟨⟨?_, (waiters_of_run booted_loggedRoot).1 (hmild run_waitingState)⟩,
    (waiters_of_run booted_loggedRoot).2 run_waitingState⟩, by decide +kernel,
    (waiters_of_run booted_loggedRoot).1 (hmild run_toldState),
    (waiters_of_run booted_loggedRoot).2 run_toldState⟩
  unfold Root.Parked
  decide +kernel

/-! The shell starts two threads and waits for the first, which the second then kills. -/

/-- The messages of this run. -/
def strandCalls : List Message := [cloneCall, cloneCall, waitCall 6, killCall]

/-- The second thread has killed the first. -/
def strandedState : Root (Unit × List Invocation) × Waited :=
  (runSteps (lived granting someBoot) (loggedRoot, .start) strandCalls).get (by decide +kernel)

theorem not_attended_of {x : Root (K × List Invocation) × Waited} {q p : ℕ}
    (hparked : x.1.Parked q p) (hdead : ¬ x.1.table.Alive p) : ¬ Attended x :=
  fun h => hdead (h q p hparked).1

/-- A waiter is left behind: the shell stays parked on the thread that was killed, and was not
told. -/
theorem not_attended_stranded : Booted (recorded granting) someBoot someDevices loggedRoot ∧
    Run (LivedStep granting someBoot) (loggedRoot, .start) strandCalls strandedState ∧
    ¬ Attended strandedState ∧ ¬ Answered strandedState := by
  have hparked : strandedState.1.Parked 5 6 := by
    unfold Root.Parked
    decide +kernel
  have hdead : ¬ strandedState.1.table.Alive 6 := by decide +kernel
  have hwait : (strandedState.2.wait 5).map (fun w => (w.due, w.told)) = some (true, []) := by
    decide +kernel
  refine ⟨booted_loggedRoot, ?_, not_attended_of hparked hdead, fun h => ?_⟩
  · exact (Run.of_runSteps (Option.some_get _).symm).mono fun _ _ _ hxy => livedStep_of hxy
  · obtain ⟨w, hw, heq⟩ := Option.map_eq_some_iff.mp hwait
    obtain ⟨hdue, htold⟩ := Prod.mk.inj heq
    have htold' := ((h 5 w hparked.1 hw).2 hdue).1
    rw [htold] at htold'
    cases htold'

end PsychWard.Rootserver
