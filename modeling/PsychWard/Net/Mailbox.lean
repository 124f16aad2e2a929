import PsychWard.Net.Frames

/-!
# The mailbox

The shell sets the mailbox word to 1, sends one command to the driver and waits for the word to become
0. One word serves all commands, and the driver also clears it when a synchronisation ends that
nobody waits for, and at every DNS answer. `Settled` says of a step that the driver cleared the word
under a waiting shell only because the shell's operation is finished, and that the address the shell
finds after its query was written by an answer that came after it. `Timely` excludes the DNS answers
and SNTP replies that arrive while the shell waits for something else.
-/

namespace PsychWard.Net

open Clock Traced

/-- The address in a frame that is a DNS answer. -/
def dnsAnswerIn (mem : Window) (base : ℕ) : Option (List UInt8) :=
  if IsUdpFrom mem base 53 then
    ((dnsAnswer rxBufferLen (base + rxBufferLen) (transportOf mem base + udpHeader)).val mem).join
  else none

theorem dnsAnswerIn_eq_some {mem : Window} {base : ℕ} {ip : List UInt8} :
    dnsAnswerIn mem base = some ip ↔ IsDnsAnswer mem base ip := by
  rw [dnsAnswerIn, IsDnsAnswer, Option.ite_none_right_eq_some, Option.join_eq_some_iff]

/-- The operation that the shell waits for. -/
structure Waiting where
  msg : NetMessage
  /-- the driver has received the message -/
  taken : Bool
  /-- the driver has sent what the message asks for -/
  asked : Bool
deriving DecidableEq, Repr

/-- The driver and the shell. -/
structure Exchange where
  net : NetDriver
  op : Option Waiting
  /-- the address in the window was written by an answer that came after the last query -/
  fresh : Bool

inductive ExchangeEvent
  /-- the shell sets the mailbox word and sends a command -/
  | send (m : NetMessage)
  /-- the shell finds the mailbox word cleared -/
  | see
  /-- a call of the driver's main loop -/
  | driver (e : NetEvent)

/-- The driver sends the request of the waiting operation in this call: when it takes the message, or
when the gateway's address arrives that the request waits for. -/
def asksNow (n : NetDriver) (w : Waiting) : NetEvent → Bool
  | .command m _ => n.haveRouterMac && !(m.cmd == .ntp && n.ntpOutstanding)
  | .frame descId mem _ =>
    decide (descId < 4) && decide (IsArpReply mem (rxBufferOffset descId)) && !n.haveRouterMac &&
      w.taken && n.pendingCmd == w.msg.cmd
  | _ => false

/-- What a call makes of the operation. -/
def Waiting.after (w : Waiting) (n : NetDriver) (e : NetEvent) : Waiting where
  msg := w.msg
  taken := w.taken || (match e with | .command _ _ => true | _ => false)
  asked := w.asked || asksNow n w e

/-- Whether the address in the window answers the last query, after a call. -/
def freshAfter (x : Exchange) : NetEvent → Bool
  | .frame descId mem _ =>
    if descId < 4 ∧ (dnsAnswerIn mem (rxBufferOffset descId)).isSome = true then
      match x.op with
      | some w => w.msg.cmd == .resolve && w.asked
      | none => false
    else x.fresh
  | _ => x.fresh

/-- The driver receives the message that the waiting shell sent, once. -/
def canTake (x : Exchange) : NetEvent → Bool
  | .command m _ => match x.op with
    | some w => !w.taken && m == w.msg
    | none => false
  | _ => true

/-- One step of the two; `none` when it cannot be taken. -/
def exchangeStep (x : Exchange) : ExchangeEvent → Option Exchange
  | .send m =>
    if x.op.isNone ∧ 4 ≤ m.length ∧ m.cmd ≠ .none then
      some
        { net := { x.net with mailbox := 1 }
          op := some ⟨m, false, false⟩
          fresh := if m.cmd = .resolve then false else x.fresh }
    else none
  | .see => match x.op with
    | some w => if w.taken ∧ x.net.mailbox = 0 then some { x with op := none } else none
    | none => none
  | .driver e =>
    if canTake x e then
      some
        { net := netStep x.net e
          op := x.op.map (·.after x.net e)
          fresh := freshAfter x e }
    else none

def ExchangeStep (x : Exchange) (e : ExchangeEvent) (x' : Exchange) : Prop :=
  exchangeStep x e = some x'

/-- The two after the driver's start. -/
def Exchange.start (uptimeMs : ℕ) : Exchange := ⟨.start uptimeMs, none, false⟩

/-- The call finishes the operation: what it was about is done, answered, given up after the last
timeout, or refused. -/
inductive Finishes (n : NetDriver) (w : Waiting) : NetEvent → Prop
  | status {timeMs : ℕ} (h : w.msg.cmd = .status) : Finishes n w (.command w.msg timeMs)
  | recv {timeMs : ℕ} (h : w.msg.cmd = .recv) : Finishes n w (.command w.msg timeMs)
  | send {e : NetEvent} (h : w.msg.cmd = .send) (hask : asksNow n w e = true) : Finishes n w e
  | echo {descId timeMs : ℕ} {mem : Window} (h : w.msg.cmd = .ping) (hask : w.asked = true)
      (hreply : IsEchoReply mem (rxBufferOffset descId) n.pingOutstandingSeq)
      (hlast : n.pingSeriesRemaining = 0) : Finishes n w (.frame descId mem timeMs)
  | timeout {timeMs : ℕ} (h : w.msg.cmd = .ping) (hask : w.asked = true)
      (hlate : pingTimeoutLoops ≤ n.loopsPassed) (hlast : n.pingSeriesRemaining = 0) :
      Finishes n w (.pingTimeout timeMs)
  | answer {descId timeMs : ℕ} {mem : Window} {ip : List UInt8} (h : w.msg.cmd = .resolve)
      (hask : w.asked = true) (hanswer : IsDnsAnswer mem (rxBufferOffset descId) ip) :
      Finishes n w (.frame descId mem timeMs)
  | reply {descId timeMs : ℕ} {mem : Window} (h : w.msg.cmd = .ntp) (hask : w.asked = true)
      (hreply : IsUdpFrom mem (rxBufferOffset descId) 123) : Finishes n w (.frame descId mem timeMs)
  | inFlight {timeMs : ℕ} (h : w.msg.cmd = .ntp) (hout : n.ntpOutstanding = true) :
      Finishes n w (.command w.msg timeMs)

/-- The step released the shell only when its operation was finished. -/
structure Settled (x : Exchange) (e : ExchangeEvent) (x' : Exchange) : Prop where
  mailbox : ∀ w ev, x.op = some w → e = .driver ev → x.net.mailbox = 1 → x'.net.mailbox = 0 →
    Finishes x.net w ev
  address : ∀ w, x'.op = some w → w.msg.cmd = .resolve → x'.net.mailbox = 0 → x'.fresh = true

/-- A frame that the driver takes for a DNS answer, or for the reply to an SNTP request, arrives when
the shell does not wait, or waits for that answer after its request was sent. -/
def Timely (x : Exchange) : ExchangeEvent → Prop
  | .driver (.frame descId mem _) => ∀ w, x.op = some w → x.net.mailbox = 1 → descId < 4 →
    (∀ ip, IsDnsAnswer mem (rxBufferOffset descId) ip → w.msg.cmd = .resolve ∧ w.asked = true) ∧
    (IsUdpFrom mem (rxBufferOffset descId) 123 → x.net.ntpOutstanding = true →
      w.msg.cmd = .ntp ∧ w.asked = true)
  | _ => True

/-! ## The invariant -/

/-- A command that only the shell puts in `pending_cmd`. -/
def ShellOnly (c : NetCommand) : Prop := c = .ping ∨ c = .send ∨ c = .resolve

theorem not_shellOnly_none : ¬ ShellOnly .none := by
  rintro (hs | hs | hs) <;> cases hs

theorem not_shellOnly_ntp : ¬ ShellOnly .ntp := by
  rintro (hs | hs | hs) <;> cases hs

/-- A ping series is under way. -/
def Active (n : NetDriver) : Prop := n.pingOutstanding = true ∨ 0 < n.pingSeriesRemaining

/-- What the driver has in hand for the shell belongs to the operation that the shell waits for. -/
structure MailboxInv (x : Exchange) : Prop where
  taken : ∀ w, x.op = some w → w.asked = true → w.taken = true
  waits : ∀ w, x.op = some w → w.taken = false → x.net.mailbox = 1
  pending : ShellOnly x.net.pendingCmd → ∃ w, x.op = some w ∧ w.msg.cmd = x.net.pendingCmd ∧
    w.taken = true ∧ w.asked = false ∧ x.net.mailbox = 1
  pings : Active x.net → ∃ w, x.op = some w ∧ w.msg.cmd = .ping ∧ w.asked = true ∧ x.net.mailbox = 1
  address : ∀ w, x.op = some w → w.msg.cmd = .resolve → x.net.mailbox ≠ 1 →
    w.asked = true ∧ x.fresh = true

/-- The call releases nobody and takes up nothing new. -/
structure Calm (n n' : NetDriver) : Prop where
  mailbox : n'.mailbox = n.mailbox
  pendingCmd : ShellOnly n'.pendingCmd → n'.pendingCmd = n.pendingCmd
  active : Active n' → Active n

namespace Calm

variable {n n' n'' : NetDriver}

theorem refl (n : NetDriver) : Calm n n := ⟨rfl, fun _ => rfl, id⟩

theorem trans (h : Calm n n') (h' : Calm n' n'') : Calm n n'' where
  mailbox := h'.mailbox.trans h.mailbox
  pendingCmd hs := (h'.pendingCmd hs).trans (h.pendingCmd (h'.pendingCmd hs ▸ hs))
  active ha := h.active (h'.active ha)

theorem checkPingSend (timeMs : ℕ) : Calm n (n.checkPingSend timeMs) := by
  rw [NetDriver.checkPingSend]
  split
  · exact .refl n
  · rename_i hidle
    have hactive : Active n := by
      rw [Bool.or_eq_true, not_or, beq_iff_eq] at hidle
      exact .inr (Nat.pos_of_ne_zero hidle.2)
    split
    · rw [NetDriver.sendNextPing]
      split <;> exact ⟨rfl, fun _ => rfl, fun _ => hactive⟩
    · exact .refl n

theorem checkNtpResync (timeMs uptimeMs : ℕ) : Calm n (n.checkNtpResync timeMs uptimeMs) := by
  rw [NetDriver.checkNtpResync]
  split
  · exact .refl n
  · split
    · exact .refl n
    · split
      · exact ⟨rfl, fun _ => rfl, id⟩
      · exact ⟨rfl, fun hs => (not_shellOnly_ntp hs).elim, id⟩

theorem checkBootNtpTimeout (uptimeMs : ℕ) : Calm n (n.checkBootNtpTimeout uptimeMs) := by
  rw [NetDriver.checkBootNtpTimeout, NetDriver.client, NtpClient.checkBootNtpTimeout]
  split
  · exact .refl n
  · split
    · exact .refl n
    · refine ⟨rfl, fun hs => ?_, id⟩
      simp only [NtpClient.signalNetDriverReady] at hs ⊢
      split at hs
      · exact (not_shellOnly_none hs).elim
      · rename_i hne
        rw [if_neg hne]

end Calm

/-- A started series releases nobody and leaves what is pending. -/
theorem startPingSeries_same (n : NetDriver) (count timeMs : ℕ) :
    (n.startPingSeries count timeMs).mailbox = n.mailbox ∧
      (ShellOnly (n.startPingSeries count timeMs).pendingCmd →
        (n.startPingSeries count timeMs).pendingCmd = n.pendingCmd) := by
  have hcalm := Calm.checkPingSend (n := { n with
    pingSeriesRemaining := clampPings count
    pingOutstanding := false
    pingNextSendMs := 0 }) timeMs
  exact ⟨hcalm.mailbox, hcalm.pendingCmd⟩

/-- The series goes on, or it is over and the mailbox is cleared. -/
theorem scheduleNextPing_cases (n : NetDriver) (timeMs : ℕ) :
    (0 < n.pingSeriesRemaining ∧ Calm n (n.scheduleNextPing timeMs)) ∨
      (n.pingSeriesRemaining = 0 ∧ n.scheduleNextPing timeMs = { n with mailbox := 0 }) := by
  rw [NetDriver.scheduleNextPing]
  split
  · rename_i hpos
    refine .inl ⟨hpos, rfl, fun _ => rfl, ?_⟩
    rintro (hout | hrem)
    · exact .inl hout
    · exact .inr hrem
  · rename_i hzero
    exact .inr ⟨Nat.eq_zero_of_not_pos hzero, rfl⟩

section
variable {x : Exchange} {e : NetEvent} {n' : NetDriver} {w : Waiting}

theorem asksNow_taken (hask : asksNow x.net w e = true) : (w.after x.net e).taken = true := by
  cases e with
  | frame descId mem t =>
    simp only [asksNow, Bool.and_eq_true] at hask
    simp [Waiting.after, hask.1.2]
  | command m t => simp [Waiting.after]
  | turn | pingTimeout | pingSend | ntpResync | bootTimeout => cases hask

/-- An answer keeps the address fresh for the query it belongs to. -/
theorem freshAfter_eq_true (hw : x.op = some w) (hcmd : w.msg.cmd = .resolve)
    (hask : w.asked = true) (hfresh : x.fresh = true ∨ ∃ descId mem t ip, e = .frame descId mem t ∧
      descId < 4 ∧ IsDnsAnswer mem (rxBufferOffset descId) ip) : freshAfter x e = true := by
  cases e with
  | frame descId mem t =>
    rw [freshAfter, hw]
    split
    · simp [hcmd, hask]
    · rename_i hno
      rcases hfresh with hfresh | ⟨_, _, _, ip, he, hdesc, hip⟩
      · exact hfresh
      · obtain ⟨rfl, rfl, rfl⟩ := NetEvent.frame.inj he
        refine absurd ⟨hdesc, ?_⟩ hno
        rw [dnsAnswerIn_eq_some.mpr hip]
        rfl
  | command | turn | pingTimeout | pingSend | ntpResync | bootTimeout =>
    rcases hfresh with hfresh | ⟨_, _, _, ip, he, -⟩
    · exact hfresh
    · cases he

/-- The exchange after a call of the driver. -/
def driven (x : Exchange) (e : NetEvent) (n' : NetDriver) : Exchange where
  net := n'
  op := x.op.map (·.after x.net e)
  fresh := freshAfter x e

theorem driven_op {w' : Waiting} (h : (driven x e n').op = some w') :
    ∃ w, x.op = some w ∧ w.after x.net e = w' :=
  Option.map_eq_some_iff.mp h

/-- A calm call keeps the invariant, unless it sends what the shell waits for and leaves it
pending. -/
theorem MailboxInv.calm (h : MailboxInv x) (hcalm : Calm x.net n')
    (hask : ∀ w, x.op = some w → ShellOnly n'.pendingCmd → asksNow x.net w e = false) :
    MailboxInv (driven x e n') where
  taken w' hw' hasked := by
    obtain ⟨w, hw, rfl⟩ := driven_op hw'
    rcases Bool.or_eq_true _ _ ▸ hasked with hasked | hnow
    · simp [Waiting.after, h.taken w hw hasked]
    · exact asksNow_taken hnow
  waits w' hw' htaken := by
    obtain ⟨w, hw, rfl⟩ := driven_op hw'
    exact hcalm.mailbox.trans (h.waits w hw (Bool.or_eq_false_iff.mp htaken).1)
  pending hs := by
    have hsame := hcalm.pendingCmd hs
    obtain ⟨w, hw, hcmd, htaken, hasked, hmb⟩ := h.pending (hsame ▸ hs)
    refine ⟨w.after x.net e, by rw [driven, hw]; rfl, hcmd.trans hsame.symm, ?_, ?_,
      hcalm.mailbox.trans hmb⟩
    · simp [Waiting.after, htaken]
    · simp [Waiting.after, hasked, hask w hw hs]
  pings ha := by
    obtain ⟨w, hw, hcmd, hasked, hmb⟩ := h.pings (hcalm.active ha)
    refine ⟨w.after x.net e, by rw [driven, hw]; rfl, hcmd, ?_, hcalm.mailbox.trans hmb⟩
    simp [Waiting.after, hasked]
  address w' hw' hcmd hmb := by
    obtain ⟨w, hw, rfl⟩ := driven_op hw'
    obtain ⟨hasked, hfresh⟩ := h.address w hw hcmd (hcalm.mailbox ▸ hmb)
    refine ⟨by simp [Waiting.after, hasked], freshAfter_eq_true hw hcmd hasked (.inl hfresh)⟩

/-- A call that clears the mailbox keeps the invariant when it leaves nothing in hand. -/
theorem MailboxInv.released (hpend : ¬ ShellOnly n'.pendingCmd)
    (hactive : ¬ Active n')
    (htaken : ∀ w, x.op = some w → (w.after x.net e).taken = true)
    (hfresh : ∀ w, x.op = some w → w.msg.cmd = .resolve →
      w.asked = true ∧ freshAfter x e = true) : MailboxInv (driven x e n') where
  taken w' hw' _ := by
    obtain ⟨w, hw, rfl⟩ := driven_op hw'
    exact htaken w hw
  waits w' hw' hno := by
    obtain ⟨w, hw, rfl⟩ := driven_op hw'
    exact absurd (htaken w hw) (by rw [hno]; decide)
  pending hs := absurd hs hpend
  pings ha := absurd ha hactive
  address w' hw' hcmd _ := by
    obtain ⟨w, hw, rfl⟩ := driven_op hw'
    obtain ⟨hasked, hf⟩ := hfresh w hw hcmd
    exact ⟨by simp [Waiting.after, hasked], hf⟩

/-- What a call of the driver must keep: the invariant, and that a released shell is finished. -/
def Settles (x : Exchange) (e : NetEvent) (n' : NetDriver) : Prop :=
  MailboxInv (driven x e n') ∧
    ∀ w, x.op = some w → x.net.mailbox = 1 → n'.mailbox = 0 → Finishes x.net w e

/-- A call that does not clear the mailbox releases nobody. -/
theorem settles_of_same (hinv : MailboxInv (driven x e n')) (h : n'.mailbox = x.net.mailbox) :
    Settles x e n' := by
  refine ⟨hinv, ?_⟩
  intro w _ h1 h0
  rw [h, h1] at h0
  cases h0

theorem MailboxInv.not_pending (h : MailboxInv x) (hw : x.op = some w)
    (hno : w.taken = false ∨ w.asked = true) : ¬ ShellOnly x.net.pendingCmd := by
  intro hs
  obtain ⟨w', hw', -, htaken, hasked, -⟩ := h.pending hs
  obtain rfl := Option.some.inj (hw.symm.trans hw')
  rcases hno with hno | hno
  · exact Bool.false_ne_true (hno.symm.trans htaken)
  · exact Bool.false_ne_true (hasked.symm.trans hno)

theorem MailboxInv.not_active (h : MailboxInv x) (hw : x.op = some w)
    (hno : w.taken = false ∨ w.msg.cmd ≠ .ping) : ¬ Active x.net := by
  intro ha
  obtain ⟨w', hw', hcmd, hasked, -⟩ := h.pings ha
  obtain rfl := Option.some.inj (hw.symm.trans hw')
  rcases hno with hno | hno
  · exact Bool.false_ne_true (hno.symm.trans (h.taken _ hw hasked))
  · exact hno hcmd

/-- Nothing is in hand unless the waiting operation has it. -/
theorem MailboxInv.unclaimed (h : MailboxInv x) (hw : ∀ w, x.op = some w → x.net.mailbox = 1 →
    w.asked = true ∧ w.msg.cmd ≠ .ping) : ¬ ShellOnly x.net.pendingCmd ∧ ¬ Active x.net := by
  constructor
  · intro hs
    obtain ⟨w, hop, -, -, hasked, hmb⟩ := h.pending hs
    exact Bool.false_ne_true (hasked.symm.trans (hw w hop hmb).1)
  · intro ha
    obtain ⟨w, hop, hcmd, -, hmb⟩ := h.pings ha
    exact (hw w hop hmb).2 hcmd

/-! ## The calls one by one -/

/-- The last ping of a series is over, by its reply or by its timeout. -/
theorem settles_lastPing {n : NetDriver} {timeMs : ℕ} (h : MailboxInv x)
    (hn : Calm x.net n) (hmac : n.pingOutstanding = false) (ha : Active x.net)
    (hfin : ∀ w, x.op = some w → w.msg.cmd = .ping → w.asked = true → n.pingSeriesRemaining = 0 →
      Finishes x.net w e) (hcmd : ∀ m t, e ≠ .command m t)
    (hask : ∀ w, x.op = some w → ShellOnly n.pendingCmd → asksNow x.net w e = false) :
    Settles x e (n.scheduleNextPing timeMs) := by
  rcases scheduleNextPing_cases n timeMs with ⟨-, hcalm⟩ | ⟨hzero, heq⟩
  · refine settles_of_same (h.calm (hn.trans hcalm) fun w hw hs => ?_)
      (hn.trans hcalm).mailbox
    exact hask w hw (hcalm.pendingCmd hs ▸ hs)
  · obtain ⟨w, hw, hping, hasked, hmb⟩ := h.pings ha
    rw [heq]
    refine ⟨.released ?_ ?_ ?_ ?_, ?_⟩
    · intro hs
      exact h.not_pending hw (.inr hasked) (hn.pendingCmd hs ▸ hs)
    · rintro (hout | hrem)
      · exact Bool.false_ne_true (hmac.symm.trans hout)
      · exact absurd hrem (by simp [hzero])
    · intro w' hw'
      obtain rfl := Option.some.inj (hw.symm.trans hw')
      simp [Waiting.after, h.taken w hw hasked]
    · intro w' hw' hres
      obtain rfl := Option.some.inj (hw.symm.trans hw')
      exact nomatch hping.symm.trans hres
    · intro w' hw' _ _
      obtain rfl := Option.some.inj (hw.symm.trans hw')
      exact hfin w hw hping hasked hzero

theorem settles_pingTimeout {timeMs : ℕ} (h : MailboxInv x) :
    Settles x (.pingTimeout timeMs) (x.net.checkPingTimeout timeMs) := by
  rw [NetDriver.checkPingTimeout]
  split
  · exact settles_of_same (h.calm (.refl _) fun _ _ _ => rfl) rfl
  · rename_i hout
    split
    · exact settles_of_same (h.calm (.refl _) fun _ _ _ => rfl) rfl
    · rename_i hlate
      have hout : x.net.pingOutstanding = true := by simpa using hout
      refine settles_lastPing h ⟨rfl, fun _ => rfl, ?_⟩ rfl (.inl hout) ?_ (by simp) ?_
      · intro _
        exact .inl hout
      · intro w hw hping hasked hzero
        exact .timeout hping hasked (Nat.not_lt.mp hlate) hzero
      · intro w _ _
        rfl

/-- The message is taken by an idle driver. -/
theorem settles_command {m : NetMessage} {timeMs : ℕ} (h : MailboxInv x) (hw : x.op = some w)
    (htaken : w.taken = false) (hm : m = w.msg) :
    Settles x (.command m timeMs) (x.net.handleCommand m timeMs) := by
  subst hm
  have hpend := h.not_pending hw (.inl htaken)
  have hactive := h.not_active hw (.inl htaken)
  have hmb := h.waits w hw htaken
  have hcalm : ∀ {n'}, Calm x.net n' → Settles x (.command w.msg timeMs) n' := by
    intro n' hc
    refine settles_of_same (h.calm hc fun w' hw' hs => ?_) hc.mailbox
    exact absurd (hc.pendingCmd hs ▸ hs) hpend
  have hrelease : ∀ {n'}, n'.pendingCmd = x.net.pendingCmd → ¬ Active n' →
      w.msg.cmd ≠ .resolve → Finishes x.net w (.command w.msg timeMs) →
        Settles x (.command w.msg timeMs) n' := by
    intro n' hp ha hres hfin
    refine ⟨.released (hp ▸ hpend) ha ?_ ?_, ?_⟩
    · intro w' _
      simp [Waiting.after]
    · intro w' hw' hcmd
      obtain rfl := Option.some.inj (hw.symm.trans hw')
      exact absurd hcmd hres
    · intro w' hw' _ _
      obtain rfl := Option.some.inj (hw.symm.trans hw')
      exact hfin
  -- a request that waits for the gateway's address is pending for this operation
  have hwait : ∀ {n'}, n'.mailbox = x.net.mailbox → n'.pendingCmd = w.msg.cmd →
      (Active n' → Active x.net) → x.net.haveRouterMac = false →
        Settles x (.command w.msg timeMs) n' := by
    intro n' hmb' hp ha hmac
    have hasked : w.asked = false := by
      by_contra hasked
      exact Bool.false_ne_true (htaken.symm.trans (h.taken w hw (by simpa using hasked)))
    refine settles_of_same ⟨?_, ?_, ?_, ?_, ?_⟩ hmb'
    · intro w' hw' _
      obtain ⟨_, -, rfl⟩ := driven_op hw'
      simp [Waiting.after]
    · intro w' hw' hno
      obtain ⟨_, -, rfl⟩ := driven_op hw'
      simp [Waiting.after] at hno
    · intro _
      refine ⟨w.after x.net _, by rw [driven, hw]; rfl, hp.symm, ?_, ?_, hmb'.trans hmb⟩
      · simp [Waiting.after]
      · simp [Waiting.after, hasked, asksNow, hmac]
    · intro hactive'
      exact absurd (ha hactive') hactive
    · intro w' hw' _ h0
      exact absurd (hmb'.trans hmb) h0
  rw [NetDriver.handleCommand]
  split
  · exact hcalm (.refl _)
  split
  · rename_i hping
    split
    · rename_i hmac
      obtain ⟨hsame, hpend'⟩ := startPingSeries_same x.net (clampPings (w.msg.mr2 % 2 ^ 32)) timeMs
      refine settles_of_same ⟨?_, ?_, ?_, ?_, ?_⟩ hsame
      · intro w' hw' _
        obtain ⟨_, -, rfl⟩ := driven_op hw'
        simp [Waiting.after]
      · intro w' hw' hno
        obtain ⟨_, -, rfl⟩ := driven_op hw'
        simp [Waiting.after] at hno
      · intro hs
        exact absurd (hpend' hs ▸ hs) hpend
      · intro _
        refine ⟨w.after x.net _, by rw [driven, hw]; rfl, hping.1, ?_, hsame.trans hmb⟩
        simp [Waiting.after, asksNow, hmac, hping.1]
      · intro w' hw' _ h0
        exact absurd (hsame.trans hmb) h0
    · rename_i hmac
      exact hwait rfl hping.1.symm id (by simpa using hmac)
  split
  · rename_i hsend
    split
    · rename_i hmac
      refine hrelease rfl hactive (by simp [hsend.1]) (.send hsend.1 ?_)
      simp [asksNow, hmac, hsend.1]
    · rename_i hmac
      exact hwait rfl hsend.1.symm id (by simpa using hmac)
  split
  · rename_i hstatus
    exact hrelease rfl hactive (by simp [hstatus]) (.status hstatus)
  split
  · rename_i hrecv
    exact hrelease rfl hactive (by simp [hrecv]) (.recv hrecv)
  split
  · rename_i hresolve
    split
    · exact hcalm ⟨rfl, fun _ => rfl, id⟩
    · rename_i hmac
      exact hwait rfl hresolve.symm id (by simpa using hmac)
  split
  · rename_i hntp
    split
    · rename_i hout
      exact hrelease rfl hactive (by simp [hntp]) (.inFlight hntp hout)
    · split
      · exact hcalm ⟨rfl, fun _ => rfl, id⟩
      · rename_i hmac
        exact hwait rfl hntp.symm id (by simpa using hmac)
  · exact hcalm (.refl _)

theorem asksNow_of_not_arp {n : NetDriver} {descId timeMs : ℕ} {mem : Window}
    (h : IsArpReply mem (rxBufferOffset descId) → n.haveRouterMac = true) (w : Waiting) :
    asksNow n w (.frame descId mem timeMs) = false := by
  by_contra hask
  simp only [asksNow, Bool.not_eq_false, Bool.and_eq_true, decide_eq_true_eq,
    Bool.not_eq_true'] at hask
  exact Bool.false_ne_true (hask.1.1.2.symm.trans (h hask.1.1.1.2))

/-- A frame that ends a wait keeps the invariant when the wait was for it. -/
theorem settles_answer {descId timeMs : ℕ} {mem : Window} (h : MailboxInv x)
    (hpend : n'.pendingCmd = x.net.pendingCmd) (hactive : Active n' → Active x.net)
    (hasked : ∀ w, x.op = some w → x.net.mailbox = 1 → w.asked = true ∧ w.msg.cmd ≠ .ping)
    (hfresh : ∀ w, x.op = some w → w.msg.cmd = .resolve → w.asked = true →
      (x.net.mailbox ≠ 1 → x.fresh = true) → freshAfter x (.frame descId mem timeMs) = true)
    (hfin : ∀ w, x.op = some w → x.net.mailbox = 1 → Finishes x.net w (.frame descId mem timeMs)) :
    Settles x (.frame descId mem timeMs) n' := by
  obtain ⟨hs, ha⟩ := h.unclaimed hasked
  refine ⟨.released (hpend ▸ hs) (fun ha' => ha (hactive ha')) ?_ ?_, fun w hw h1 _ => hfin w hw h1⟩
  · intro w hw
    by_cases htaken : w.taken = true
    · simp [Waiting.after, htaken]
    · have hmb := h.waits w hw (by simpa using htaken)
      exact absurd (h.taken w hw (hasked w hw hmb).1) htaken
  · intro w hw hcmd
    by_cases hmb : x.net.mailbox = 1
    · have hask := (hasked w hw hmb).1
      exact ⟨hask, hfresh w hw hcmd hask fun hne => absurd hmb hne⟩
    · obtain ⟨hask, hf⟩ := h.address w hw hcmd hmb
      exact ⟨hask, hfresh w hw hcmd hask fun _ => hf⟩

/-- The gateway answers: what waited for its address is sent. -/
theorem settles_arp {descId timeMs : ℕ} {mem : Window} {n : NetDriver} (h : MailboxInv x)
    (hdesc : descId < 4) (harp : IsArpReply mem (rxBufferOffset descId))
    (hmac : x.net.haveRouterMac = false) (hn : Calm x.net n)
    (hpend : n.pendingCmd = x.net.pendingCmd) :
    Settles x (.frame descId mem timeMs) (launchPending n timeMs) := by
  -- a shell that waits for the command that was pending has now asked for it
  have hasks : ∀ w, x.op = some w → w.msg.cmd = x.net.pendingCmd → w.taken = true →
      asksNow x.net w (.frame descId mem timeMs) = true := by
    intro w _ hcmd htaken
    simp [asksNow, hdesc, harp, hmac, htaken, hcmd]
  have hnone : ∀ {n''}, n''.mailbox = n.mailbox → n''.pendingCmd = .none →
      (Active n'' → Active n) → Settles x (.frame descId mem timeMs) n'' := by
    intro n'' hmb hp ha
    have hcalm : Calm x.net n'' := by
      refine ⟨hmb.trans hn.mailbox, fun hs => ?_, fun ha' => hn.active (ha ha')⟩
      rw [hp] at hs
      exact (not_shellOnly_none hs).elim
    refine settles_of_same (h.calm hcalm fun w hw hs => ?_) hcalm.mailbox
    rw [hp] at hs
    exact (not_shellOnly_none hs).elim
  -- by the command that was pending
  rw [launchPending]
  split
  · exact hnone rfl rfl id
  · rename_i hping
    obtain ⟨hsame, hpend'⟩ := startPingSeries_same { n with pendingCmd := .none }
      n.pendingPingCount timeMs
    obtain ⟨w, hw, hcmd, htaken, -, hmb⟩ := h.pending (hpend ▸ .inl hping)
    have hmb' := (hsame.trans hn.mailbox).trans hmb
    have hop : (driven x (.frame descId mem timeMs)
        (NetDriver.startPingSeries { n with pendingCmd := .none } n.pendingPingCount timeMs)).op =
          some (w.after x.net (.frame descId mem timeMs)) := by
      rw [driven, hw]
      rfl
    -- a series takes the mailbox over without touching it: it is released by the last ping
    refine settles_of_same ⟨?_, ?_, ?_, ?_, ?_⟩ (hsame.trans hn.mailbox)
    · intro w' hw' _
      obtain rfl := Option.some.inj (hop.symm.trans hw')
      simp [Waiting.after, htaken]
    · intro w' hw' hno
      obtain rfl := Option.some.inj (hop.symm.trans hw')
      simp [Waiting.after, htaken] at hno
    · intro hs
      have hnone' := hpend' hs
      rw [driven, hnone'] at hs
      exact (not_shellOnly_none hs).elim
    · intro _
      refine ⟨_, hop, hcmd.trans (hpend.symm.trans hping), ?_, hmb'⟩
      simp [Waiting.after, hasks w hw hcmd htaken]
    · intro w' _ _ h0
      exact absurd hmb' h0
  · rename_i hsend
    obtain ⟨w, hw, hcmd, htaken, -, -⟩ := h.pending (hpend ▸ .inr (.inl hsend))
    have hcmd' : w.msg.cmd = .send := hcmd.trans (hpend.symm.trans hsend)
    -- a datagram is sent and done with
    refine ⟨.released ?_ ?_ ?_ ?_, ?_⟩
    · exact not_shellOnly_none
    · intro ha
      exact h.not_active hw (.inr (by simp [hcmd'])) (hn.active ha)
    · intro w' hw'
      obtain rfl := Option.some.inj (hw.symm.trans hw')
      simp [Waiting.after, htaken]
    · intro w' hw' hres
      obtain rfl := Option.some.inj (hw.symm.trans hw')
      exact nomatch hcmd'.symm.trans hres
    · intro w' hw' _ _
      obtain rfl := Option.some.inj (hw.symm.trans hw')
      exact .send hcmd' (hasks _ hw hcmd htaken)
  · exact hnone rfl rfl id
  · rename_i hne₁ hne₂ hne₃ _
    refine settles_of_same (h.calm hn fun w _ hs => ?_) hn.mailbox
    rcases hs with hs | hs | hs
    · exact absurd hs hne₂
    · exact absurd hs hne₃
    · exact absurd hs hne₁

theorem settles_frame {descId timeMs : ℕ} {mem : Window} (h : MailboxInv x) (hdesc : descId < 4)
    (heffect : FrameEffect mem (rxBufferOffset descId) x.net timeMs n')
    (htime : Timely x (.driver (.frame descId mem timeMs))) :
    Settles x (.frame descId mem timeMs) n' := by
  cases heffect with
  | arp harp hmac => exact settles_arp h hdesc harp hmac ⟨rfl, fun _ => rfl, id⟩ rfl
  | echo rttUs hecho hout =>
    refine settles_lastPing h ⟨rfl, fun _ => rfl, fun _ => .inl hout⟩ rfl (.inl hout) ?_ (by simp) ?_
    · intro w _ hping hasked hzero
      exact .echo hping hasked hecho hzero
    · intro w _ _
      exact asksNow_of_not_arp (fun harp => absurd harp hecho.1.not_arpReply) w
  | dns ip hdns =>
    -- nobody else waits when a DNS answer comes in time
    have hmine : ∀ w, x.op = some w → x.net.mailbox = 1 →
        w.msg.cmd = .resolve ∧ w.asked = true :=
      fun w hw hmb => (htime w hw hmb hdesc).1 ip hdns
    refine settles_answer h rfl id ?_ ?_ ?_
    · intro w hw hmb
      exact ⟨(hmine w hw hmb).2, by simp [(hmine w hw hmb).1]⟩
    · intro w hw hcmd hask _
      exact freshAfter_eq_true hw hcmd hask (.inr ⟨descId, mem, timeMs, ip, rfl, hdesc, hdns⟩)
    · intro w hw hmb
      exact .answer (hmine w hw hmb).1 (hmine w hw hmb).2 hdns
  | ntp hntp hout =>
    have hmine : ∀ w, x.op = some w → x.net.mailbox = 1 → w.msg.cmd = .ntp ∧ w.asked = true :=
      fun w hw hmb => (htime w hw hmb hdesc).2 hntp hout
    refine settles_answer h ?_ id ?_ ?_ ?_
    · exact NtpClient.pollNtpReply_pendingCmd ..
    · intro w hw hmb
      exact ⟨(hmine w hw hmb).2, by simp [(hmine w hw hmb).1]⟩
    · intro w hw hcmd hask hfresh
      refine freshAfter_eq_true hw hcmd hask (.inl (hfresh fun hmb => ?_))
      exact nomatch hcmd.symm.trans (hmine w hw hmb).1
    · intro w hw hmb
      exact .reply (hmine w hw hmb).1 (hmine w hw hmb).2 hntp
  | datagram hip =>
    refine settles_of_same (h.calm ⟨rfl, fun _ => rfl, id⟩ fun w _ _ => ?_) rfl
    exact asksNow_of_not_arp (fun harp => absurd harp hip.not_arpReply) w
  | ignored hmac =>
    exact settles_of_same (h.calm (.refl _) fun w _ _ => asksNow_of_not_arp hmac w) rfl

end

/-! ## Every interleaving -/

theorem settles_driver {x : Exchange} {e : NetEvent} (h : MailboxInv x) (hcan : canTake x e = true)
    (htime : Timely x (.driver e)) : Settles x e (netStep x.net e) := by
  cases e with
  | frame descId mem timeMs =>
    rcases netStep_frame x.net descId mem timeMs with ⟨hdesc, hsame⟩ | ⟨hdesc, heffect⟩
    · rw [hsame]
      refine settles_of_same (h.calm (.refl _) fun w _ _ => ?_) rfl
      simp [asksNow, Nat.not_lt.mpr hdesc]
    · exact settles_frame h hdesc heffect htime
  | command m timeMs =>
    cases hw : x.op with
    | none =>
      rw [canTake, hw] at hcan
      cases hcan
    | some w =>
      rw [canTake, hw] at hcan
      simp only [Bool.and_eq_true, Bool.not_eq_true', beq_iff_eq] at hcan
      exact settles_command h hw hcan.1 hcan.2
  | turn => exact settles_of_same (h.calm ⟨rfl, fun _ => rfl, id⟩ fun _ _ _ => rfl) rfl
  | pingTimeout timeMs => exact settles_pingTimeout h
  | pingSend timeMs =>
    have hcalm := Calm.checkPingSend (n := x.net) timeMs
    exact settles_of_same (h.calm hcalm fun _ _ _ => rfl) hcalm.mailbox
  | ntpResync timeMs uptimeMs =>
    have hcalm := Calm.checkNtpResync (n := x.net) timeMs uptimeMs
    exact settles_of_same (h.calm hcalm fun _ _ _ => rfl) hcalm.mailbox
  | bootTimeout uptimeMs =>
    have hcalm := Calm.checkBootNtpTimeout (n := x.net) uptimeMs
    exact settles_of_same (h.calm hcalm fun _ _ _ => rfl) hcalm.mailbox

theorem exchangeStep_inv {x x' : Exchange} {e : ExchangeEvent} (h : MailboxInv x)
    (htime : Timely x e) (hstep : ExchangeStep x e x') : MailboxInv x' ∧ Settled x e x' := by
  cases e with
  | send m =>
    obtain ⟨⟨hnone, -, -⟩, hx'⟩ := Option.ite_none_right_eq_some.mp hstep
    obtain rfl := Option.some.inj hx'
    -- the shell sends only when nothing of its own is under way
    have hop : ∀ w, x.op ≠ some w := by
      intro w hw
      rw [hw] at hnone
      cases hnone
    refine ⟨⟨?_, ?_, ?_, ?_, ?_⟩, ⟨?_, ?_⟩⟩
    · rintro w ⟨⟩ hasked
      cases hasked
    · intro w _ _
      rfl
    · intro hs
      obtain ⟨w, hw, -⟩ := h.pending hs
      exact absurd hw (hop w)
    · intro ha
      obtain ⟨w, hw, -⟩ := h.pings ha
      exact absurd hw (hop w)
    · intro w _ _ hmb
      exact absurd rfl hmb
    · intro w ev hw _ _ _
      exact absurd hw (hop w)
    · intro w _ _ hmb
      cases hmb
  | see =>
    rw [ExchangeStep, exchangeStep] at hstep
    split at hstep
    · rename_i w hw
      obtain ⟨⟨-, hmb⟩, hx'⟩ := Option.ite_none_right_eq_some.mp hstep
      obtain rfl := Option.some.inj hx'
      have hne : x.net.mailbox ≠ 1 := by omega
      -- a mailbox that is not set is not awaited, so nothing is pending for the shell
      obtain ⟨hs, ha⟩ := h.unclaimed fun _ _ h1 => absurd h1 hne
      refine ⟨⟨?_, ?_, fun hs' => absurd hs' hs, fun ha' => absurd ha' ha, ?_⟩, ⟨?_, ?_⟩⟩
      all_goals
        intros
        contradiction
    · cases hstep
  | driver ev =>
    obtain ⟨hcan, hx'⟩ := Option.ite_none_right_eq_some.mp hstep
    obtain rfl := Option.some.inj hx'
    obtain ⟨hinv, hfin⟩ := settles_driver h hcan htime
    refine ⟨hinv, ⟨?_, ?_⟩⟩
    · rintro w _ hw ⟨⟩ h1 h0
      exact hfin w hw h1 h0
    · intro w hw hcmd hmb
      exact (hinv.address w hw hcmd (by rw [driven]; omega)).2

theorem mailboxInv_start (u : ℕ) : MailboxInv (.start u) := by
  refine ⟨?_, ?_, ?_, ?_, ?_⟩
  · intro w hw
    cases hw
  · intro w hw
    cases hw
  · exact fun hs => (not_shellOnly_ntp hs).elim
  · rintro (hout | hrem)
    · cases hout
    · cases hrem
  · intro w hw
    cases hw

/-- **The mailbox answers the waiting shell.** In every interleaving of the shell and the driver in
which the DNS answers and SNTP replies are timely, every step is settled. -/
theorem settled_of_run {u : ℕ} {es : List ExchangeEvent} {e : ExchangeEvent} {x x' : Exchange}
    (hrun : Run (guarded ExchangeStep Timely) (.start u) es x)
    (hstep : guarded ExchangeStep Timely x e x') : Settled x e x' := by
  have hinv : MailboxInv x := by
    refine hrun.invariant (fun x e x' hx hs => ?_) (mailboxInv_start u)
    exact (exchangeStep_inv hx hs.1 hs.2).1
  exact (exchangeStep_inv hinv hstep.1 hstep.2).2

/-! The shell pings while the periodic synchronisation is under way. -/

/-- A synchronisation is no end of a ping. -/
theorem not_finishes_ping {n : NetDriver} {w : Waiting} {descId timeMs : ℕ} {mem : Window}
    (hping : w.msg.cmd = .ping) (hip : IsIp mem (rxBufferOffset descId) 17) :
    ¬ Finishes n w (.frame descId mem timeMs) := by
  intro hfin
  cases hfin with
  | send hcmd => exact nomatch hping.symm.trans hcmd
  | echo _ _ hecho _ => exact absurd (hecho.1.2.symm.trans hip.2) (by decide)
  | answer hcmd => exact nomatch hping.symm.trans hcmd
  | reply hcmd => exact nomatch hping.symm.trans hcmd

/-- The exchange after the events from a start at uptime 0. -/
def exchangeAfter (es : List ExchangeEvent) : Exchange :=
  (runSteps exchangeStep (.start 0) es).getD (.start 0)

theorem exchangeStep_driver {x : Exchange} {e : NetEvent} (h : canTake x e = true) :
    ExchangeStep x (.driver e) (driven x e (netStep x.net e)) :=
  if_pos h

theorem runSteps_exchangeAfter {es : List ExchangeEvent}
    (h : (runSteps exchangeStep (.start 0) es).isSome = true) :
    runSteps exchangeStep (.start 0) es = some (exchangeAfter es) := by
  obtain ⟨x, hx⟩ := Option.isSome_iff_exists.mp h
  rw [exchangeAfter, hx]
  rfl

/-- The boot-time synchronisation, the periodic one half an hour later, and a ping of one packet. -/
def pingDuringResync : List ExchangeEvent :=
  [.driver (.frame 0 (arpReplyFrom gatewayIp) 0), .driver (.frame 0 ntpReply 0),
    .driver (.ntpResync 1800000 1800000), .send ⟨4, .ping, 1⟩, .driver (.command ⟨4, .ping, 1⟩ 0)]

theorem pingDuringResync_run :
    Run ExchangeStep (.start 0) pingDuringResync (exchangeAfter pingDuringResync) :=
  .of_runSteps (runSteps_exchangeAfter (by decide +kernel))

/-- The reply to the periodic synchronisation releases the shell from its ping. -/
theorem not_settled_pingDuringResync : ¬ ∀ (u : ℕ) (es : List ExchangeEvent) (e : ExchangeEvent)
    (x x' : Exchange), Run ExchangeStep (.start u) es x → ExchangeStep x e x' → Settled x e x' := by
  intro h
  have hop : (exchangeAfter pingDuringResync).op = some ⟨⟨4, .ping, 1⟩, true, true⟩ := by
    decide +kernel
  have hset : (exchangeAfter pingDuringResync).net.mailbox = 1 := by decide +kernel
  have hclear : (netStep (exchangeAfter pingDuringResync).net (.frame 0 ntpReply 0)).mailbox = 0 := by
    decide +kernel
  have hip : IsIp ntpReply (rxBufferOffset 0) 17 := ⟨by decide +kernel, by decide +kernel⟩
  have hsettled := h 0 pingDuringResync (.driver (.frame 0 ntpReply 0)) _ _ pingDuringResync_run
    (exchangeStep_driver rfl)
  exact not_finishes_ping rfl hip (hsettled.mailbox _ _ hop rfl hset hclear)

/-- The shell asks for the status, and the driver prints it. -/
theorem settled_of_run_status : Settled (exchangeAfter [.send ⟨4, .status, 0⟩])
    (.driver (.command ⟨4, .status, 0⟩ 0))
    (exchangeAfter [.send ⟨4, .status, 0⟩, .driver (.command ⟨4, .status, 0⟩ 0)]) := by
  have hsend : guarded ExchangeStep Timely (.start 0) (.send ⟨4, .status, 0⟩)
      (exchangeAfter [.send ⟨4, .status, 0⟩]) := ⟨trivial, rfl⟩
  exact settled_of_run (.single hsend) ⟨trivial, rfl⟩

end PsychWard.Net
