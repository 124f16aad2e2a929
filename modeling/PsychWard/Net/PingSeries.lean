import PsychWard.Net.Station
import Mathlib.Data.List.Nodup

/-!
# A ping series

The log of a series is what the ping code does from `net_start_ping_series` on, whatever frames
arrive, whatever the clock says and however often the loop turns, as long as no other ping command
comes. `SeriesLog` says which logs a series may leave: a request is sent when all requests before it
are settled, and is a new one; what is settled is the request that is not; and the mailbox is
cleared when the last one is settled.
-/

namespace PsychWard.Net

namespace PingMark

def sentSeq : PingMark → Option ℕ
  | sent seq => some seq
  | _ => none

def settledSeq : PingMark → Option ℕ
  | settled _ seq => some seq
  | _ => none

end PingMark

/-- The sequence numbers of the requests that were sent. -/
def sentSeqs (log : List PingMark) : List ℕ := log.filterMap PingMark.sentSeq

/-- The sequence numbers of the requests that were answered or timed out. -/
def settledSeqs (log : List PingMark) : List ℕ := log.filterMap PingMark.settledSeq

/-- The logs of a series of `count` requests. -/
inductive SeriesLog (count : ℕ) : List PingMark → Prop
  | nil : SeriesLog count []
  | sent {log : List PingMark} {seq : ℕ} (h : SeriesLog count log)
      (hsettled : settledSeqs log = sentSeqs log) (hlen : (sentSeqs log).length < count)
      (hnew : seq ∉ sentSeqs log) (hzero : seq ≠ 0) : SeriesLog count (log ++ [.sent seq])
  | settled {log : List PingMark} {how : PingEnd} {seq : ℕ} (h : SeriesLog count log)
      (hout : sentSeqs log = settledSeqs log ++ [seq]) : SeriesLog count (log ++ [.settled how seq])
  | cleared {log : List PingMark} (h : SeriesLog count log) (hfirst : .cleared ∉ log)
      (hall : (settledSeqs log).length = count) : SeriesLog count (log ++ [.cleared])

/-- What holds of the pings and of the log at any time in a series. -/
structure SeriesOutcome (count : ℕ) (p : PingState) (log : List PingMark) : Prop where
  legal : SeriesLog count log
  atMost : (sentSeqs log).length ≤ count
  distinct : (sentSeqs log).Nodup
  nonzero : 0 ∉ sentSeqs log
  cleared : log.count .cleared = if (settledSeqs log).length = count then 1 else 0
  ended : p.outstanding = false → p.remaining = 0 →
    settledSeqs log = sentSeqs log ∧ (settledSeqs log).length = count

/-- The driver after the calls of some turns of the main loop. -/
def netRun (n : NetDriver) (es : List NetEvent) : NetDriver := es.foldl netStep n

/-- The marks that the calls leave. -/
def pingLog (n : NetDriver) : List NetEvent → List PingMark
  | [] => []
  | e :: es => pingMarks n e ++ pingLog (netStep n e) es

/-- The call is the one of a ping command. -/
def IsPingCommand : NetEvent → Prop
  | .command m _ => m.cmd = .ping ∧ 3 ≤ m.length
  | _ => False

/-! ## Logs -/

section
variable {log log' : List PingMark} {count : ℕ}

@[simp] theorem sentSeqs_append : sentSeqs (log ++ log') = sentSeqs log ++ sentSeqs log' :=
  List.filterMap_append

@[simp] theorem settledSeqs_append :
    settledSeqs (log ++ log') = settledSeqs log ++ settledSeqs log' :=
  List.filterMap_append

@[simp] theorem sentSeqs_sent (seq : ℕ) : sentSeqs [.sent seq] = [seq] := rfl

@[simp] theorem settledSeqs_sent (seq : ℕ) : settledSeqs [.sent seq] = [] := rfl

@[simp] theorem sentSeqs_settled (how : PingEnd) (seq : ℕ) : sentSeqs [.settled how seq] = [] := rfl

@[simp] theorem settledSeqs_settled (how : PingEnd) (seq : ℕ) :
    settledSeqs [.settled how seq] = [seq] := rfl

@[simp] theorem sentSeqs_cleared : sentSeqs [.cleared] = [] := rfl

@[simp] theorem settledSeqs_cleared : settledSeqs [.cleared] = [] := rfl

/-- In a log of a series no number is sent twice, and the mailbox is cleared once at most. -/
theorem SeriesLog.distinct (h : SeriesLog count log) :
    (sentSeqs log).Nodup ∧ 0 ∉ sentSeqs log ∧ log.count .cleared ≤ 1 := by
  induction h with
  | nil => exact ⟨List.nodup_nil, List.not_mem_nil, Nat.zero_le _⟩
  | sent h hsettled hlen hnew hzero ih =>
    obtain ⟨hnodup, h0, hcount⟩ := ih
    rw [sentSeqs_append, sentSeqs_sent, List.nodup_append_comm, List.singleton_append,
      List.nodup_cons, List.mem_append, List.mem_singleton, List.count_append]
    exact ⟨⟨hnew, hnodup⟩, fun h => h.elim h0 hzero.symm, hcount⟩
  | settled h hout ih =>
    rw [sentSeqs_append, sentSeqs_settled, List.append_nil, List.count_append]
    exact ih
  | cleared h hfirst hall ih =>
    rw [sentSeqs_append, sentSeqs_cleared, List.append_nil, List.count_append,
      List.count_eq_zero.mpr hfirst]
    exact ⟨ih.1, ih.2.1, le_rfl⟩

end

/-! ## Sequence numbers -/

/-- The sequence numbers run through the nonzero ones in a circle. -/
theorem iterate_seqAfter (seq i : ℕ) :
    seqAfter^[i + 1] seq = (seqAfter seq - 1 + i) % (2 ^ 16 - 1) + 1 := by
  induction i with
  | zero =>
    rw [Nat.zero_add, Function.iterate_one, seqAfter]
    split <;> omega
  | succ i ih =>
    rw [Function.iterate_succ_apply', ih, seqAfter]
    split <;> omega

/-- Fewer than `2 ^ 16 - 1` numbers in a row are distinct. -/
theorem iterate_seqAfter_inj {seq i j : ℕ} (hi : i < j) (hj : j < 2 ^ 16 - 1) :
    seqAfter^[i + 1] seq ≠ seqAfter^[j + 1] seq := by
  rw [iterate_seqAfter, iterate_seqAfter]
  omega

/-! ## The series -/

/-- The invariant of a series that started after the number `first`. -/
structure SeriesInv (count first : ℕ) (p : PingState) (log : List PingMark) : Prop where
  legal : SeriesLog count log
  seqs : sentSeqs log = (List.range (sentSeqs log).length).map fun i => seqAfter^[i + 1] first
  next : p.nextSeq = seqAfter^[(sentSeqs log).length] first
  total : (sentSeqs log).length + p.remaining = count
  outstanding : p.outstanding = true → sentSeqs log = settledSeqs log ++ [p.outstandingSeq]
  idle : p.outstanding = false → settledSeqs log = sentSeqs log
  cleared : .cleared ∈ log ↔ (settledSeqs log).length = count

section
variable {count first : ℕ} {p p' : PingState} {log marks : List PingMark}

/-- A series starts with nothing sent. -/
theorem seriesInv_start {p : PingState} {count : ℕ} (h₁ : 1 ≤ count) (h₁₆ : count ≤ 16) :
    SeriesInv count p.nextSeq (p.restart count) [] := by
  have hclamp : clampPings count = count := by
    rw [clampPings, if_neg (by omega), if_neg (by omega)]
  refine ⟨.nil, rfl, rfl, ?_, fun hout => absurd hout Bool.false_ne_true,
    fun _ => rfl, ?_⟩
  · exact (Nat.zero_add _).trans hclamp
  · exact iff_of_false List.not_mem_nil fun hzero => absurd (hzero.trans_ge h₁) (by decide)

/-- The next request goes out under a new number. -/
theorem SeriesInv.send (h : SeriesInv count first p log) (h₁₆ : count ≤ 16)
    (hout : p.outstanding = false) (hrem : 0 < p.remaining) :
    SeriesInv count first p.send (log ++ [.sent (seqAfter p.nextSeq)]) := by
  have hsettled := h.idle hout
  have htotal := h.total
  have hnext : seqAfter p.nextSeq = seqAfter^[(sentSeqs log).length + 1] first := by
    rw [h.next, Function.iterate_succ_apply']
  -- the numbers of a series are iterates of `seqAfter`, and no two of so few are equal
  have hnew : seqAfter p.nextSeq ∉ sentSeqs log := by
    rw [hnext]
    intro hmem
    rw [h.seqs, List.mem_map] at hmem
    obtain ⟨i, hi, heq⟩ := hmem
    rw [List.length_map, List.length_range] at heq
    exact iterate_seqAfter_inj (List.mem_range.mp hi) (by omega) heq
  have hzero : seqAfter p.nextSeq ≠ 0 := by
    rw [hnext, iterate_seqAfter]
    exact Nat.succ_ne_zero _
  have hlen : (sentSeqs (log ++ [.sent (seqAfter p.nextSeq)])).length =
      (sentSeqs log).length + 1 := by
    rw [sentSeqs_append, sentSeqs_sent, List.length_append, List.length_singleton]
  refine ⟨.sent h.legal hsettled (by omega) hnew hzero, ?_, ?_, ?_, fun _ => ?_,
    fun hidle => absurd hidle Bool.noConfusion, ?_⟩
  · rw [hlen, List.range_succ, List.map_append, ← h.seqs, sentSeqs_append, sentSeqs_sent, hnext]
    rfl
  · rw [hlen]
    exact hnext
  · rw [hlen]
    simp only [PingState.send]
    omega
  · rw [sentSeqs_append, settledSeqs_append, hsettled, settledSeqs_sent, List.append_nil]
    rfl
  · have hno : .cleared ∉ log := fun hmem => by
      have hall := h.cleared.mp hmem
      rw [hsettled] at hall
      omega
    rw [settledSeqs_append, settledSeqs_sent, List.append_nil, hsettled, List.mem_append,
      List.mem_singleton]
    exact iff_of_false (fun hmem => hmem.elim hno fun heq => by cases heq) (by omega)

/-- The last settlement clears the mailbox. -/
theorem SeriesInv.settle (h : SeriesInv count first p log) (how : PingEnd)
    (hout : p.outstanding = true) :
    SeriesInv count first (p.settle how)
      (log ++ .settled how p.outstandingSeq :: if 0 < p.remaining then [] else [.cleared]) := by
  have hsent := h.outstanding hout
  have htotal := h.total
  have hlen := congrArg List.length hsent
  rw [List.length_append, List.length_singleton] at hlen
  have hlegal : SeriesLog count (log ++ [.settled how p.outstandingSeq]) := .settled h.legal hsent
  have hno : .cleared ∉ log ++ [.settled how p.outstandingSeq] := fun hmem => by
    rcases List.mem_append.mp hmem with hmem | hmem
    · have hall := h.cleared.mp hmem
      omega
    · cases List.mem_singleton.mp hmem
  obtain ⟨hout', hrem', hnext'⟩ : (p.settle how).outstanding = false ∧
      (p.settle how).remaining = p.remaining ∧ (p.settle how).nextSeq = p.nextSeq := by
    cases how <;> exact ⟨rfl, rfl, rfl⟩
  -- either way the log has the same requests, all of them settled
  have hkeep : ∀ l, sentSeqs l = sentSeqs log → settledSeqs l = sentSeqs log → SeriesLog count l →
      (.cleared ∈ l ↔ p.remaining = 0) → SeriesInv count first (p.settle how) l := by
    intro l hs ht hl hc
    refine ⟨hl, ?_, ?_, ?_, fun hcontra => ?_, fun _ => ht.trans hs.symm, ?_⟩
    · rw [hs]
      exact h.seqs
    · rw [hs, hnext', h.next]
    · rw [hs, hrem', htotal]
    · exact absurd (hout'.symm.trans hcontra) Bool.false_ne_true
    · rw [ht, hc]
      omega
  rw [List.append_cons]
  split
  · rename_i hrem
    rw [List.append_nil]
    refine hkeep _ ?_ ?_ hlegal (iff_of_false hno (by omega))
    · rw [sentSeqs_append, sentSeqs_settled, List.append_nil]
    · rw [settledSeqs_append, settledSeqs_settled, hsent]
  · rename_i hrem
    have hsettled : settledSeqs (log ++ [.settled how p.outstandingSeq]) = sentSeqs log := by
      rw [settledSeqs_append, settledSeqs_settled, hsent]
    refine hkeep _ ?_ ?_ (.cleared hlegal hno (by rw [hsettled]; omega)) (iff_of_true ?_ (by omega))
    · rw [sentSeqs_append, sentSeqs_append, sentSeqs_settled, sentSeqs_cleared, List.append_nil,
        List.append_nil]
    · rw [settledSeqs_append, settledSeqs_cleared, List.append_nil, hsettled]
    · exact List.mem_append_right _ (List.mem_singleton_self _)

/-- What starts no series goes on with this one. -/
theorem SeriesInv.trans (h : SeriesInv count first p log) (h₁₆ : count ≤ 16)
    (ht : PingTrans p marks p') : SeriesInv count first p' (log ++ marks) := by
  cases ht with
  | idle =>
    rw [List.append_nil]
    exact h
  | send hout hrem => exact h.send h₁₆ hout hrem
  | settle how hout => exact h.settle how hout

/-- What the invariant tells of the series. -/
theorem SeriesInv.outcome (h : SeriesInv count first p log) : SeriesOutcome count p log := by
  obtain ⟨hnodup, hzero, hcount⟩ := h.legal.distinct
  have htotal := h.total
  refine ⟨h.legal, by omega, hnodup, hzero, ?_, fun hout hrem => ⟨h.idle hout, ?_⟩⟩
  · by_cases hall : (settledSeqs log).length = count
    · rw [if_pos hall]
      exact Nat.le_antisymm hcount (List.count_pos_iff.mpr (h.cleared.mpr hall))
    · rw [if_neg hall]
      exact List.count_eq_zero.mpr fun hmem => hall (h.cleared.mp hmem)
  · rw [h.idle hout]
    omega

end

section
variable {n : NetDriver} {count : ℕ} {es : List NetEvent}

/-- With the address of the gateway known, only a ping command starts a series. -/
theorem not_startsSeries {e : NetEvent} (hmac : n.haveRouterMac = true) (hno : ¬ IsPingCommand e)
    (c : ℕ) : ¬ StartsSeries n c e := by
  intro h
  cases e with
  | frame descId mem timeMs => exact absurd (hmac.symm.trans h.2.2.1) (by decide)
  | command m timeMs => exact hno ⟨h.1, h.2.1⟩
  | turn | pingTimeout | pingSend | ntpResync | bootTimeout => exact h

/-- The run lemma: a series that is under way goes on as long as no ping command comes. -/
theorem seriesInv_netRun {first : ℕ} {log : List PingMark} (h₁₆ : count ≤ 16)
    (hmac : n.haveRouterMac = true) (hno : ∀ e ∈ es, ¬ IsPingCommand e)
    (h : SeriesInv count first n.pings log) :
    SeriesInv count first (netRun n es).pings (log ++ pingLog n es) := by
  induction es generalizing n log with
  | nil =>
    rw [pingLog, List.append_nil]
    exact h
  | cons e es ih =>
    rw [pingLog, ← List.append_assoc]
    have hstart := not_startsSeries hmac (hno e List.mem_cons_self)
    exact ih (netStep_haveRouterMac e hmac) (fun e' he' => hno e' (List.mem_cons_of_mem _ he'))
      (h.trans h₁₆ (netStep_trans n e hstart))

end

/-! ## What the marks tell -/

section
variable {n : NetDriver} {timeMs : ℕ}

/-- Scheduling sends nothing. -/
theorem sentSeqs_scheduleNextPing : sentSeqs n.scheduleNextPingMarks = [] := by
  rw [NetDriver.scheduleNextPingMarks]
  split <;> rfl

/-- Scheduling clears the mailbox where there is no next ping. -/
theorem scheduleNextPing_mailbox (n : NetDriver) (timeMs : ℕ) :
    (n.scheduleNextPing timeMs).mailbox =
      if .cleared ∈ n.scheduleNextPingMarks then 0 else n.mailbox := by
  rw [NetDriver.scheduleNextPing, NetDriver.scheduleNextPingMarks]
  by_cases hmore : 0 < n.pingSeriesRemaining
  · rw [if_pos hmore, if_pos hmore, if_neg List.not_mem_nil]
  · rw [if_neg hmore, if_neg hmore, if_pos (List.mem_singleton_self _)]

/-- Sending leaves the mailbox alone. -/
theorem checkPingSend_mailbox (n : NetDriver) (timeMs : ℕ) :
    (n.checkPingSend timeMs).mailbox = n.mailbox := by
  rw [NetDriver.checkPingSend]
  split
  · rfl
  · split
    · rw [NetDriver.sendNextPing]
      split <;> rfl
    · rfl

/-- The start of a series leaves the mailbox. -/
theorem startPingSeries_mailbox (n : NetDriver) (count timeMs : ℕ) :
    (n.startPingSeries count timeMs).mailbox = n.mailbox := checkPingSend_mailbox _ timeMs

/-- Sending clears nothing. -/
theorem not_cleared_checkPingSend (timeMs : ℕ) : .cleared ∉ n.checkPingSendMarks timeMs := by
  rw [NetDriver.checkPingSendMarks]
  split
  · exact List.not_mem_nil
  · split
    · rw [NetDriver.sendNextPingMarks]
      split
      · exact List.not_mem_nil
      · rw [NetDriver.sendPingMarks, List.mem_singleton]
        exact PingMark.noConfusion
    · exact List.not_mem_nil

/-- The packets are the requests that the marks tell of. -/
theorem checkPingSendPackets_eq (myMac : List UInt8) (n : NetDriver) (target : List UInt8)
    (timeMs : ℕ) : checkPingSendPackets myMac n target timeMs =
      (sentSeqs (n.checkPingSendMarks timeMs)).map (pingRequest myMac n.routerMac target) := by
  rw [checkPingSendPackets, NetDriver.checkPingSendMarks]
  split
  · rfl
  · split
    · rw [sendNextPingPackets, NetDriver.sendNextPingMarks]
      split <;> rfl
    · rfl

/-- The packets of a start are the requests that its marks tell of. -/
theorem startPingSeriesPackets_eq (myMac : List UInt8) (n : NetDriver) (target : List UInt8)
    (count timeMs : ℕ) : startPingSeriesPackets myMac n target count timeMs =
      (sentSeqs (n.startPingSeriesMarks count timeMs)).map
        (pingRequest myMac n.routerMac target) :=
  checkPingSendPackets_eq myMac _ target timeMs

end

/-- The call runs ping code: it starts a series, or sends, settles or times out a request. -/
def RunsPingCode (n : NetDriver) (e : NetEvent) : Prop :=
  (∃ count, StartsSeries n count e) ∨
    match e with
    | .frame descId mem _ => descId < 4 ∧ IsIp mem (rxBufferOffset descId) 1
    | .pingTimeout _ | .pingSend _ => True
    | .command _ _ | .turn | .ntpResync _ _ | .bootTimeout _ => False

/-- The packet is no echo request. -/
def IsOther (myMac : List UInt8) (p : Packet) : Prop :=
  p = arpRequest myMac ∨ ∃ mac id dst srcPort dstPort data,
    p = udpPacket myMac mac id dst srcPort dstPort data

/-- What a call does to the pings and the mailbox and which echo requests it sends is what its marks
tell. -/
structure MarksTell (s : Station) (e : JobEvent) : Prop where
  pings : PingTrans s.jobs.net.pings (pingMarks s.jobs.net e.netEvent) (s.step e).jobs.net.pings ∨
    ∃ count, (s.step e).jobs.net.pings = (s.jobs.net.pings.restart count).send ∧
      pingMarks s.jobs.net e.netEvent = [.sent (seqAfter s.jobs.net.pingNextSeq)]
  requests : RunsPingCode s.jobs.net e.netEvent → s.packets e =
    (sentSeqs (pingMarks s.jobs.net e.netEvent)).map
      (pingRequest s.myMac (s.step e).jobs.net.routerMac (s.target e))
  mailbox : RunsPingCode s.jobs.net e.netEvent → (s.step e).jobs.net.mailbox =
    if .cleared ∈ pingMarks s.jobs.net e.netEvent then 0 else s.jobs.net.mailbox
  others : ¬ RunsPingCode s.jobs.net e.netEvent →
    pingMarks s.jobs.net e.netEvent = [] ∧ ∀ p ∈ s.packets e, IsOther s.myMac p

/-- A frame with ICMP in it settles the request that is outstanding or is ignored. -/
theorem netStep_icmp (n : NetDriver) {descId : ℕ} {mem : Window} (timeMs : ℕ) (hdesc : descId < 4)
    (hip : IsIp mem (rxBufferOffset descId) 1) :
    (∃ rttUs, netStep n (.frame descId mem timeMs) = takeEcho n rttUs timeMs ∧
      pingMarks n (.frame descId mem timeMs) = n.takeEchoMarks) ∨
      netStep n (.frame descId mem timeMs) = n ∧ pingMarks n (.frame descId mem timeMs) = [] := by
  by_cases hecho : IsEchoReply mem (rxBufferOffset descId) n.pingOutstandingSeq ∧
      n.pingOutstanding = true
  · obtain ⟨rttUs, hstep⟩ := netStep_echo timeMs hdesc hecho.1 hecho.2
    refine .inl ⟨rttUs, hstep, ?_⟩
    rw [pingMarks, if_neg (Nat.not_le.mpr hdesc), if_pos hecho]
  · refine .inr ⟨?_, ?_⟩
    · rcases netStep_frame n descId mem timeMs with ⟨-, hsame⟩ | ⟨-, heffect⟩
      · exact hsame
      · generalize netStep n (.frame descId mem timeMs) = n' at heffect
        cases heffect with
        | arp harp => exact absurd harp hip.not_arpReply
        | echo rttUs h hout => exact absurd ⟨h, hout⟩ hecho
        | dns ip h => exact absurd (hip.2.symm.trans h.1.1.2) (by decide)
        | ntp h => exact absurd (hip.2.symm.trans h.1.2) (by decide)
        | datagram h => exact absurd (hip.2.symm.trans h.2) (by decide)
        | ignored => rfl
    · rw [pingMarks, if_neg (Nat.not_le.mpr hdesc), if_neg hecho,
        if_neg fun harp => hip.not_arpReply harp.1]

/-- A reply clears the mailbox if its marks tell so. -/
theorem takeEchoMarks_mailbox (n : NetDriver) (rttUs timeMs : ℕ) :
    (takeEcho n rttUs timeMs).mailbox = if .cleared ∈ n.takeEchoMarks then 0 else n.mailbox := by
  have hmem : .cleared ∈ n.takeEchoMarks ↔ .cleared ∈ n.scheduleNextPingMarks := by
    rw [NetDriver.takeEchoMarks, List.mem_cons]
    exact or_iff_right PingMark.noConfusion
  rw [takeEcho, scheduleNextPing_mailbox]
  simp only [hmem]
  rfl

/-- So does a time-out. -/
theorem checkPingTimeout_mailbox (n : NetDriver) (timeMs : ℕ) :
    (n.checkPingTimeout timeMs).mailbox =
      if .cleared ∈ n.checkPingTimeoutMarks then 0 else n.mailbox := by
  rw [NetDriver.checkPingTimeout, NetDriver.checkPingTimeoutMarks]
  split
  · rw [if_neg List.not_mem_nil]
  · split
    · rw [if_neg List.not_mem_nil]
    · have hmem : .cleared ∈ PingMark.settled .timeout n.pingOutstandingSeq ::
          n.scheduleNextPingMarks ↔ .cleared ∈ n.scheduleNextPingMarks := by
        rw [List.mem_cons]
        exact or_iff_right PingMark.noConfusion
      rw [scheduleNextPing_mailbox]
      simp only [hmem]
      rfl

/-- A time-out sends nothing. -/
theorem sentSeqs_checkPingTimeout (n : NetDriver) : sentSeqs n.checkPingTimeoutMarks = [] := by
  rw [NetDriver.checkPingTimeoutMarks]
  split
  · rfl
  · split
    · rfl
    · exact sentSeqs_scheduleNextPing

namespace Station

variable {s : Station} {e : JobEvent} {count : ℕ}

/-- A call that starts a series sends its first request. -/
theorem packets_startsSeries (h : StartsSeries s.jobs.net count e.netEvent) :
    s.packets e = [pingRequest s.myMac (s.step e).jobs.net.routerMac (s.target e)
      (seqAfter s.jobs.net.pingNextSeq)] ∧ (s.step e).jobs.net.mailbox = s.jobs.net.mailbox := by
  cases e with
  | frame descId mem timeMs =>
    obtain ⟨hdesc, harp, hmac, hping, -⟩ := h
    have hlearns : LearnsMac s.jobs.net descId mem := ⟨hdesc, harp, hmac⟩
    have hnet : (s.step (.frame descId mem timeMs)).jobs.net =
        NetDriver.startPingSeries
          { learned s.jobs.net mem (rxBufferOffset descId) with pendingCmd := .none }
          s.jobs.net.pendingPingCount timeMs := by
      show netStep s.jobs.net (.frame descId mem timeMs) = _
      rw [netStep_learns hlearns, launchPending]
      simp only [learned, hping]
    have hpackets : s.packets (.frame descId mem timeMs) = startPingSeriesPackets s.myMac
        (learned s.jobs.net mem (rxBufferOffset descId)) s.jobs.args.pendingIp
        s.jobs.net.pendingPingCount timeMs := by
      rw [packets.eq_def]
      simp only [if_pos hlearns, launchPendingPackets, learned, hping]
    have htarget : s.target (.frame descId mem timeMs) = s.jobs.args.pendingIp :=
      if_pos ⟨hlearns, hping⟩
    rw [hpackets, startPingSeriesPackets_eq, (startPingSeries_pings _ _ timeMs).2, htarget, hnet,
      startPingSeries_mailbox, (SameKnowledge.startPingSeries _ timeMs).routerMac]
    exact ⟨rfl, rfl⟩
  | command length regs msg timeMs =>
    obtain ⟨hcmd, hlen, hmac, -⟩ := h
    have hcmd' : netCommand (regs 0) = .ping := hcmd
    have hlen' : 3 ≤ length := hlen
    have hnet : (s.step (.command length regs msg timeMs)).jobs.net =
        s.jobs.net.startPingSeries (clampPings (regs 2 % 2 ^ 32)) timeMs := by
      show s.jobs.net.handleCommand _ timeMs = _
      rw [NetDriver.handleCommand, if_neg (by simp only; omega), if_pos ⟨hcmd, hlen⟩, if_pos hmac]
    have hpackets : s.packets (.command length regs msg timeMs) = startPingSeriesPackets s.myMac
        s.jobs.net (unpackIpv4 (regs 1)) (clampPings (regs 2 % 2 ^ 32)) timeMs := by
      rw [packets.eq_def]
      simp only [handleCommandPackets, if_neg (show ¬ length = 0 by omega), hcmd', if_pos hlen',
        if_pos hmac]
    have htarget : s.target (.command length regs msg timeMs) = unpackIpv4 (regs 1) :=
      if_pos ⟨hcmd', hlen', hmac⟩
    rw [hpackets, startPingSeriesPackets_eq, (startPingSeries_pings _ _ timeMs).2, htarget, hnet,
      startPingSeries_mailbox, (SameKnowledge.startPingSeries _ timeMs).routerMac]
    exact ⟨rfl, rfl⟩
  | turn | pingTimeout | pingSend | ntpResync | bootTimeout => exact h.elim

/-- Other commands send no echo request. -/
theorem isOther_handleCommand {myMac : List UInt8} {n : NetDriver} {a : Arguments} {length : ℕ}
    {regs : Registers} {msg : ℤ → UInt8} {timeMs : ℕ} {p : Packet}
    (hno : ¬ (netCommand (regs 0) = .ping ∧ 3 ≤ length ∧ n.haveRouterMac = true))
    (hp : p ∈ handleCommandPackets myMac n a length regs msg timeMs) : IsOther myMac p := by
  have hudp : ∀ {mac id dst srcPort dstPort data},
      p ∈ [udpPacket myMac mac id dst srcPort dstPort data] → IsOther myMac p := fun h =>
    .inr ⟨_, _, _, _, _, _, List.mem_singleton.mp h⟩
  have harp : p ∈ [arpRequest myMac] → IsOther myMac p := fun h => .inl (List.mem_singleton.mp h)
  rw [handleCommandPackets] at hp
  split at hp
  · exact absurd hp List.not_mem_nil
  · split at hp
    · rename_i hcmd
      split at hp
      · split at hp
        · exact absurd ⟨hcmd, ‹_›, ‹_›⟩ hno
        · exact harp hp
      · exact absurd hp List.not_mem_nil
    · split at hp
      · split at hp
        · exact hudp hp
        · exact harp hp
      · exact absurd hp List.not_mem_nil
    · split at hp
      · exact hudp hp
      · exact harp hp
    · split at hp
      · exact absurd hp List.not_mem_nil
      · split at hp
        · exact hudp hp
        · exact harp hp
    · exact absurd hp List.not_mem_nil
    · exact absurd hp List.not_mem_nil
    · exact absurd hp List.not_mem_nil

/-- A command that is no ping sends no echo request. -/
theorem isOther_launchPending {myMac : List UInt8} {n : NetDriver} {a : Arguments} {timeMs : ℕ}
    {p : Packet} (hno : n.pendingCmd ≠ .ping)
    (hp : p ∈ launchPendingPackets myMac n a timeMs) : IsOther myMac p := by
  have hudp : ∀ {mac id dst srcPort dstPort data},
      p ∈ [udpPacket myMac mac id dst srcPort dstPort data] → IsOther myMac p := fun h =>
    .inr ⟨_, _, _, _, _, _, List.mem_singleton.mp h⟩
  rw [launchPendingPackets] at hp
  split at hp
  · exact hudp hp
  · exact absurd ‹_› hno
  · exact hudp hp
  · exact hudp hp
  · exact absurd hp List.not_mem_nil
  · exact absurd hp List.not_mem_nil
  · exact absurd hp List.not_mem_nil

/-- A call that runs no ping code leaves no mark and sends no echo request. -/
theorem others (h : ¬ RunsPingCode s.jobs.net e.netEvent) :
    pingMarks s.jobs.net e.netEvent = [] ∧ ∀ p ∈ s.packets e, IsOther s.myMac p := by
  obtain ⟨hstart, hcode⟩ := not_or.mp h
  cases e with
  | frame descId mem timeMs =>
    have hip : descId < 4 → ¬ IsIp mem (rxBufferOffset descId) 1 := fun hdesc hip =>
      hcode ⟨hdesc, hip⟩
    -- a reply that makes the driver carry out a waiting ping would start a series
    have hping : descId < 4 → ¬ (IsArpReply mem (rxBufferOffset descId) ∧
        s.jobs.net.haveRouterMac = false ∧ s.jobs.net.pendingCmd = .ping) := fun hdesc harp =>
      hstart ⟨_, hdesc, harp.1, harp.2.1, harp.2.2, rfl⟩
    constructor
    · rw [JobEvent.netEvent, pingMarks]
      split
      · rfl
      · rename_i hdesc
        rw [if_neg fun hecho => hip (Nat.not_le.mp hdesc) hecho.1.1,
          if_neg (hping (Nat.not_le.mp hdesc))]
    · intro p hp
      rw [packets.eq_def] at hp
      simp only at hp
      split at hp
      · rename_i hlearns
        have hcmd : (learned s.jobs.net mem (rxBufferOffset descId)).pendingCmd ≠ .ping := fun hcmd =>
          hping hlearns.1 ⟨hlearns.2.1, hlearns.2.2, hcmd⟩
        exact isOther_launchPending hcmd hp
      · exact absurd hp List.not_mem_nil
  | command length regs msg timeMs =>
    have hno : ¬ (netCommand (regs 0) = .ping ∧ 3 ≤ length ∧ s.jobs.net.haveRouterMac = true) :=
      fun hcmd => hstart ⟨_, hcmd.1, hcmd.2.1, hcmd.2.2, rfl⟩
    exact ⟨if_neg hno, fun p hp => isOther_handleCommand hno hp⟩
  | turn | bootTimeout => exact ⟨rfl, fun p hp => absurd hp List.not_mem_nil⟩
  | pingTimeout | pingSend => exact absurd trivial hcode
  | ntpResync timeMs uptimeMs =>
    refine ⟨rfl, fun p hp => ?_⟩
    rw [packets.eq_def] at hp
    simp only [checkNtpResyncPackets] at hp
    split at hp
    · exact absurd hp List.not_mem_nil
    · split at hp
      · exact absurd hp List.not_mem_nil
      · split at hp
        · exact .inr ⟨_, _, _, _, _, _, List.mem_singleton.mp hp⟩
        · exact .inl (List.mem_singleton.mp hp)

/-- **Marks.** Every call does what its marks tell. -/
theorem marksTell (s : Station) (e : JobEvent) : MarksTell s e := by
  -- a call that starts a series leaves the mark of the start alone
  by_cases hstart : ∃ count, StartsSeries s.jobs.net count e.netEvent
  · obtain ⟨count, hstart⟩ := hstart
    obtain ⟨hpings, hmarks⟩ := netStep_start hstart
    obtain ⟨hpackets, hmailbox⟩ := packets_startsSeries hstart
    have hno : .cleared ∉ pingMarks s.jobs.net e.netEvent := by
      rw [hmarks, List.mem_singleton]
      exact PingMark.noConfusion
    refine ⟨.inr ⟨count, hpings, hmarks⟩, fun _ => ?_, fun _ => ?_, others⟩
    · rw [hpackets, hmarks]
      rfl
    · rw [if_neg hno, hmailbox]
  · refine ⟨.inl (netStep_trans _ _ (not_exists.mp hstart)), fun hcode => ?_, fun hcode => ?_, others⟩
    · replace hcode := hcode.resolve_left hstart
      cases e with
      | frame descId mem timeMs =>
        have hpackets : s.packets (.frame descId mem timeMs) = [] :=
          if_neg fun hlearns => hcode.2.not_arpReply hlearns.2.1
        rw [hpackets, JobEvent.netEvent]
        rcases netStep_icmp s.jobs.net timeMs hcode.1 hcode.2 with ⟨-, -, hmarks⟩ | ⟨-, hmarks⟩
        · rw [hmarks, NetDriver.takeEchoMarks]
          exact (congrArg (List.map _) sentSeqs_scheduleNextPing).symm
        · rw [hmarks]
          rfl
      | pingTimeout timeMs =>
        exact (congrArg (List.map _) (sentSeqs_checkPingTimeout s.jobs.net)).symm
      | pingSend timeMs =>
        have hmac : (s.step (.pingSend timeMs)).jobs.net.routerMac = s.jobs.net.routerMac :=
          (SameKnowledge.checkPingSend timeMs).routerMac
        rw [hmac]
        exact checkPingSendPackets_eq s.myMac s.jobs.net s.pingTargetIp timeMs
      -- no other call runs ping code
      | command | turn | ntpResync | bootTimeout => exact hcode.elim
    · replace hcode := hcode.resolve_left hstart
      cases e with
      | frame descId mem timeMs =>
        show (netStep s.jobs.net (.frame descId mem timeMs)).mailbox = _
        rw [JobEvent.netEvent]
        rcases netStep_icmp s.jobs.net timeMs hcode.1 hcode.2 with ⟨rttUs, hstep, hmarks⟩ |
          ⟨hstep, hmarks⟩
        · rw [hstep, hmarks, takeEchoMarks_mailbox]
        · rw [hstep, hmarks, if_neg List.not_mem_nil]
      | pingTimeout timeMs => exact checkPingTimeout_mailbox s.jobs.net timeMs
      | pingSend timeMs =>
        exact (checkPingSend_mailbox s.jobs.net timeMs).trans
          (if_neg (not_cleared_checkPingSend timeMs)).symm
      | command | turn | ntpResync | bootTimeout => exact hcode.elim

end Station

section
variable {n : NetDriver} {count : ℕ} {es : List NetEvent}

/-- **A ping series.** From the start of a series on, for every count from 1 to 16, the log is one
that a series may leave, as long as no ping command comes; and the marks in the log tell what the
calls do to the pings, to the mailbox and on the wire. -/
theorem pingSeries_outcome {timeMs : ℕ} (h₁ : 1 ≤ count) (h₁₆ : count ≤ 16)
    (hmac : n.haveRouterMac = true) (hno : ∀ e ∈ es, ¬ IsPingCommand e) :
    SeriesOutcome count (netRun (n.startPingSeries count timeMs) es).pings
        (n.startPingSeriesMarks count timeMs ++ pingLog (n.startPingSeries count timeMs) es) ∧
      ∀ (s : Station) (e : JobEvent), MarksTell s e := by
  have hinit : SeriesInv count n.pings.nextSeq (n.pings.restart count) [] :=
    seriesInv_start h₁ h₁₆
  obtain ⟨hpings, hmarks⟩ := startPingSeries_pings n count timeMs
  have hfirst := hinit.send h₁₆ rfl (clampPings_pos count)
  rw [List.nil_append] at hfirst
  have hstart : SeriesInv count n.pings.nextSeq (n.startPingSeries count timeMs).pings
      (n.startPingSeriesMarks count timeMs) := by
    rw [hpings, hmarks]
    exact hfirst
  have hmac' : (n.startPingSeries count timeMs).haveRouterMac = true :=
    (SameKnowledge.startPingSeries count timeMs).haveRouterMac.trans hmac
  exact ⟨(seriesInv_netRun h₁₆ hmac' hno hstart).outcome, Station.marksTell⟩

end

/-- The driver when it knows the gateway. -/
def readyDriver : NetDriver := { NetDriver.start 0 with haveRouterMac := true }

/-- The turns of the loop only count. -/
theorem netRun_turns {n : NetDriver} (h : n.cpuLoops < 2 ^ 64) (k : ℕ) :
    netRun n (List.replicate k .turn) = { n with cpuLoops := (n.cpuLoops + k) % 2 ^ 64 } := by
  induction k with
  | zero =>
    rw [Nat.add_zero, Nat.mod_eq_of_lt h]
    rfl
  | succ k ih =>
    have hsucc : netRun n (List.replicate (k + 1) .turn) =
        netStep (netRun n (List.replicate k .turn)) .turn := by
      rw [List.replicate_succ']
      exact List.foldl_append
    rw [hsucc, ih]
    show { n with cpuLoops := ((n.cpuLoops + k) % 2 ^ 64 + 1) % 2 ^ 64 } = _
    rw [Nat.mod_add_mod, Nat.add_assoc]

/-- The log of one run after another. -/
theorem pingLog_append (n : NetDriver) (es es' : List NetEvent) :
    pingLog n (es ++ es') = pingLog n es ++ pingLog (netRun n es) es' := by
  induction es generalizing n with
  | nil => rfl
  | cons e es ih =>
    rw [List.cons_append, pingLog, pingLog, ih, List.append_assoc]
    rfl

/-- Turns leave no marks. -/
theorem pingLog_turns (n : NetDriver) (k : ℕ) : pingLog n (List.replicate k .turn) = [] := by
  induction k generalizing n with
  | zero => rfl
  | succ k ih =>
    rw [List.replicate_succ, pingLog, ih]
    rfl

/-- The first request is answered, the second one is not. -/
def answeredOnce : List NetEvent :=
  [.frame 0 firstReply 5, .pingSend 1005] ++
    (List.replicate pingTimeoutLoops .turn ++ [.pingTimeout 0])

/-- A reply, a time-out, and the mailbox is cleared. -/
theorem pingLog_answeredOnce : readyDriver.startPingSeriesMarks 2 0 ++
    pingLog (readyDriver.startPingSeries 2 0) answeredOnce =
      [.sent 1, .settled .reply 1, .sent 2, .settled .timeout 2, .cleared] := by
  rw [answeredOnce, pingLog_append, pingLog_append, pingLog_turns, netRun_turns (by decide +kernel)]
  decide +kernel

/-- A reply, a time-out, and the mailbox is cleared. -/
theorem pingSeries_outcome_answeredOnce :
    SeriesOutcome 2 (netRun (readyDriver.startPingSeries 2 0) answeredOnce).pings
      [.sent 1, .settled .reply 1, .sent 2, .settled .timeout 2, .cleared] := by
  have hno : ∀ e ∈ answeredOnce, ¬ IsPingCommand e := by
    intro e he
    rcases List.mem_append.mp he with he | he
    · rcases List.mem_pair.mp he with rfl | rfl <;> exact id
    · rcases List.mem_append.mp he with he | he
      · rw [List.eq_of_mem_replicate he]
        exact id
      · rw [List.mem_singleton.mp he]
        exact id
  rw [← pingLog_answeredOnce]
  exact (pingSeries_outcome (by decide) (by decide) rfl hno).1

end PsychWard.Net
