import PsychWard.Net.Answers
import PsychWard.Net.Delivery
import PsychWard.Net.PingSeries

/-!
# Jobs on the wire

`Accounted` of `PsychWard.Net.Pending` balances the jobs that the driver has accepted for later
against those that it has carried out. Here the entries of these books are tied to the packets:
`Books` says of a call what it has sent for the job that it enters as accepted or as carried out, and
that a call that enters nothing has sent nothing but ARP requests while the gateway's address is
unknown. `CarriesOut` says what it is to carry out a job: the packet with the job's own arguments has
gone to the gateway, and the driver waits for what the job is about.
-/

namespace PsychWard.Net

open Clock Traced

namespace Station

/-- The job has been carried out in the state `s'` by the packets `ps`, which go to the gateway at
the address `mac`. -/
def CarriesOut (mac : List UInt8) (timeMs : ℕ) (ps : List Packet) (s' : Station) : Job → Prop
  | .ping ip count => ∃ number, ps = [pingRequest s'.myMac mac ip number] ∧
      s'.jobs.net.waitsFor (.echo number) ∧ s'.jobs.net.pingSeriesRemaining + 1 = clampPings count ∧
        s'.pingTargetIp = ip
  | .send ip port text => ps = [udpMessage s'.myMac mac ip port text] ∧ s'.jobs.net.mailbox = 0
  | .resolve domain => ps = [dnsQuery s'.myMac mac domain] ∧ s'.jobs.net.waitsFor .name
  | .ntp => ps = [ntpRequest s'.myMac mac timeMs] ∧ s'.jobs.net.waitsFor (.time (timeMs / 1000))

/-- What a call enters into the books is what it does. -/
structure Books (s : Station) (e : JobEvent) : Prop where
  accepts : ∀ j, s.jobs.acceptedNow e = some j →
    s.packets e = [arpRequest s.myMac] ∧ (s.step e).jobs.pending = some j
  carriesOut : ∀ j, s.jobs.carriedOutNow e = some j →
    s.jobs.net.haveRouterMac = false ∧ (s.step e).jobs.net.haveRouterMac = true ∧
      ∃ descId mem timeMs, e = .frame descId mem timeMs ∧
        CarriesOut ((bytes (payloadOf (rxBufferOffset descId) + 8) 6).val mem) timeMs (s.packets e)
          (s.step e) j
  others : s.jobs.net.haveRouterMac = false → s.jobs.carriedOutNow e = none →
    ∀ p ∈ s.packets e, p = arpRequest s.myMac

/-- The jobs are accounted for, and none is carried out before the address is known. -/
structure Settled (s : Station) : Prop where
  jobs : s.jobs.Accounted
  before : s.jobs.net.haveRouterMac = false →
    s.jobs.carriedOut = [] ∧ ∀ p ∈ s.sent, p = arpRequest s.myMac

variable {s : Station} {e : JobEvent} {es : List JobEvent}

/-! ## One call -/

/-- A job that the driver accepts waits with its arguments, and the gateway is asked. -/
theorem accepts_packets {j : Job} (hknown : s.jobs.net.haveRouterMac = true → s.jobs.pending = none)
    (h : s.jobs.acceptedNow e = some j) :
    s.packets e = [arpRequest s.myMac] ∧ (s.step e).jobs.pending = some j := by
  constructor
  · cases e with
    | command length regs msg timeMs =>
      obtain ⟨hno, hjob⟩ := Option.ite_none_left_eq_some.mp h
      obtain ⟨hmac, hntp⟩ := not_or.mp hno
      rw [commandJob] at hjob
      split at hjob
      · cases hjob
      · rename_i hlength
        show handleCommandPackets s.myMac s.jobs.net s.jobs.args length regs msg timeMs = _
        rw [handleCommandPackets, if_neg hlength]
        cases hcmd : netCommand (regs 0) with
        | ping =>
          simp only [hcmd] at hjob
          obtain ⟨hthree, -⟩ := Option.ite_none_right_eq_some.mp hjob
          simp only [if_pos hthree, if_neg hmac]
        | send =>
          simp only [hcmd] at hjob
          obtain ⟨hfour, -⟩ := Option.ite_none_right_eq_some.mp hjob
          simp only [if_pos hfour, if_neg hmac]
        | resolve => simp only [if_neg hmac]
        | ntp => simp only [if_neg hmac, if_neg fun hout => hntp ⟨hcmd, hout⟩]
        | none | status | recv =>
          rw [hcmd] at hjob
          cases hjob
    | ntpResync timeMs uptimeMs =>
      obtain ⟨hno, -⟩ := Option.ite_none_left_eq_some.mp h
      obtain ⟨hmac, hout, hcmd, hdue⟩ : ¬ s.jobs.net.haveRouterMac = true ∧
          ¬ s.jobs.net.ntpOutstanding = true ∧ ¬ s.jobs.net.pendingCmd = .ntp ∧
            ¬ uptimeMs < s.jobs.net.ntpNextResyncUptimeMs := by
        simpa only [not_or] using hno
      show checkNtpResyncPackets s.myMac s.jobs.net timeMs uptimeMs = _
      rw [checkNtpResyncPackets, if_neg (by simp [hout, hcmd]), if_neg hdue, if_neg hmac]
    | frame | turn | pingTimeout | pingSend | bootTimeout => cases h
  · cases step_effect hknown e with
    | accepts i hnow _ _ _ hpending => exact hpending.trans (hnow.symm.trans h)
    | carriesOut hnow | timesOut hnow | same hnow => cases hnow.symm.trans h

/-- The ARP reply that is taken carries out the job that waits. -/
theorem carriesOut_learns {descId timeMs : ℕ} {mem : Window} {j : Job}
    (h : LearnsMac s.jobs.net descId mem) (hj : s.jobs.pending = some j) :
    CarriesOut ((bytes (payloadOf (rxBufferOffset descId) + 8) 6).val mem) timeMs
      (s.packets (.frame descId mem timeMs)) (s.step (.frame descId mem timeMs)) j := by
  have hnet : (s.step (.frame descId mem timeMs)).jobs.net = startJob
      { learned s.jobs.net mem (rxBufferOffset descId) with pendingCmd := .none } timeMs j := by
    have hlearned :
        pendingJob (learned s.jobs.net mem (rxBufferOffset descId)) s.jobs.args = some j := hj
    show netStep s.jobs.net (.frame descId mem timeMs) = _
    rw [netStep_learns h, launchPending_eq _ s.jobs.args, hlearned]
    rfl
  rw [packets_learns h hj]
  generalize hs' : s.step (.frame descId mem timeMs) = s' at hnet
  have hmy : s'.myMac = s.myMac := by
    rw [← hs']
    rfl
  cases j with
  | ping ip count =>
    -- a ping waits, so its target is the one that the command has stored
    obtain ⟨hcmd, rfl⟩ : s.jobs.net.pendingCmd = .ping ∧ s.jobs.args.pendingIp = ip := by
      rw [JobDriver.pending, pendingJob] at hj
      split at hj <;> cases hj
      exact ⟨‹_›, rfl⟩
    have hpings := (congrArg NetDriver.pings hnet).trans (startPingSeries_pings _ count timeMs).1
    have hout : s'.jobs.net.pingOutstanding = true := congrArg PingState.outstanding hpings
    have hseq : s'.jobs.net.pingOutstandingSeq = seqAfter s.jobs.net.pingNextSeq :=
      congrArg PingState.outstandingSeq hpings
    have hremaining : s'.jobs.net.pingSeriesRemaining = clampPings count - 1 :=
      congrArg PingState.remaining hpings
    refine ⟨seqAfter s.jobs.net.pingNextSeq, ?_, ⟨hout, hseq⟩, ?_, ?_⟩
    · show startPingSeriesPackets _ _ _ _ _ = _
      rw [startPingSeriesPackets_eq, (startPingSeries_pings _ _ timeMs).2, hmy]
      rfl
    · rw [hremaining]
      exact Nat.succ_pred_eq_of_pos (clampPings_pos count)
    · rw [← hs']
      exact if_pos ⟨h, hcmd⟩
  | send ip port text =>
    refine ⟨?_, ?_⟩
    · rw [hmy]
      rfl
    · rw [hnet]
      rfl
  | resolve domain =>
    refine ⟨?_, ?_⟩
    · rw [hmy]
      rfl
    · show s'.jobs.net.dnsOutstanding = true
      rw [hnet]
      rfl
  | ntp =>
    refine ⟨?_, ?_⟩
    · rw [hmy]
      rfl
    · show s'.jobs.net.ntpOutstanding = true ∧ s'.jobs.net.ntpT1EpochS = timeMs / 1000
      rw [hnet]
      exact ⟨rfl, rfl⟩

/-- While the address is unknown a call that takes up no job sends nothing but ARP requests. -/
theorem others_packets (hseries : s.jobs.net.pingSeriesRemaining ≠ 0 →
      s.jobs.net.haveRouterMac = true) (hmac : s.jobs.net.haveRouterMac = false)
    (h : s.jobs.carriedOutNow e = none) : ∀ p ∈ s.packets e, p = arpRequest s.myMac := by
  have hno : ¬ s.jobs.net.haveRouterMac = true := by
    rw [hmac]
    exact Bool.false_ne_true
  have harp : ∀ {p : Packet}, p ∈ [arpRequest s.myMac] → p = arpRequest s.myMac :=
    List.mem_singleton.mp
  intro p hp
  rw [packets.eq_def] at hp
  cases e with
  | frame descId mem timeMs =>
    dsimp only at hp
    by_cases hlearns : LearnsMac s.jobs.net descId mem
    · have hpending : s.jobs.pending = none := (if_pos hlearns).symm.trans h
      have hlearned :
          pendingJob (learned s.jobs.net mem (rxBufferOffset descId)) s.jobs.args = none := hpending
      rw [if_pos hlearns, launchPendingPackets_eq, hlearned] at hp
      exact absurd hp List.not_mem_nil
    · rw [if_neg hlearns] at hp
      exact absurd hp List.not_mem_nil
  | command length regs msg timeMs =>
    simp only [handleCommandPackets, if_neg hno] at hp
    split at hp
    · exact absurd hp List.not_mem_nil
    · split at hp
      · split at hp
        · exact harp hp
        · exact absurd hp List.not_mem_nil
      · split at hp
        · exact harp hp
        · exact absurd hp List.not_mem_nil
      · exact harp hp
      · split at hp
        · exact absurd hp List.not_mem_nil
        · exact harp hp
      all_goals exact absurd hp List.not_mem_nil
  | turn | pingTimeout | bootTimeout => exact absurd hp List.not_mem_nil
  -- a series runs only once the address is known
  | pingSend timeMs =>
    have hzero : s.jobs.net.pingSeriesRemaining = 0 := by
      by_contra hne
      exact hno (hseries hne)
    dsimp only at hp
    rw [checkPingSendPackets, if_pos (by simp [hzero])] at hp
    exact absurd hp List.not_mem_nil
  | ntpResync timeMs uptimeMs =>
    simp only [checkNtpResyncPackets, if_neg hno] at hp
    split at hp
    · exact absurd hp List.not_mem_nil
    · split at hp
      · exact absurd hp List.not_mem_nil
      · exact harp hp

/-- **The books.** Every call enters what it does. -/
theorem books (hseries : s.jobs.net.pingSeriesRemaining ≠ 0 → s.jobs.net.haveRouterMac = true)
    (hknown : s.jobs.net.haveRouterMac = true → s.jobs.pending = none) (e : JobEvent) :
    s.Books e where
  accepts _ h := accepts_packets hknown h
  carriesOut j h := by
    cases e with
    | frame descId mem timeMs =>
      obtain ⟨hlearns, hj⟩ := Option.ite_none_right_eq_some.mp h
      exact ⟨hlearns.2.2, netStep_arp_mac hlearns.1 hlearns.2.1 hlearns.2.2,
        descId, mem, timeMs, rfl, carriesOut_learns hlearns hj⟩
    | command | turn | pingTimeout | pingSend | ntpResync | bootTimeout => cases h
  others hmac h := others_packets hseries hmac h

/-! ## Runs -/

/-- The address stays unknown only if no job is taken up. -/
theorem Settled.before_step (h : s.Settled)
    (hseries : s.jobs.net.pingSeriesRemaining ≠ 0 → s.jobs.net.haveRouterMac = true)
    (hmac' : (s.step e).jobs.net.haveRouterMac = false) : (s.step e).jobs.carriedOut = [] ∧
      ∀ p ∈ (s.step e).sent, p = arpRequest (s.step e).myMac := by
  have hmac : s.jobs.net.haveRouterMac = false := by
    cases hmac : s.jobs.net.haveRouterMac with
    | false => rfl
    | true => exact (netStep_haveRouterMac e.netEvent hmac).symm.trans hmac'
  obtain ⟨hnone, hsent⟩ := h.before hmac
  have hbooks := books hseries h.jobs.known e
  have hout : s.jobs.carriedOutNow e = none := by
    cases hout : s.jobs.carriedOutNow e with
    | none => rfl
    | some j => cases (hbooks.carriesOut j hout).2.1.symm.trans hmac'
  refine ⟨?_, fun p hp => ?_⟩
  · show s.jobs.carriedOut ++ (s.jobs.carriedOutNow e).toList = []
    rw [hnone, hout]
    rfl
  · rcases List.mem_append.mp hp with hp | hp
    · exact hsent p hp
    · exact hbooks.others hmac hout p hp

/-- **What waits for the gateway.** In a run that puts no job in the place of another every job is
accounted for, and a call after it keeps the books exactly when it does not either. A call that
enters a job as carried out takes the ARP reply and sends what that job asks for, with its own
arguments; before that nothing but ARP requests has been sent. -/
theorem jobs_accounted {uptimeMs : ℕ} {myMac : List UInt8}
    (h : Run (guarded Step fun s e => ¬ s.jobs.Overwrites e) (start uptimeMs myMac) es s) :
    s.Settled ∧ ∀ e, ((s.step e).jobs.Accounted ↔ ¬ s.jobs.Overwrites e) ∧ s.Books e := by
  have hinit : (start uptimeMs myMac).Settled :=
    ⟨accounted_start uptimeMs, fun _ => ⟨rfl, fun p hp => List.mem_singleton.mp hp⟩⟩
  have hrun := h.invariant (I := fun s => s.Settled ∧
      (s.jobs.net.pingSeriesRemaining ≠ 0 → s.jobs.net.haveRouterMac = true)) ?_
    ⟨hinit, fun hne => absurd rfl hne⟩
  · exact ⟨hrun.1, fun e => ⟨hrun.1.jobs.step e, books hrun.2 hrun.1.jobs.known e⟩⟩
  · rintro s e _ ⟨hsettled, hseries⟩ ⟨hover, rfl⟩
    exact ⟨⟨(hsettled.jobs.step e).mpr hover, hsettled.before_step hseries⟩,
      series_step hseries e.netEvent⟩

/-- The boot-time request times out, and the shell's `send hi` waits when the gateway answers. -/
def lateGateway : List JobEvent :=
  [.bootTimeout 60000, .command sendHi.length sendHi.regs (fun _ => 0) 60010]

theorem jobs_accounted_lateGateway : CarriesOut [0x52, 0x55, 10, 0, 2, 2] 1000
    ((lateGateway.foldl step (start 0 someMac)).packets gatewayAnswers)
    ((lateGateway.foldl step (start 0 someMac)).step gatewayAnswers)
    (.send [10, 0, 2, 2] 8080 [104, 105]) := by
  have hrun : Run (guarded Step fun s e => ¬ s.jobs.Overwrites e) (start 0 someMac) lateGateway
      (lateGateway.foldl step (start 0 someMac)) := by
    refine .cons ⟨fun hover => hover.2 rfl, rfl⟩ (.single ⟨fun hover => hover.1 ?_, rfl⟩)
    decide +kernel
  have hjob : (lateGateway.foldl step (start 0 someMac)).jobs.carriedOutNow gatewayAnswers =
      some (.send [10, 0, 2, 2] 8080 [104, 105]) := by decide +kernel
  obtain ⟨-, -, descId, mem, timeMs, heq, hcarries⟩ :=
    ((jobs_accounted hrun).2 gatewayAnswers).2.carriesOut _ hjob
  cases heq
  exact hcarries

/-- Registers that begin with `ws`. -/
def registersOf (ws : List ℕ) : Registers := fun i => ws.getD i 0

/-- `ping 10.0.2.2`. -/
def pingGateway : JobEvent := .command 4 (registersOf [1, 0x0A000202, 1, 0]) (fun _ => 0) 0

/-- A ping right after the start takes the place of the boot-time request. -/
theorem not_accounted_ping : ¬ ∀ (uptimeMs : ℕ) (myMac : List UInt8) (es : List JobEvent)
    (s : Station), Run Step (start uptimeMs myMac) es s → s.jobs.Accounted := by
  intro h
  have hbooks := h 0 someMac _ _ (.single (e := pingGateway) rfl)
  exact absurd hbooks.jobs.length_eq (by decide +kernel)

end Station

end PsychWard.Net
