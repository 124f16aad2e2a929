import PsychWard.Net.Solicited
import PsychWard.Net.CommandText
import PsychWard.Net.DnsAnswer

/-!
# What waits for the gateway's address

A command that needs the gateway's address while the driver has none is kept in `pending_cmd`, its
arguments in slots of their own, until the ARP reply comes. `Job` is a command with its arguments.
The driver keeps one of them: the boot-time request of `main`, a command of the shell and a periodic
synchronisation all write the same variable. `Accounted` says that every job that was accepted has
been carried out, or was an SNTP request whose time-out has been reported, or is the one that waits.

The messages are here with all their registers. `accepted`, `carriedOut` and `timeouts` are ghost
fields.
-/

namespace PsychWard.Net

open Clock Traced

/-- `default_udp_ip` and `default_udp_port`. -/
def defaultUdpIp : List UInt8 := [10, 0, 2, 2]
def defaultUdpPort : ℕ := 8080

/-- The command number in the first register. -/
def netCommand : ℕ → NetCommand
  | 1 => .ping
  | 2 => .send
  | 3 => .status
  | 4 => .resolve
  | 5 => .recv
  | 6 => .ntp
  | _ => .none

/-- A command with its arguments. -/
inductive Job
  | ping (ip : List UInt8) (count : ℕ)
  | send (ip : List UInt8) (port : ℕ) (text : List UInt8)
  | resolve (domain : List UInt8)
  | ntp
deriving DecidableEq, Repr

/-! ## Texts in arrays -/

/-- The text in an array of `textSize` bytes, up to its NUL. -/
def textOf (a : ℤ → UInt8) : List UInt8 :=
  ((List.range textSize).map fun i : ℕ => a i).takeWhile (· ≠ 0)

/-- `my_strlen`. -/
def strlen (a : ℤ → UInt8) : ℕ := (textOf a).length

/-- `my_memcpy`. -/
def memcpy (dst src : ℤ → UInt8) (n : ℕ) : ℤ → UInt8 := fun i =>
  if 0 ≤ i ∧ i < n then src i else dst i

/-- A NUL ends the text in front of the end of the array. -/
theorem length_takeWhile_lt {l : List UInt8} (h : 0 ∈ l) :
    (l.takeWhile (· ≠ 0)).length < l.length := by
  refine (List.takeWhile_sublist _).length_le.lt_of_ne fun heq => ?_
  have hall := List.takeWhile_eq_self_iff.mp ((List.takeWhile_sublist _).eq_of_length heq) 0 h
  simp at hall

theorem mem_bytes {a : ℤ → UInt8} {l n : ℕ} (hl : l < n) (hnul : a l = 0) :
    0 ∈ (List.range n).map fun i : ℕ => a i :=
  List.mem_map.mpr ⟨l, List.mem_range.mpr hl, hnul⟩

theorem strlen_lt {a : ℤ → UInt8} {l : ℕ} (hl : l < textSize) (hnul : a l = 0) :
    strlen a < textSize := by
  have hlt := length_takeWhile_lt (mem_bytes hl hnul)
  rwa [List.length_map, List.length_range] at hlt

/-- What lies behind a NUL is no part of the text. -/
theorem textOf_congr {a b : ℤ → UInt8} {l : ℕ} (hl : l < textSize) (hnul : a l = 0)
    (h : ∀ i : ℕ, i ≤ l → b i = a i) : textOf b = textOf a := by
  have hcut : ∀ c : ℤ → UInt8, c l = 0 →
      textOf c = ((List.range (l + 1)).map fun i : ℕ => c i).takeWhile (· ≠ 0) := by
    intro c hc
    have hrange : List.range textSize =
        List.range (l + 1) ++ (List.range (textSize - (l + 1))).map (l + 1 + ·) := by
      rw [← List.range_add]
      congr 1
      omega
    have hshort := length_takeWhile_lt (mem_bytes (Nat.lt_succ_self l) hc)
    rw [textOf, hrange, List.map_append, List.takeWhile_append, if_neg hshort.ne]
  rw [hcut a hnul, hcut b (by rw [h l le_rfl, hnul])]
  congr 1
  refine List.map_congr_left fun i hi => h i ?_
  have := List.mem_range.mp hi
  omega

/-- Behind the text there is its NUL. -/
theorem getD_takeWhile (l : List UInt8) : l.getD (l.takeWhile (· ≠ 0)).length 0 = 0 := by
  induction l with
  | nil => rfl
  | cons b l ih =>
    by_cases hb : b = 0
    · simp [hb]
    · rw [List.takeWhile_cons, if_pos (by simpa using hb), List.length_cons, List.getD_cons_succ]
      exact ih

/-- A copied text is the text. -/
theorem textOf_memcpy {a : ℤ → UInt8} (dst : ℤ → UInt8) (h : strlen a < textSize) :
    textOf (memcpy dst a (strlen a + 1)) = textOf a := by
  refine textOf_congr h ?_ fun i hi => if_pos ⟨by omega, by omega⟩
  have hnul := getD_takeWhile ((List.range textSize).map fun i : ℕ => a i)
  rw [← textOf, ← strlen, List.getD_eq_getElem _ _ (by simpa using h)] at hnul
  simpa using hnul

/-- Where the text of a command ends, and that it does not depend on what the array held before. -/
theorem commandText_nul (length : ℕ) (regs : Registers) : ∃ l : ℕ, l < textSize ∧
    (∀ dst, commandText dst length regs l = 0) ∧
      ∀ dst dst' (i : ℕ), i ≤ l →
        commandText dst length regs i = commandText dst' length regs i := by
  have hnonneg : 0 ≤ cutTextLen textSize (toInt32 (regs 3)) length := cutTextLen_nonneg (by decide)
  have hlt : cutTextLen textSize (toInt32 (regs 3)) length < textSize := cutTextLen_lt
  obtain ⟨l, hl⟩ := Int.eq_ofNat_of_zero_le hnonneg
  have hval : ∀ (d : ℤ → UInt8) (j : ℤ), commandText d length regs j =
      if j = l then 0 else (copyTextLoop d 0 l).val regs j := by
    intro d j
    rw [commandText, copyTextFromMrs, val_bind, val_access, hl, Int.toNat_natCast,
      Function.update_apply]
  refine ⟨l, by omega, fun d => by rw [hval, if_pos rfl], fun d d' i hi => ?_⟩
  rw [hval, hval]
  by_cases hend : (i : ℤ) = l
  · rw [if_pos hend, if_pos hend]
  · rw [if_neg hend, if_neg hend, copyTextLoop_val, copyTextLoop_val, if_pos (by omega),
      if_pos (by omega)]

theorem textOf_commandText (dst dst' : ℤ → UInt8) (length : ℕ) (regs : Registers) :
    textOf (commandText dst length regs) = textOf (commandText dst' length regs) := by
  obtain ⟨l, hl, hnul, hsame⟩ := commandText_nul length regs
  exact textOf_congr hl (hnul dst') (hsame dst dst')

theorem strlen_commandText (dst : ℤ → UInt8) (length : ℕ) (regs : Registers) :
    strlen (commandText dst length regs) < textSize := by
  obtain ⟨l, hl, hnul, -⟩ := commandText_nul length regs
  exact strlen_lt hl (hnul dst)

/-! ## The slots of the arguments -/

/-- The variables that keep the arguments, apart from the count of a ping series. -/
structure Arguments where
  pendingIp : List UInt8
  pendingUdpIp : List UInt8
  pendingUdpPort : ℕ
  pendingUdp : ℤ → UInt8
  dnsPendingDomain : ℤ → UInt8

/-- Their values at start. -/
def Arguments.start : Arguments where
  pendingIp := [10, 0, 2, 2]
  pendingUdpIp := [10, 0, 2, 2]
  pendingUdpPort := 8080
  pendingUdp _ := 0
  dnsPendingDomain _ := 0

/-- The destination of a `NET_CMD_SEND`; zero stands for the default. -/
def sendIp (regs : Registers) : List UInt8 :=
  let dstIp := unpackIpv4 (regs 1)
  if dstIp = [0, 0, 0, 0] then defaultUdpIp else dstIp

def sendPort (regs : Registers) : ℕ :=
  let dstPort := regs 2 % 2 ^ 16
  if dstPort = 0 then defaultUdpPort else dstPort

/-- What `net_handle_command` stores of a message. `msg` is the array on its stack, before the text
is copied into it. The domain of a `NET_CMD_RESOLVE` goes into its slot in any case. -/
def Arguments.store (a : Arguments) (haveRouterMac : Bool) (length : ℕ) (regs : Registers)
    (msg : ℤ → UInt8) : Arguments :=
  if length = 0 then a
  else match netCommand (regs 0) with
  | .ping =>
    if 3 ≤ length ∧ haveRouterMac = false then { a with pendingIp := unpackIpv4 (regs 1) } else a
  | .send =>
    if 4 ≤ length ∧ haveRouterMac = false then
      let msg := commandText msg length regs
      { a with
        pendingUdpIp := sendIp regs
        pendingUdpPort := sendPort regs
        pendingUdp := memcpy a.pendingUdp msg (strlen msg + 1) }
    else a
  | .resolve => { a with dnsPendingDomain := commandText a.dnsPendingDomain length regs }
  | _ => a

/-- The job that waits, read from the slots. -/
def pendingJob (n : NetDriver) (a : Arguments) : Option Job :=
  match n.pendingCmd with
  | .ping => some (.ping a.pendingIp n.pendingPingCount)
  | .send => some (.send a.pendingUdpIp a.pendingUdpPort (textOf a.pendingUdp))
  | .resolve => some (.resolve (textOf a.dnsPendingDomain))
  | .ntp => some .ntp
  | .none | .status | .recv => none

/-- Carry out a job. -/
def startJob (n : NetDriver) (timeMs : ℕ) : Job → NetDriver
  | .ping _ count => n.startPingSeries count timeMs
  | .send _ _ _ => n.sendUdp
  | .resolve _ => n.sendDnsQuery
  | .ntp => n.sendNtpRequest timeMs

/-- The job of a message, with the arguments that its registers hold. -/
def commandJob (length : ℕ) (regs : Registers) : Option Job :=
  if length = 0 then none
  else match netCommand (regs 0) with
  | .ping =>
    if 3 ≤ length then some (.ping (unpackIpv4 (regs 1)) (clampPings (regs 2 % 2 ^ 32))) else none
  | .send =>
    if 4 ≤ length then
      some (.send (sendIp regs) (sendPort regs) (textOf (commandText (fun _ => 0) length regs)))
    else none
  | .resolve => some (.resolve (textOf (commandText (fun _ => 0) length regs)))
  | .ntp => some .ntp
  | .none | .status | .recv => none

/-! ## The driver with its jobs -/

/-- A call of the main loop; a message comes with its registers. -/
inductive JobEvent
  | frame (descId : ℕ) (mem : Window) (timeMs : ℕ)
  | command (length : ℕ) (regs : Registers) (msg : ℤ → UInt8) (timeMs : ℕ)
  | turn
  | pingTimeout (timeMs : ℕ)
  | pingSend (timeMs : ℕ)
  | ntpResync (timeMs uptimeMs : ℕ)
  | bootTimeout (uptimeMs : ℕ)

def JobEvent.netEvent : JobEvent → NetEvent
  | .frame descId mem timeMs => .frame descId mem timeMs
  | .command length regs _ timeMs => .command ⟨length, netCommand (regs 0), regs 2⟩ timeMs
  | .turn => .turn
  | .pingTimeout timeMs => .pingTimeout timeMs
  | .pingSend timeMs => .pingSend timeMs
  | .ntpResync timeMs uptimeMs => .ntpResync timeMs uptimeMs
  | .bootTimeout uptimeMs => .bootTimeout uptimeMs

structure JobDriver where
  net : NetDriver
  args : Arguments
  /-- the jobs that were accepted while the gateway's address was unknown -/
  accepted : List Job
  /-- those that were carried out when the ARP reply came -/
  carriedOut : List Job
  /-- how many pending SNTP requests ended with a report of the time-out -/
  timeouts : ℕ

namespace JobDriver

/-- The boot-time request waits. -/
def start (uptimeMs : ℕ) : JobDriver := ⟨.start uptimeMs, .start, [.ntp], [], 0⟩

variable (d : JobDriver)

def pending : Option Job := pendingJob d.net d.args

/-- The job that the call accepts for later: a command of the shell, or the periodic synchronisation
when it is due. -/
def acceptedNow : JobEvent → Option Job
  | .command length regs _ _ =>
    if d.net.haveRouterMac = true ∨
      netCommand (regs 0) = .ntp ∧ d.net.ntpOutstanding = true then none
    else commandJob length regs
  | .ntpResync _ uptimeMs =>
    if d.net.haveRouterMac = true ∨ d.net.ntpOutstanding = true ∨ d.net.pendingCmd = .ntp ∨
      uptimeMs < d.net.ntpNextResyncUptimeMs then none
    else some .ntp
  | _ => none

/-- The job that the call carries out for the ARP reply. -/
def carriedOutNow : JobEvent → Option Job
  | .frame descId mem _ =>
    if descId < 4 ∧ IsArpReply mem (rxBufferOffset descId) ∧ d.net.haveRouterMac = false then
      d.pending
    else none
  | _ => none

/-- The call reports the time-out of a pending SNTP request. -/
def timesOut : JobEvent → Bool
  | .bootTimeout uptimeMs => d.net.ntpBootSyncPending &&
    decide (d.net.ntpBootDeadlineMs ≤ uptimeMs) && d.net.pendingCmd == .ntp
  | _ => false

/-- The slots after the call. -/
def storeArguments : JobEvent → Arguments
  | .command length regs msg _ => d.args.store d.net.haveRouterMac length regs msg
  | _ => d.args

def step (e : JobEvent) : JobDriver where
  net := netStep d.net e.netEvent
  args := d.storeArguments e
  accepted := d.accepted ++ (d.acceptedNow e).toList
  carriedOut := d.carriedOut ++ (d.carriedOutNow e).toList
  timeouts := if d.timesOut e then d.timeouts + 1 else d.timeouts

def Step (e : JobEvent) (d' : JobDriver) : Prop := d.step e = d'

/-- Every job that was accepted has been carried out, with its own arguments, or was an SNTP request
whose time-out has been reported, or waits. None waits once the address is known. -/
structure Accounted : Prop where
  jobs : d.accepted.Perm (d.carriedOut ++ List.replicate d.timeouts .ntp ++ d.pending.toList)
  known : d.net.haveRouterMac = true → d.pending = none

/-- The call accepts a job while another one waits. -/
def Overwrites (e : JobEvent) : Prop := d.pending ≠ none ∧ d.acceptedNow e ≠ none

end JobDriver

/-! ## What leaves the pending command alone -/

/-- Nothing was accepted for later and nothing taken up. -/
structure SamePending (n n' : NetDriver) : Prop where
  pendingCmd : n'.pendingCmd = n.pendingCmd
  pendingPingCount : n'.pendingPingCount = n.pendingPingCount
  haveRouterMac : n'.haveRouterMac = n.haveRouterMac

namespace SamePending

variable {n n' n'' : NetDriver}

theorem refl (n : NetDriver) : SamePending n n := ⟨rfl, rfl, rfl⟩

theorem trans (h : SamePending n n') (h' : SamePending n' n'') : SamePending n n'' where
  pendingCmd := h'.pendingCmd.trans h.pendingCmd
  pendingPingCount := h'.pendingPingCount.trans h.pendingPingCount
  haveRouterMac := h'.haveRouterMac.trans h.haveRouterMac

theorem ite {c : Prop} [Decidable c] (h : c → SamePending n n') (h' : ¬ c → SamePending n n'') :
    SamePending n (if c then n' else n'') := by
  split
  · exact h ‹_›
  · exact h' ‹_›

theorem scheduleNextPing (timeMs : ℕ) : SamePending n (n.scheduleNextPing timeMs) :=
  .ite (fun _ => ⟨rfl, rfl, rfl⟩) fun _ => ⟨rfl, rfl, rfl⟩

theorem checkPingSend (timeMs : ℕ) : SamePending n (n.checkPingSend timeMs) := by
  refine .ite (fun _ => .refl n) fun _ => .ite (fun _ => ?_) fun _ => .refl n
  exact .ite (fun _ => ⟨rfl, rfl, rfl⟩) fun _ => ⟨rfl, rfl, rfl⟩

theorem startPingSeries (count timeMs : ℕ) : SamePending n (n.startPingSeries count timeMs) := by
  refine trans ?_ (checkPingSend timeMs)
  exact ⟨rfl, rfl, rfl⟩

theorem checkPingTimeout (timeMs : ℕ) : SamePending n (n.checkPingTimeout timeMs) := by
  refine .ite (fun _ => .refl n) fun _ => .ite (fun _ => .refl n) fun _ => ?_
  refine trans ?_ (scheduleNextPing timeMs)
  exact ⟨rfl, rfl, rfl⟩

theorem startJob (j : Job) (timeMs : ℕ) : SamePending n (startJob n timeMs j) := by
  cases j with
  | ping => exact .startPingSeries _ timeMs
  | send | resolve | ntp => exact ⟨rfl, rfl, rfl⟩

theorem takeNtp (p : NtpPacket) (timeMs : ℕ) : SamePending n (takeNtp n p timeMs) :=
  ⟨n.toNtpClient.pollNtpReply_pendingCmd p timeMs, rfl, pollNtpReply_haveRouterMac _ p⟩

/-- Once the address is known a command is handled at once. -/
theorem handleCommand (hmac : n.haveRouterMac = true) (m : NetMessage) (timeMs : ℕ) :
    SamePending n (n.handleCommand m timeMs) := by
  rw [NetDriver.handleCommand, if_pos hmac, if_pos hmac, if_pos hmac, if_pos hmac]
  refine .ite (fun _ => .refl n) fun _ => .ite (fun _ => .startPingSeries _ timeMs) fun _ => ?_
  refine .ite (fun _ => ⟨rfl, rfl, rfl⟩) fun _ => .ite (fun _ => ⟨rfl, rfl, rfl⟩) fun _ => ?_
  refine .ite (fun _ => ⟨rfl, rfl, rfl⟩) fun _ => .ite (fun _ => ⟨rfl, rfl, rfl⟩) fun _ => ?_
  exact .ite (fun _ => .ite (fun _ => ⟨rfl, rfl, rfl⟩) fun _ => ⟨rfl, rfl, rfl⟩) fun _ => .refl n

theorem pendingJob (h : SamePending n n') (a : Arguments) : pendingJob n' a = pendingJob n a := by
  rw [Net.pendingJob, Net.pendingJob, h.pendingCmd, h.pendingPingCount]

end SamePending

/-- Whether a job waits does not depend on the slots. -/
theorem pendingJob_none {n : NetDriver} {a : Arguments} (h : pendingJob n a = none)
    (a' : Arguments) : pendingJob n a' = none := by
  rw [pendingJob] at h ⊢
  cases hcmd : n.pendingCmd with
  | ping | send | resolve | ntp =>
    rw [hcmd] at h
    cases h
  | none | status | recv => rfl

theorem pendingJob_ntp {n : NetDriver} {a : Arguments} (h : n.pendingCmd = .ntp) :
    pendingJob n a = some .ntp := by
  rw [pendingJob, h]

/-- What the ARP branch does: the job that waits is carried out. -/
theorem launchPending_eq (n : NetDriver) (a : Arguments) (timeMs : ℕ) : launchPending n timeMs =
    ((pendingJob n a).map (startJob { n with pendingCmd := .none } timeMs)).getD n := by
  rw [launchPending, pendingJob]
  cases n.pendingCmd with
  | ping | send | resolve | ntp | none | status | recv => rfl

theorem launchPending_pendingJob (n : NetDriver) (a : Arguments) (timeMs : ℕ) :
    pendingJob (launchPending n timeMs) a = none ∧
      (launchPending n timeMs).haveRouterMac = n.haveRouterMac := by
  rw [launchPending_eq n a]
  cases hjob : pendingJob n a with
  | none => exact ⟨hjob, rfl⟩
  | some j =>
    have hsame := SamePending.startJob (n := { n with pendingCmd := .none }) j timeMs
    exact ⟨hsame.pendingJob a, hsame.haveRouterMac⟩

/-- Without the address a command is kept with its arguments, or the one that waits stays. -/
theorem handleCommand_unknown {n : NetDriver} (hmac : n.haveRouterMac = false) (a : Arguments)
    (length : ℕ) (regs : Registers) (msg : ℤ → UInt8) (timeMs : ℕ) :
    (n.handleCommand ⟨length, netCommand (regs 0), regs 2⟩ timeMs).haveRouterMac = false ∧
      pendingJob (n.handleCommand ⟨length, netCommand (regs 0), regs 2⟩ timeMs)
          (a.store n.haveRouterMac length regs msg) =
        if netCommand (regs 0) = .ntp ∧ n.ntpOutstanding = true then pendingJob n a
        else (commandJob length regs).or (pendingJob n a) := by
  have hbool : ¬ n.haveRouterMac = true := by rw [hmac]; exact Bool.false_ne_true
  by_cases hlength : length = 0
  · rw [NetDriver.handleCommand, Arguments.store, commandJob, if_pos hlength, if_pos hlength,
      if_pos hlength]
    refine ⟨hmac, ?_⟩
    split <;> rfl
  · rw [NetDriver.handleCommand, Arguments.store, commandJob, if_neg hlength, if_neg hlength,
      if_neg hlength, if_neg hbool, if_neg hbool, if_neg hbool, if_neg hbool]
    -- a message with too few registers is no command of its kind, and is dropped
    cases hcmd : netCommand (regs 0) with
    | ping =>
      by_cases hthree : 3 ≤ length
      · rw [if_pos ⟨rfl, hthree⟩]
        refine ⟨hmac, ?_⟩
        dsimp only
        rw [if_pos ⟨hthree, hmac⟩, if_pos hthree]
        rfl
      · have hno : ¬ (3 ≤ length ∧ n.haveRouterMac = false) := fun h => hthree h.1
        rw [if_neg (fun h => hthree h.2)]
        refine ⟨hmac, ?_⟩
        dsimp only
        rw [if_neg hno, if_neg hthree]
        rfl
    | send =>
      rw [if_neg (fun h => NetCommand.noConfusion h.1)]
      by_cases hfour : 4 ≤ length
      · rw [if_pos ⟨rfl, hfour⟩]
        refine ⟨hmac, ?_⟩
        dsimp only
        rw [if_pos ⟨hfour, hmac⟩, if_pos hfour, if_neg (fun h => NetCommand.noConfusion h.1)]
        simp only [pendingJob, NetDriver.sendArpRequest, Option.some_or,
          textOf_memcpy _ (strlen_commandText _ _ _), textOf_commandText msg fun _ => 0]
      · have hno : ¬ (4 ≤ length ∧ n.haveRouterMac = false) := fun h => hfour h.1
        rw [if_neg (fun h => hfour h.2)]
        refine ⟨hmac, ?_⟩
        dsimp only
        rw [if_neg hno, if_neg hfour]
        rfl
    | resolve =>
      refine ⟨hmac, ?_⟩
      simp only [reduceCtorEq, false_and, if_false, if_true, pendingJob, NetDriver.sendArpRequest,
        Option.some_or, textOf_commandText a.dnsPendingDomain fun _ => 0]
    -- a request that is out already is not asked for again
    | ntp =>
      cases hout : n.ntpOutstanding with
      | false => exact ⟨hmac, rfl⟩
      | true => exact ⟨hmac, rfl⟩
    | none | status | recv => exact ⟨hmac, rfl⟩

/-! ## One call -/

/-- The logs and what waits, after a call. -/
inductive JobEffect (d : JobDriver) (e : JobEvent) (d' : JobDriver) : Prop
  | accepts (j : Job) (hnow : d.acceptedNow e = some j)
      (haccepted : d'.accepted = d.accepted ++ [j]) (hcarried : d'.carriedOut = d.carriedOut)
      (htimeouts : d'.timeouts = d.timeouts) (hpending : d'.pending = some j)
      (hmac : d'.net.haveRouterMac = false)
  | carriesOut (hnow : d.acceptedNow e = none) (haccepted : d'.accepted = d.accepted)
      (hcarried : d'.carriedOut = d.carriedOut ++ d.pending.toList)
      (htimeouts : d'.timeouts = d.timeouts) (hpending : d'.pending = none)
  | timesOut (hnow : d.acceptedNow e = none) (haccepted : d'.accepted = d.accepted)
      (hcarried : d'.carriedOut = d.carriedOut) (htimeouts : d'.timeouts = d.timeouts + 1)
      (hwas : d.pending = some .ntp) (hpending : d'.pending = none)
  | same (hnow : d.acceptedNow e = none) (haccepted : d'.accepted = d.accepted)
      (hcarried : d'.carriedOut = d.carriedOut) (htimeouts : d'.timeouts = d.timeouts)
      (hpending : d'.pending = d.pending) (hmac : d'.net.haveRouterMac = d.net.haveRouterMac)

section
variable {d : JobDriver} {e : JobEvent}

/-- A call that neither accepts nor takes up a job. -/
theorem JobEffect.of_same (hnow : d.acceptedNow e = none) (hcarried : d.carriedOutNow e = none)
    (htimeouts : d.timesOut e = false) (hpending : (d.step e).pending = d.pending)
    (hmac : (d.step e).net.haveRouterMac = d.net.haveRouterMac) : JobEffect d e (d.step e) := by
  refine .same hnow ?_ ?_ ?_ hpending hmac
  · simp [JobDriver.step, hnow]
  · simp [JobDriver.step, hcarried]
  · simp [JobDriver.step, htimeouts]

/-- A call that accepts a job takes up none. -/
theorem JobEffect.of_accepted {j : Job} (hnow : d.acceptedNow e = some j)
    (hcarried : d.carriedOutNow e = none) (htimeouts : d.timesOut e = false)
    (hpending : (d.step e).pending = some j) (hmac : (d.step e).net.haveRouterMac = false) :
    JobEffect d e (d.step e) := by
  refine .accepts j hnow ?_ ?_ ?_ hpending hmac
  · simp [JobDriver.step, hnow]
  · simp [JobDriver.step, hcarried]
  · simp [JobDriver.step, htimeouts]

theorem step_frame (d : JobDriver) (descId : ℕ) (mem : Window) (timeMs : ℕ) :
    JobEffect d (.frame descId mem timeMs) (d.step (.frame descId mem timeMs)) := by
  rcases netStep_frame d.net descId mem timeMs with ⟨hdesc, hsame⟩ | ⟨hdesc, heffect⟩
  · refine .of_same rfl (if_neg fun h => absurd h.1 (Nat.not_lt.mpr hdesc)) rfl ?_ ?_
    · exact congrArg (pendingJob · d.args) hsame
    · exact congrArg (·.haveRouterMac) hsame
  · generalize hnet : netStep d.net (.frame descId mem timeMs) = n' at heffect
    have hpending : (d.step (.frame descId mem timeMs)).pending = pendingJob n' d.args := by
      rw [← hnet]
      rfl
    have hmac : (d.step (.frame descId mem timeMs)).net = n' := hnet
    -- A frame that is no ARP reply, or comes when the address is known.
    have hother (hno : ¬ (IsArpReply mem (rxBufferOffset descId) ∧ d.net.haveRouterMac = false))
        (hsame : SamePending d.net n') :
        JobEffect d (.frame descId mem timeMs) (d.step (.frame descId mem timeMs)) := by
      refine .of_same rfl (if_neg fun h => hno h.2) rfl ?_ ?_
      · rw [hpending]
        exact hsame.pendingJob d.args
      · rw [hmac]
        exact hsame.haveRouterMac
    cases heffect with
    | arp h hunknown =>
      refine .carriesOut rfl (List.append_nil _) ?_ rfl ?_
      · rw [JobDriver.step, JobDriver.carriedOutNow, if_pos ⟨hdesc, h, hunknown⟩]
      · rw [hpending]
        exact (launchPending_pendingJob _ d.args timeMs).1
    | echo rttUs h hout =>
      refine hother (fun harp => h.1.not_arpReply harp.1) (.trans ?_ (.scheduleNextPing timeMs))
      exact ⟨rfl, rfl, rfl⟩
    | dns ip h => exact hother (fun harp => h.1.1.not_arpReply harp.1) ⟨rfl, rfl, rfl⟩
    | ntp h hout => exact hother (fun harp => h.1.not_arpReply harp.1) (.takeNtp _ timeMs)
    | datagram h => exact hother (fun harp => h.not_arpReply harp.1) ⟨rfl, rfl, rfl⟩
    | ignored h =>
      refine hother (fun harp => ?_) (.refl _)
      rw [h harp.1] at harp
      exact absurd harp.2 (by decide)

theorem step_command (hknown : d.net.haveRouterMac = true → d.pending = none) (length : ℕ)
    (regs : Registers) (msg : ℤ → UInt8) (timeMs : ℕ) :
    JobEffect d (.command length regs msg timeMs) (d.step (.command length regs msg timeMs)) := by
  cases hmac : d.net.haveRouterMac with
  | true =>
    have hsame := SamePending.handleCommand hmac ⟨length, netCommand (regs 0), regs 2⟩ timeMs
    refine .of_same (if_pos (.inl hmac)) rfl rfl ?_ hsame.haveRouterMac
    rw [hknown hmac]
    exact (hsame.pendingJob _).trans (pendingJob_none (hknown hmac) _)
  | false =>
    obtain ⟨hmac', hpending⟩ := handleCommand_unknown hmac d.args length regs msg timeMs
    have hnow : d.acceptedNow (.command length regs msg timeMs) =
        if netCommand (regs 0) = .ntp ∧ d.net.ntpOutstanding = true then none
        else commandJob length regs := by
      simp only [JobDriver.acceptedNow, hmac, Bool.false_eq_true, false_or]
    by_cases hout : netCommand (regs 0) = .ntp ∧ d.net.ntpOutstanding = true
    · rw [if_pos hout] at hnow hpending
      exact .of_same hnow rfl rfl hpending (hmac'.trans hmac.symm)
    · rw [if_neg hout] at hnow hpending
      cases hjob : commandJob length regs with
      | none =>
        rw [hjob] at hnow hpending
        exact .of_same hnow rfl rfl hpending (hmac'.trans hmac.symm)
      | some j =>
        rw [hjob] at hnow hpending
        exact .of_accepted hnow rfl rfl hpending hmac'

theorem step_ntpResync (d : JobDriver) (timeMs uptimeMs : ℕ) :
    JobEffect d (.ntpResync timeMs uptimeMs) (d.step (.ntpResync timeMs uptimeMs)) := by
  have hnet : (d.step (.ntpResync timeMs uptimeMs)).net =
      d.net.checkNtpResync timeMs uptimeMs := rfl
  have hpending : (d.step (.ntpResync timeMs uptimeMs)).pending =
      pendingJob (d.net.checkNtpResync timeMs uptimeMs) d.args := rfl
  by_cases hnow : d.net.haveRouterMac = true ∨ d.net.ntpOutstanding = true ∨
      d.net.pendingCmd = .ntp ∨ uptimeMs < d.net.ntpNextResyncUptimeMs
  · have hsame : SamePending d.net (d.net.checkNtpResync timeMs uptimeMs) := by
      refine .ite (fun _ => .refl _) fun hidle => .ite (fun _ => .refl _) fun hdue => ?_
      refine .ite (fun _ => ⟨rfl, rfl, rfl⟩) fun hmac => ?_
      simp only [Bool.or_eq_true, beq_iff_eq, not_or] at hidle
      tauto
    refine .of_same (if_pos hnow) rfl rfl ?_ ?_
    · rw [hpending]
      exact hsame.pendingJob d.args
    · rw [hnet]
      exact hsame.haveRouterMac
  · have hnow' := hnow
    simp only [not_or] at hnow'
    have hresult : d.net.checkNtpResync timeMs uptimeMs = (NetDriver.sendArpRequest
        { d.net with pendingCmd := .ntp }).client (·.scheduleNextNtpResync uptimeMs) := by
      rw [NetDriver.checkNtpResync, if_neg (by simp [hnow']), if_neg hnow'.2.2.2, if_neg hnow'.1]
    refine .of_accepted (if_neg hnow) rfl rfl ?_ ?_
    · rw [hpending, hresult]
      rfl
    · rw [hnet, hresult]
      exact Bool.eq_false_of_not_eq_true hnow'.1

theorem step_bootTimeout (d : JobDriver) (uptimeMs : ℕ) :
    JobEffect d (.bootTimeout uptimeMs) (d.step (.bootTimeout uptimeMs)) := by
  have hnet : (d.step (.bootTimeout uptimeMs)).net = d.net.checkBootNtpTimeout uptimeMs := rfl
  have hpending : (d.step (.bootTimeout uptimeMs)).pending =
      pendingJob (d.net.checkBootNtpTimeout uptimeMs) d.args := rfl
  cases htimeout : d.timesOut (.bootTimeout uptimeMs) with
  | true =>
    obtain ⟨⟨hsync, hdeadline⟩, hcmd⟩ : (d.net.ntpBootSyncPending = true ∧
        d.net.ntpBootDeadlineMs ≤ uptimeMs) ∧ d.net.pendingCmd = .ntp := by
      simpa [JobDriver.timesOut] using htimeout
    refine .timesOut rfl (List.append_nil _) (List.append_nil _) (if_pos htimeout)
      (pendingJob_ntp hcmd) ?_
    rw [hpending, NetDriver.checkBootNtpTimeout, NetDriver.client, NtpClient.checkBootNtpTimeout,
      if_neg (by simp [hsync]), if_neg (Nat.not_lt.mpr hdeadline), if_pos hcmd]
    rfl
  | false =>
    have hsame : SamePending d.net (d.net.checkBootNtpTimeout uptimeMs) := by
      rw [NetDriver.checkBootNtpTimeout, NetDriver.client, NtpClient.checkBootNtpTimeout]
      split
      · exact .refl _
      · rename_i hsync
        split
        · exact .refl _
        · rename_i hbefore
          refine ⟨if_neg fun hcmd => ?_, rfl, rfl⟩
          have hlate := Nat.not_lt.mp hbefore
          simp [JobDriver.timesOut, hlate, hcmd] at htimeout
          simp [htimeout] at hsync
    refine .of_same rfl rfl htimeout ?_ ?_
    · rw [hpending]
      exact hsame.pendingJob d.args
    · rw [hnet]
      exact hsame.haveRouterMac

/-- Every call has one of the effects. -/
theorem step_effect (hknown : d.net.haveRouterMac = true → d.pending = none) (e : JobEvent) :
    JobEffect d e (d.step e) := by
  cases e with
  | frame descId mem timeMs => exact step_frame d descId mem timeMs
  | command length regs msg timeMs => exact step_command hknown length regs msg timeMs
  | turn => exact .of_same rfl rfl rfl rfl rfl
  | pingTimeout timeMs =>
    have hsame := SamePending.checkPingTimeout (n := d.net) timeMs
    exact .of_same rfl rfl rfl (hsame.pendingJob d.args) hsame.haveRouterMac
  | pingSend timeMs =>
    have hsame := SamePending.checkPingSend (n := d.net) timeMs
    exact .of_same rfl rfl rfl (hsame.pendingJob d.args) hsame.haveRouterMac
  | ntpResync timeMs uptimeMs => exact step_ntpResync d timeMs uptimeMs
  | bootTimeout uptimeMs => exact step_bootTimeout d uptimeMs

/-! ## Runs -/

/-- The books are kept exactly by the calls that put no job in the place of another. -/
theorem JobDriver.Accounted.step (h : d.Accounted) (e : JobEvent) :
    (d.step e).Accounted ↔ ¬ d.Overwrites e := by
  have hjobs := h.jobs
  cases step_effect h.known e with
  | accepts j hnow haccepted hcarried htimeouts hpending hmac =>
    have hover : d.Overwrites e ↔ d.pending ≠ none := by
      rw [JobDriver.Overwrites, hnow]
      exact and_iff_left (Option.some_ne_none j)
    rw [hover, not_not]
    constructor
    · intro h'
      -- counting: a job that was pushed aside is missing on the right
      have hjobs' := h'.jobs.length_eq
      rw [haccepted, hcarried, htimeouts, hpending] at hjobs'
      have hlen := hjobs.length_eq
      simp only [List.length_append, List.length_replicate, Option.toList_some, List.length_cons,
        List.length_nil] at hjobs' hlen
      cases hwas : d.pending with
      | none => rfl
      | some i =>
        rw [hwas] at hlen
        simp only [Option.toList_some, List.length_cons, List.length_nil] at hlen
        omega
    · intro hnone
      refine ⟨?_, fun hknown => absurd hknown (by rw [hmac]; exact Bool.false_ne_true)⟩
      rw [haccepted, hcarried, htimeouts, hpending]
      rw [hnone, Option.toList_none, List.append_nil] at hjobs
      exact hjobs.append_right [j]
  | carriesOut hnow haccepted hcarried htimeouts hpending =>
    refine iff_of_true ⟨?_, fun _ => hpending⟩ fun hover => hover.2 hnow
    rw [haccepted, hcarried, htimeouts, hpending, Option.toList_none, List.append_nil]
    refine hjobs.trans ?_
    rw [List.append_assoc, List.append_assoc]
    exact List.perm_append_comm.append_left _
  | timesOut hnow haccepted hcarried htimeouts hwas hpending =>
    refine iff_of_true ⟨?_, fun _ => hpending⟩ fun hover => hover.2 hnow
    rw [haccepted, hcarried, htimeouts, hpending, Option.toList_none, List.append_nil,
      List.replicate_succ', ← List.append_assoc]
    rwa [hwas] at hjobs
  | same hnow haccepted hcarried htimeouts hpending hmac =>
    refine iff_of_true ⟨?_, fun hknown => ?_⟩ fun hover => hover.2 hnow
    · rw [haccepted, hcarried, htimeouts, hpending]
      exact hjobs
    · rw [hpending]
      exact h.known (hmac ▸ hknown)

theorem accounted_start (uptimeMs : ℕ) : (JobDriver.start uptimeMs).Accounted :=
  ⟨show [Job.ntp].Perm [Job.ntp] from .refl _, fun hknown => by cases hknown⟩

end

end PsychWard.Net
