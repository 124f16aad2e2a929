import PsychWard.Common.FreeRing
import PsychWard.Net.Station
import PsychWard.Net.Transmit
import Mathlib.Data.List.Perm.Basic
import Mathlib.Tactic.IntervalCases

/-!
# The receive queue

The driver offers the device four descriptors, each with a buffer in the shared window. The device
takes them, writes a frame into the buffer of one that it has taken and reports it in the used ring;
`net_poll` handles the frame and offers the descriptor again. Both rings have four slots and 16-bit
indices that run on, and the two sides go on at their own pace.

`receives_of_run` says that this is an inbox: the frames that have arrived are handled in their
order, each once and as it was when it arrived. The device may fill other buffers while the driver
reads one, so what the driver makes of a frame must not depend on them; `Station.step_congr` says
that it does not.
-/

namespace PsychWard.Net

open Clock Traced

/-! ## What the receive loop depends on -/

/-- The access reads the same in both windows. -/
def SameAt : Access → Window → Window → Prop
  | .load offset, mem, mem' => mem' offset = mem offset
  | .store _, _, _ => True

theorem dependsOn_byte (offset : ℕ) : (byte offset).DependsOn SameAt := .access fun _ _ h => h

theorem dependsOn_store {read : ℕ → UInt8} (i : ℕ) :
    (Traced.access (Access.store i) fun _ => read : Rx (ℕ → UInt8)).DependsOn SameAt :=
  .access fun _ _ _ => rfl

theorem dependsOn_be16 (offset : ℕ) : (be16 offset).DependsOn SameAt :=
  (dependsOn_byte _).bind fun _ => (dependsOn_byte _).bind fun _ => .pure _

theorem dependsOn_be32 (offset : ℕ) : (be32 offset).DependsOn SameAt :=
  (dependsOn_be16 _).bind fun _ => (dependsOn_be16 _).bind fun _ => .pure _

theorem dependsOn_bytes (offset n : ℕ) : (bytes offset n).DependsOn SameAt := by
  induction n generalizing offset with
  | zero => exact .pure _
  | succ n ih => exact (dependsOn_byte _).bind fun _ => (ih _).bind fun _ => .pure _

theorem dependsOn_headerLength (ip : ℕ) : (headerLength ip).DependsOn SameAt :=
  (dependsOn_byte _).bind fun _ => .pure _

/-- The ARP branch looks at what it reads alone. -/
theorem dependsOn_receiveArp (arp timeMs : ℕ) (n : NetDriver) :
    (receiveArp arp timeMs n).DependsOn SameAt :=
  (dependsOn_be16 _).bind fun _ => .ite ((dependsOn_bytes _ _).bind fun _ => .pure _) (.pure _)

/-- So does the ICMP branch. -/
theorem dependsOn_receiveIcmp (ip timeMs : ℕ) (n : NetDriver) :
    (receiveIcmp ip timeMs n).DependsOn SameAt := by
  apply (dependsOn_headerLength _).bind
  intro ihl
  apply (dependsOn_byte _).bind
  intro type
  apply DependsOn.ite (.pure _)
  apply (dependsOn_be16 _).bind
  intro id
  apply DependsOn.ite (.pure _)
  apply (dependsOn_be16 _).bind
  intro seq
  apply (dependsOn_headerLength _).bind
  intro _
  apply (dependsOn_be16 _).bind
  intro _
  apply (dependsOn_bytes _ _).bind
  intro _
  apply (dependsOn_byte _).bind
  intro _
  exact .ite (.pure _) (.pure _)

/-- So does the loop over the labels of a name. -/
theorem dependsOn_skipName (bufferEnd fuel reader : ℕ) :
    (skipName bufferEnd fuel reader).DependsOn SameAt := by
  induction fuel generalizing reader with
  | zero => exact .pure _
  | succ fuel ih =>
    apply (dependsOn_byte _).bind
    intro len
    apply DependsOn.ite (.pure _)
    exact .ite (.pure _) (ih _)

/-- So does the parsing of a record. -/
theorem dependsOn_dnsRecord (bufferEnd reader : ℕ) :
    (dnsRecord bufferEnd reader).DependsOn SameAt := by
  apply DependsOn.ite (.pure _)
  apply (dependsOn_be16 _).bind
  intro dataLen
  exact .ite ((dependsOn_bytes _ _).bind fun _ => .pure _) (.pure _)

/-- So does the parsing of an answer. -/
theorem dependsOn_dnsAnswer (fuel bufferEnd dns : ℕ) :
    (dnsAnswer fuel bufferEnd dns).DependsOn SameAt := by
  apply (dependsOn_be16 _).bind
  intro id
  apply DependsOn.ite (.pure _)
  apply (dependsOn_be16 _).bind
  intro answers
  apply DependsOn.ite (.pure _)
  apply DependsOn.ite (.pure _)
  apply (dependsOn_skipName _ _ _).bind
  intro r
  match r with
  | none => exact .pure _
  | some none => exact .pure _
  | some (some reader) => exact dependsOn_dnsRecord _ _

/-- So does the parsing of an SNTP packet. -/
theorem dependsOn_ntpPacket (bufferEnd data : ℕ) :
    (ntpPacket bufferEnd data).DependsOn SameAt := by
  apply DependsOn.ite (.pure _)
  exact (dependsOn_byte _).bind fun _ => (dependsOn_byte _).bind fun _ =>
    (dependsOn_be32 _).bind fun _ => (dependsOn_be32 _).bind fun _ => .pure _

/-- So does the loop that keeps a datagram. -/
theorem dependsOn_storeUdp (data i : ℕ) (old : ℕ → UInt8) (k : ℕ) :
    (storeUdp data i old k).DependsOn SameAt := by
  induction k generalizing i old with
  | zero => exact dependsOn_store i
  | succ k ih =>
    apply (dependsOn_byte _).bind
    intro b
    exact (dependsOn_store i).bind fun _ => ih _ _

/-- So does the branch for datagrams of others. -/
theorem dependsOn_receiveDatagram (bufferEnd ip udp : ℕ) (n : NetDriver) :
    (receiveDatagram bufferEnd ip udp n).DependsOn SameAt := by
  apply (dependsOn_be16 _).bind
  intro udpLen
  exact (dependsOn_storeUdp _ _ _ _).bind fun _ => (dependsOn_bytes _ _).bind fun _ =>
    (dependsOn_be16 _).bind fun _ => .pure _

/-- So does the UDP branch. -/
theorem dependsOn_receiveUdp (fuel bufferEnd ip timeMs : ℕ) (n : NetDriver) :
    (receiveUdp fuel bufferEnd ip timeMs n).DependsOn SameAt := by
  apply (dependsOn_headerLength _).bind
  intro ihl
  apply (dependsOn_be16 _).bind
  intro srcPort
  apply DependsOn.ite
  · exact (dependsOn_dnsAnswer _ _ _).bind fun _ => .pure _
  · apply DependsOn.ite
    · exact ((dependsOn_ntpPacket _ _).bind fun _ => .pure _).map _
    · exact (dependsOn_receiveDatagram _ _ _ _).map _

/-- What the driver does with a frame depends on what it reads of it. -/
theorem dependsOn_receiveFrame (fuel base timeMs : ℕ) (n : NetDriver) :
    (receiveFrame fuel base timeMs n).DependsOn SameAt := by
  apply (dependsOn_be16 _).bind
  intro type
  apply DependsOn.ite
  · exact (dependsOn_receiveArp _ _ _).map _
  · refine DependsOn.ite ?_ (.pure _)
    apply (dependsOn_byte _).bind
    intro protocol
    apply DependsOn.ite
    · exact (dependsOn_receiveIcmp _ _ _).map _
    · exact .ite (dependsOn_receiveUdp _ _ _ _ _) (.pure _)

section
variable {mem mem' : Window} {base : ℕ}
  (h : Memory.bytes mem' base rxBufferLen = Memory.bytes mem base rxBufferLen)

include h

/-- An access inside the buffer sees the same byte in both windows. -/
theorem sameAt_of_inBuffer {a : Access} (ha : InBuffer base a) : SameAt a mem mem' := by
  cases a with
  | store index => trivial
  | load offset =>
    obtain ⟨hle, hlt⟩ := ha
    obtain ⟨i, rfl⟩ := Nat.exists_eq_add_of_le hle
    show mem' (base + i) = mem (base + i)
    have hi : i < rxBufferLen := by omega
    exact (Memory.getD_bytes hi).symm.trans ((congrArg (·.getD i 0) h).trans (Memory.getD_bytes hi))

/-- What stays inside the buffer depends on the frame in it only. -/
theorem val_congr {α : Type} {m : Rx α} (hdep : m.DependsOn SameAt)
    (hin : m.Within (InBuffer base)) : m.val mem' = m.val mem :=
  congrArg Prod.fst (hdep mem mem' fun a ha => sameAt_of_inBuffer h (hin mem a ha))

/-- An ARP reply is told by the bytes of its buffer. -/
theorem isArpReply_congr : IsArpReply mem' base ↔ IsArpReply mem base := by
  have hlen : rxBufferLen = 1536 := rfl
  have htype : etherType mem' base = etherType mem base :=
    val_congr h (dependsOn_be16 _) (within_be16 (by omega) (by rw [virtioNetHdr]; omega))
  have hoper : (be16 (payloadOf base + 6)).val mem' = (be16 (payloadOf base + 6)).val mem := by
    refine val_congr h (dependsOn_be16 _) (within_be16 ?_ ?_) <;>
      rw [payloadOf, virtioNetHdr, ethPayload] <;> omega
  rw [IsArpReply, IsArpReply, htype, hoper]

/-- What is learned from it comes from there, too. -/
theorem learned_congr (n : NetDriver) : learned n mem' base = learned n mem base := by
  have hlen : rxBufferLen = 1536 := rfl
  have hmac : (bytes (payloadOf base + 8) 6).val mem' = (bytes (payloadOf base + 8) 6).val mem := by
    refine val_congr h (dependsOn_bytes _ _) (within_bytes 6 ?_ ?_) <;>
      rw [payloadOf, virtioNetHdr, ethPayload] <;> omega
  rw [learned, learned, hmac]

end

/-- The driver does the same on every window that holds the frame in the buffer. -/
theorem Station.step_congr {mem mem' : Window} {descId : ℕ}
    (h : Memory.bytes mem' (rxBufferOffset descId) rxBufferLen =
      Memory.bytes mem (rxBufferOffset descId) rxBufferLen) (s : Station) (timeMs : ℕ) :
    s.step (.frame descId mem' timeMs) = s.step (.frame descId mem timeMs) := by
  have hframe : (receiveFrame rxBufferLen (rxBufferOffset descId) timeMs s.jobs.net).val mem' =
      (receiveFrame rxBufferLen (rxBufferOffset descId) timeMs s.jobs.net).val mem :=
    val_congr h (dependsOn_receiveFrame _ _ _ _) (within_receiveFrame _ _)
  have hnet : netStep s.jobs.net (.frame descId mem' timeMs) =
      netStep s.jobs.net (.frame descId mem timeMs) := by
    rw [netStep, netStep, netPoll]
    split
    · rfl
    · rw [hframe]
  have hreply := isArpReply_congr h
  have hlearns : LearnsMac s.jobs.net descId mem' ↔ LearnsMac s.jobs.net descId mem := by
    rw [LearnsMac, LearnsMac, hreply]
  have hout : s.jobs.carriedOutNow (.frame descId mem' timeMs) =
      s.jobs.carriedOutNow (.frame descId mem timeMs) :=
    if_congr (by rw [hreply]) rfl rfl
  have htarget : s.target (.frame descId mem' timeMs) = s.target (.frame descId mem timeMs) :=
    if_congr (by rw [hlearns]) rfl rfl
  have hpackets : s.packets (.frame descId mem' timeMs) = s.packets (.frame descId mem timeMs) :=
    if_congr hlearns (by rw [learned_congr h]) rfl
  have hjobs : s.jobs.step (.frame descId mem' timeMs) =
      s.jobs.step (.frame descId mem timeMs) := by
    rw [JobDriver.step, JobDriver.step, hout]
    exact congrArg (fun n => JobDriver.mk n _ _ _ _) hnet
  rw [Station.step, Station.step, hjobs, htarget, hpackets]

/-- The buffers lie one behind the other. -/
theorem rxBufferOffset_eq {descId : ℕ} (h : descId < 4) :
    rxBufferOffset descId = 0x2800 + descId * rxBufferLen := by
  interval_cases descId <;> rfl

/-! ## The queue -/

/-- The descriptors and the two rings in the window, and the two indices that the driver keeps. -/
structure RxQueue where
  desc : ℕ → VirtqDesc
  availRing : ℕ → ℕ
  /-- `rx_avail->idx` and `rx_used->idx` -/
  sharedIdx : ℕ
  usedRing : ℕ → ℕ
  usedIdx : ℕ
  /-- `g_rx_avail_idx` and `g_last_rx_used_idx` -/
  availIdx : ℕ
  lastUsedIdx : ℕ

/-- `VIRTQ_DESC_F_WRITE` -/
def descWrite : ℕ := 2

namespace RxQueue

/-- The window is zero at first. -/
def zero : RxQueue where
  desc := fun _ => ⟨0, 0, 0, 0⟩
  availRing := fun _ => 0
  sharedIdx := 0
  usedRing := fun _ => 0
  usedIdx := 0
  availIdx := 0
  lastUsedIdx := 0

/-- One turn of the loop of `main` that fills the queue. -/
def fill (shmPaddr : ℕ) (q : RxQueue) (i : ℕ) : RxQueue :=
  { q with
    desc := Function.update q.desc i ⟨shmPaddr + rxBufferOffset i, rxBufferLen, descWrite, 0⟩
    availRing := Function.update q.availRing (q.availIdx % 4) i
    availIdx := (q.availIdx + 1) % 2 ^ 16 }

/-- The queue as `main` sets it up. -/
def start (shmPaddr : ℕ) : RxQueue :=
  let q := (List.range 4).foldl (fill shmPaddr) zero
  { q with sharedIdx := q.availIdx }

/-- The descriptor that `net_poll` finds in the used ring, if there is a new one. -/
def look (q : RxQueue) : Option ℕ :=
  if q.lastUsedIdx ≠ q.usedIdx then some (q.usedRing (q.lastUsedIdx % 4)) else none

/-- The end of a turn of `net_poll`: the device gets the descriptor back, or descriptor 0 for one
that there is not. -/
def giveBack (q : RxQueue) (descId : ℕ) : RxQueue :=
  { q with
    availRing := Function.update q.availRing (q.availIdx % 4) (if 4 ≤ descId then 0 else descId)
    availIdx := (q.availIdx + 1) % 2 ^ 16
    sharedIdx := (q.availIdx + 1) % 2 ^ 16
    lastUsedIdx := (q.lastUsedIdx + 1) % 2 ^ 16 }

/-- The device reports a descriptor as used. -/
def finish (q : RxQueue) (descId : ℕ) : RxQueue :=
  { q with
    usedRing := Function.update q.usedRing (q.usedIdx % 4) descId
    usedIdx := (q.usedIdx + 1) % 2 ^ 16 }

end RxQueue

/-- Where `net_poll` is in a turn of its loop. -/
inductive PollTurn
  | idle
  | reading (descId : ℕ)
  | handled (descId : ℕ)
deriving DecidableEq, Repr

/-- The descriptor whose frame was handled and that the device has not got back. -/
def PollTurn.done : PollTurn → List ℕ
  | handled descId => [descId]
  | _ => []

/-- A received frame, in the buffer of a descriptor. -/
structure Frame where
  descId : ℕ
  bytes : List UInt8

/-- A window with the frame in its buffer. -/
def Frame.window (f : Frame) : Window :=
  Memory.put (fun _ => 0) (rxBufferOffset f.descId) f.bytes

/-- The driver, the queue and the window; how far the device has taken descriptors from the
available ring, and those that it has taken and not reported. -/
structure Receiver where
  station : Station
  queue : RxQueue
  turn : PollTurn
  mem : Window
  taken : ℕ
  held : List ℕ

inductive RxEvent
  | arrived (f : Frame)
  | handled (timeMs : ℕ)
  | call (e : JobEvent)
  | quiet

/-- The call handles a frame. -/
def JobEvent.IsFrame : JobEvent → Prop
  | .frame _ _ _ => True
  | _ => False

namespace Receiver

/-- The driver before its first turn, all buffers offered. -/
def start (shmPaddr : ℕ) (station : Station) (mem : Window) : Receiver :=
  ⟨station, .start shmPaddr, .idle, mem, 0, []⟩

/-- The device may write the byte of the window: a descriptor that it holds says so. -/
def Writable (shmPaddr : ℕ) (s : Receiver) (offset : ℕ) : Prop :=
  ∃ d ∈ s.held, (s.queue.desc d).flags = descWrite ∧
    (s.queue.desc d).addr ≤ shmPaddr + offset ∧
    shmPaddr + offset < (s.queue.desc d).addr + (s.queue.desc d).len

/-- What the driver and the device can do next. The driver goes through the turns of `net_poll`, and
between them makes the other calls of its loop. The device takes descriptors that are offered,
writes the buffers of those that it holds, and reports them as used; it does so at any time and in
any order. Behind the receive buffers anyone may write. -/
inductive Step (shmPaddr : ℕ) (s : Receiver) : RxEvent → Receiver → Prop
  | look {d : ℕ} (hturn : s.turn = .idle) (hlook : s.queue.look = some d) :
      Step shmPaddr s .quiet { s with turn := .reading d }
  | handle {d : ℕ} (timeMs : ℕ) (hturn : s.turn = .reading d) :
      Step shmPaddr s (.handled timeMs)
        { s with
          station := s.station.step (.frame d s.mem timeMs)
          turn := .handled d }
  | giveBack {d : ℕ} (hturn : s.turn = .handled d) :
      Step shmPaddr s .quiet { s with queue := s.queue.giveBack d, turn := .idle }
  | call (e : JobEvent) (hturn : s.turn = .idle) (hframe : ¬ e.IsFrame) :
      Step shmPaddr s (.call e) { s with station := s.station.step e }
  | take (hnew : s.taken ≠ s.queue.sharedIdx) :
      Step shmPaddr s .quiet
        { s with
          held := s.held ++ [s.queue.availRing (s.taken % 4)]
          taken := (s.taken + 1) % 2 ^ 16 }
  | write (mem : Window) (hmem : ∀ i, 0x2800 ≤ i → i < 0x4000 → ¬ s.Writable shmPaddr i →
        mem i = s.mem i) :
      Step shmPaddr s .quiet { s with mem := mem }
  | finish {d : ℕ} (hheld : d ∈ s.held) :
      Step shmPaddr s (.arrived ⟨d, Memory.bytes s.mem (rxBufferOffset d) rxBufferLen⟩)
        { s with queue := s.queue.finish d, held := s.held.erase d }

end Receiver

/-! ## What it is for -/

/-- The driver with the frames that have arrived and that it has not handled, in their order. -/
structure Inbox where
  station : Station
  waiting : List Frame

/-- A frame that arrives waits behind the others, and the driver handles the one that has waited
longest. -/
inductive Inbox.Step (b : Inbox) : RxEvent → Inbox → Prop
  | arrived (f : Frame) : Step b (.arrived f) { b with waiting := b.waiting ++ [f] }
  | handled {f : Frame} {rest : List Frame} (timeMs : ℕ) (hfirst : b.waiting = f :: rest) :
      Step b (.handled timeMs) ⟨b.station.step (.frame f.descId f.window timeMs), rest⟩
  | call (e : JobEvent) : Step b (.call e) { b with station := b.station.step e }
  | quiet : Step b .quiet b

namespace Receiver

/-- The frames `waiting` lie in their buffers as they arrived, and every descriptor is in one place:
offered to the device, held by it, or used, with a frame that waits or was handled last. -/
structure Accounts (shmPaddr : ℕ) (s : Receiver) (waiting : List Frame) (offered : List ℕ) :
    Prop where
  desc : ∀ i < 4, s.queue.desc i = ⟨shmPaddr + rxBufferOffset i, rxBufferLen, descWrite, 0⟩
  shared : s.queue.sharedIdx = s.queue.availIdx
  avail : FreeRing.Holds (2 ^ 16) 4 s.queue.availRing s.taken s.queue.sharedIdx offered
  used : FreeRing.Holds (2 ^ 16) 4 s.queue.usedRing s.queue.lastUsedIdx s.queue.usedIdx
    (s.turn.done ++ waiting.map Frame.descId)
  whole : (offered ++ (s.held ++ (s.turn.done ++ waiting.map Frame.descId))).Perm (List.range 4)
  reading : ∀ d, s.turn = .reading d → ∃ f rest, waiting = f :: rest ∧ f.descId = d
  kept : ∀ f ∈ waiting, f.bytes = Memory.bytes s.mem (rxBufferOffset f.descId) rxBufferLen

section
variable {shmPaddr : ℕ} {s s' : Receiver} {e : RxEvent} {es : List RxEvent} {waiting : List Frame}
  {offered : List ℕ}

/-- At the start all four descriptors are offered. -/
theorem accounts_start (shmPaddr : ℕ) (station : Station) (mem : Window) :
    Accounts shmPaddr (start shmPaddr station mem) [] (List.range 4) where
  desc i hi := by
    interval_cases i <;> rfl
  shared := rfl
  avail := by
    refine ⟨show 0 < 2 ^ 16 by decide, rfl, fun k hk => ?_⟩
    rw [List.length_range] at hk
    interval_cases k <;> rfl
  used := .nil (show 0 < 2 ^ 16 by decide)
  whole := .refl _
  reading _ h := nomatch h
  kept _ h := absurd h List.not_mem_nil

namespace Accounts

variable (h : Accounts shmPaddr s waiting offered)

include h

/-- A descriptor is in one place only. -/
theorem nodup : (offered ++ (s.held ++ (s.turn.done ++ waiting.map Frame.descId))).Nodup :=
  h.whole.nodup_iff.mpr List.nodup_range

/-- There are four descriptors. -/
theorem lt_of_mem {d : ℕ}
    (hd : d ∈ offered ++ (s.held ++ (s.turn.done ++ waiting.map Frame.descId))) : d < 4 :=
  List.mem_range.mp (h.whole.mem_iff.mp hd)

/-- A frame that waits is in one of the four buffers. -/
theorem lt_of_waiting {f : Frame} (hf : f ∈ waiting) : f.descId < 4 :=
  h.lt_of_mem (List.mem_append_right _ (List.mem_append_right _
    (List.mem_append_right _ (List.mem_map_of_mem hf))))

/-- No descriptor is missing. -/
theorem length : offered.length + (s.held.length +
    (s.turn.done ++ waiting.map Frame.descId).length) = 4 := by
  have hlen := h.whole.length_eq
  rwa [List.length_append, List.length_append, List.length_range] at hlen

/-- Finding a frame changes nothing. -/
theorem look {d : ℕ} (hturn : s.turn = .idle) (hlook : s.queue.look = some d) :
    Accounts shmPaddr { s with turn := .reading d } waiting offered := by
  have hused := h.used
  have hwhole := h.whole
  rw [hturn] at hused hwhole
  rw [RxQueue.look, Option.ite_none_right_eq_some, Option.some.injEq] at hlook
  obtain ⟨hne, hd⟩ := hlook
  refine ⟨h.desc, h.shared, h.avail, hused, hwhole, ?_, h.kept⟩
  rintro _ ⟨⟩
  cases waiting with
  | nil => exact absurd ((hused.eq_iff (Nat.zero_lt_succ _)).mpr rfl) hne
  | cons f rest => exact ⟨f, rest, rfl, hused.first.symm.trans hd⟩

/-- The frame is still in its buffer when the driver reads it. -/
theorem bytes_window {f : Frame} (hf : f ∈ waiting) :
    Memory.bytes s.mem (rxBufferOffset f.descId) rxBufferLen =
      Memory.bytes f.window (rxBufferOffset f.descId) rxBufferLen := by
  have hlen : f.bytes.length = rxBufferLen := by rw [h.kept f hf, Memory.length_bytes]
  rw [Frame.window, Memory.bytes_put hlen.ge, List.take_of_length_le hlen.le, h.kept f hf]

/-- The first of the waiting frames is handled. -/
theorem handle {f : Frame} {rest : List Frame} (hturn : s.turn = .reading f.descId)
    (hwaiting : waiting = f :: rest) (station : Station) :
    Accounts shmPaddr { s with station := station, turn := .handled f.descId } rest offered := by
  have hused := h.used
  have hwhole := h.whole
  rw [hturn, hwaiting] at hused hwhole
  refine ⟨h.desc, h.shared, h.avail, hused, hwhole, nofun, fun g hg => h.kept g ?_⟩
  rw [hwaiting]
  exact List.mem_cons_of_mem f hg

/-- The descriptor goes behind those that are offered. -/
theorem giveBack {d : ℕ} (hturn : s.turn = .handled d) :
    Accounts shmPaddr { s with queue := s.queue.giveBack d, turn := .idle } waiting
      (offered ++ [d]) := by
  have hused := h.used
  have hwhole := h.whole
  have hlen := h.length
  rw [hturn] at hused hwhole hlen
  have hd : d < 4 := List.mem_range.mp (hwhole.mem_iff.mp (by simp [PollTurn.done]))
  have havail := h.avail.push (by decide) (by simp [PollTurn.done] at hlen; omega) d
  rw [h.shared] at havail
  refine ⟨h.desc, rfl, ?_, hused.pop (by decide), .trans ?_ hwhole, nofun, h.kept⟩
  · rw [RxQueue.giveBack, if_neg (Nat.not_le.mpr hd)]
    exact havail
  · rw [List.append_assoc]
    show (offered ++ d :: (s.held ++ waiting.map Frame.descId)).Perm
      (offered ++ (s.held ++ d :: waiting.map Frame.descId))
    exact List.perm_middle.symm.append_left offered

/-- A call that handles no frame leaves the queue. -/
theorem call (station : Station) :
    Accounts shmPaddr { s with station := station } waiting offered :=
  ⟨h.desc, h.shared, h.avail, h.used, h.whole, h.reading, h.kept⟩

/-- The device takes the descriptor that was offered first. -/
theorem take (hnew : s.taken ≠ s.queue.sharedIdx) :
    ∃ rest, Accounts shmPaddr { s with
      held := s.held ++ [s.queue.availRing (s.taken % 4)]
      taken := (s.taken + 1) % 2 ^ 16 } waiting rest := by
  cases offered with
  | nil => exact absurd ((h.avail.eq_iff (Nat.zero_lt_succ _)).mpr rfl) hnew
  | cons d rest =>
    have hwhole : (rest ++ (s.held ++ [d] ++ (s.turn.done ++ waiting.map Frame.descId))).Perm
        (List.range 4) := by
      refine .trans ?_ h.whole
      generalize s.turn.done ++ waiting.map Frame.descId = used
      have hmove : (rest ++ s.held ++ d :: used).Perm (d :: (rest ++ s.held ++ used)) :=
        List.perm_middle
      simpa only [List.append_assoc, List.cons_append, List.nil_append] using hmove
    refine ⟨rest, h.desc, h.shared, h.avail.pop (by decide), h.used, ?_, h.reading, h.kept⟩
    rw [h.avail.first]
    exact hwhole

/-- What the device may write lies in no buffer with a frame that waits. -/
theorem not_writable {f : Frame} (hf : f ∈ waiting) {i : ℕ} (hi : i < rxBufferLen) :
    ¬ s.Writable shmPaddr (rxBufferOffset f.descId + i) := by
  rintro ⟨d, hd, -, hle, hlt⟩
  have hused : f.descId ∈ s.turn.done ++ waiting.map Frame.descId :=
    List.mem_append_right _ (List.mem_map_of_mem hf)
  have hne : d ≠ f.descId :=
    (List.nodup_append.mp (List.nodup_append.mp h.nodup).2.1).2.2 d hd f.descId hused
  have hd4 := h.lt_of_mem (List.mem_append_right _ (List.mem_append_left _ hd))
  rw [h.desc d hd4] at hle hlt
  have hle : shmPaddr + rxBufferOffset d ≤ shmPaddr + (rxBufferOffset f.descId + i) := hle
  have hlt : shmPaddr + (rxBufferOffset f.descId + i) < shmPaddr + rxBufferOffset d + rxBufferLen :=
    hlt
  rw [rxBufferOffset_eq hd4, rxBufferOffset_eq (h.lt_of_waiting hf), rxBufferLen] at hle hlt
  rw [rxBufferLen] at hi
  omega

/-- The window may change where the device may write. -/
theorem write {mem : Window} (hmem : ∀ i, 0x2800 ≤ i → i < 0x4000 → ¬ s.Writable shmPaddr i →
    mem i = s.mem i) : Accounts shmPaddr { s with mem := mem } waiting offered := by
  refine ⟨h.desc, h.shared, h.avail, h.used, h.whole, h.reading, fun f hf => ?_⟩
  rw [h.kept f hf]
  refine (Memory.bytes_congr fun i hi => ?_).symm
  have hoffset := rxBufferOffset_eq (h.lt_of_waiting hf)
  have hf4 := h.lt_of_waiting hf
  refine hmem _ ?_ ?_ (h.not_writable hf hi) <;> rw [rxBufferLen] at hi hoffset <;> omega

/-- The frame waits behind the others. -/
theorem finish {d : ℕ} (hheld : d ∈ s.held) :
    Accounts shmPaddr { s with queue := s.queue.finish d, held := s.held.erase d }
      (waiting ++ [⟨d, Memory.bytes s.mem (rxBufferOffset d) rxBufferLen⟩]) offered := by
  have hlen := h.length
  have hpos := List.length_pos_of_mem hheld
  have hused := h.used.push (by decide) (by omega) d
  rw [List.append_assoc] at hused
  refine ⟨h.desc, h.shared, h.avail, ?_, ?_, fun d' hd' => ?_, fun f hf => ?_⟩
  · rw [List.map_append]
    exact hused
  · refine .trans (.append_left offered ?_) h.whole
    rw [List.map_append, ← List.append_assoc s.turn.done]
    generalize s.turn.done ++ waiting.map Frame.descId = used
    have hmove : (s.held.erase d ++ used ++ [d]).Perm (d :: (s.held.erase d ++ used)) :=
      List.perm_append_singleton d _
    rw [List.append_assoc] at hmove
    exact hmove.trans ((List.perm_cons_erase hheld).symm.append_right used)
  · obtain ⟨f, rest, rfl, hf⟩ := h.reading d' hd'
    exact ⟨f, _, List.cons_append, hf⟩
  · rcases List.mem_append.mp hf with hf | hf
    · exact h.kept f hf
    · rw [List.mem_singleton.mp hf]

end Accounts

/-- A step is a step of the inbox, and keeps the accounts. -/
theorem Step.receives (hstep : Step shmPaddr s e s') (h : Accounts shmPaddr s waiting offered) :
    ∃ waiting' offered', Inbox.Step ⟨s.station, waiting⟩ e ⟨s'.station, waiting'⟩ ∧
      Accounts shmPaddr s' waiting' offered' := by
  cases hstep with
  | look hturn hlook => exact ⟨_, _, .quiet, h.look hturn hlook⟩
  | @handle d timeMs hturn =>
    obtain ⟨f, rest, hwaiting, rfl⟩ := h.reading d hturn
    have hf : f ∈ waiting := hwaiting ▸ List.mem_cons_self
    have hstation : s.station.step (.frame f.descId s.mem timeMs) =
        s.station.step (.frame f.descId f.window timeMs) :=
      Station.step_congr (h.bytes_window hf) s.station timeMs
    refine ⟨rest, offered, ?_, h.handle hturn hwaiting _⟩
    rw [hstation]
    exact .handled timeMs hwaiting
  | giveBack hturn => exact ⟨_, _, .quiet, h.giveBack hturn⟩
  | call e hturn => exact ⟨_, _, .call e, h.call _⟩
  | take hnew =>
    obtain ⟨rest, htake⟩ := h.take hnew
    exact ⟨_, _, .quiet, htake⟩
  | write mem hmem => exact ⟨_, _, .quiet, h.write hmem⟩
  | finish hheld => exact ⟨_, _, .arrived _, h.finish hheld⟩

end

end Receiver

end PsychWard.Net
