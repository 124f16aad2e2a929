import PsychWard.Blk.Server
import PsychWard.Common.Exchange
import PsychWard.Fat32.Consistency

/-!
# The clients of the block driver

The shell, its threads, the rootserver and every process that has mapped the window make file
requests in three steps: the path goes into the window, the call is served, the result is read from
the window. `vfs_lock` does not help, as `vfs_spinlock_ptr` is never set and the lock is skipped.

`FileRequest.perform` says what a request is to do, in terms of its own path and of the volume;
there is no window in it. A request is kept apart from the others if no client writes a path while
another client's request is under way, and then the driver performs it.
-/

namespace PsychWard.Blk

open Fat32

/-- A file request of a client. The text of `SYS_WRITE_FILE` and the new name of `SYS_RENAME` go
behind the path, at offset 128. -/
inductive FileRequest
  | ls (path : List UInt8)
  | readFile (path : List UInt8) (offset : ℕ)
  | touch (path : List UInt8)
  | writeFile (path text : List UInt8)
  | readTextFile (path : List UInt8)
  | rm (path : List UInt8)
  | rename (path newPath : List UInt8)
  | mkdir (path : List UInt8)
  | cd (path : List UInt8)

namespace FileRequest

def path : FileRequest → List UInt8
  | ls path | readFile path _ | touch path | writeFile path _ | readTextFile path | rm path
  | rename path _ | mkdir path | cd path => path

def second : FileRequest → Option (List UInt8)
  | writeFile _ text => some text
  | rename _ newPath => some newPath
  | _ => none

/-- The message registers of the call. -/
def request : FileRequest → Request
  | ls _ => ⟨110, 0⟩
  | readFile _ offset => ⟨119, offset⟩
  | touch _ => ⟨112, 0⟩
  | writeFile _ text => ⟨113, text.length⟩
  | readTextFile _ => ⟨114, 0⟩
  | rm _ => ⟨120, 0⟩
  | rename _ _ => ⟨116, 0⟩
  | mkdir _ => ⟨117, 0⟩
  | cd _ => ⟨118, 0⟩

/-- The client fills the window. -/
def put (r : FileRequest) (shm : Memory) : Memory :=
  match r.second with
  | none => shm.put 0 (r.path ++ [0])
  | some second => (shm.put 0 (r.path ++ [0])).put 128 (second ++ [0])

/-- What fits of a string into an array of `cap` bytes. -/
def cut (cap : ℕ) (str : List UInt8) : CString := cString (str.take (cap - 1))

/-- The request on the volume: the reply, the driver after it, and what the client is to find at the
start of the window. -/
def perform (s : BlkState) : FileRequest → Reply × BlkState × Option (List UInt8)
  | ls path =>
    match lsTarget s.fs s.disk (cut 64 path) with
    | .inl text => ([0], s, some (text ++ [0]))
    | .inr dirCluster =>
      ([0], s, (fat32FormatDirListing s.fs s.disk dirCluster (0x1000 - 8)).map (· ++ [0]))
  | readFile path offset =>
    match fat32ReadFile s.fs s.disk (cut 64 path) (offset % 2 ^ 32) with
    | none => ([-1, 0], s, none)
    | some copied => ([0, copied.length], s, some copied)
  | touch path =>
    let res := fat32CreateFile s.fs s.disk (cut 64 path)
    (statusReply res.1, { s with disk := res.2 }, none)
  | writeFile path text =>
    let len := min (text.length % 2 ^ 32) 4096
    let res := fat32WriteFile s.fs s.disk (cut 64 path) (text.take len)
    (statusReply res.1, { s with disk := res.2 }, none)
  | readTextFile path =>
    match fat32ReadTextFile s.fs s.disk (cut 64 path) with
    | none => ([-1], s, none)
    | some copied => ([0], s, some (copied ++ [0]))
  | rm path =>
    let res := fat32DeleteFile s.fs s.disk (cut 64 path)
    (statusReply res.1, { s with disk := res.2 }, none)
  | rename path newPath =>
    let res := fat32RenameFile s.fs s.disk (cut 32 path) (cut 32 newPath)
    (statusReply res.1, { s with disk := res.2 }, none)
  | mkdir path =>
    let res := fat32Mkdir s.fs s.disk (cut 64 path)
    (statusReply res.1, { s with disk := res.2 }, none)
  | cd path =>
    let res := fat32Cd s.fs s.disk (cut 64 path)
    (statusReply res.1, { s with fs := res.2 }, none)

end FileRequest

/-- The driver serves a request with what is in the window. -/
def serveFile (s : BlkState) (r : FileRequest) (dma : List UInt8) (shm : Memory) :
    Reply × BlkState × Memory := serve s r.request dma shm

/-- The window begins with the result. -/
def Shows (shm : Memory) : Option (List UInt8) → Prop
  | none => True
  | some result => shm.bytes 0 result.length = result

/-- The driver, the window and the clients. -/
abbrev FileClients := Exchange ℕ BlkState Memory FileRequest Reply

abbrev FileEvent := ExchangeEvent ℕ FileRequest (List UInt8)

/-- The steps of the clients, in any order. -/
abbrev FileClients.Step : FileClients → FileEvent → FileClients → Prop :=
  Exchange.Step FileRequest.put serveFile

/-- The requests that the events make are performed as their clients have asked them, and every
client that has been served finds the result of its own request. -/
abbrev FileClients.Own (x : FileClients) (s : BlkState) (es : List FileEvent) : Prop :=
  Exchange.Refines Shows x (Atomic.after FileRequest.perform s es)

/-! ## The window of a client that is alone -/

section
variable {shm : Memory} {str l : List UInt8} {i cap : ℕ}

/-- Behind a NUL there is nothing of the string. -/
theorem takeWhile_append_nul (l l' : List UInt8) :
    (l ++ 0 :: l').takeWhile (· ≠ 0) = l.takeWhile (· ≠ 0) := by
  induction l with
  | nil => rfl
  | cons b l ih =>
    rw [List.cons_append, List.takeWhile_cons, List.takeWhile_cons, ih]

/-- The driver takes the string that a client has put there. -/
theorem memStr_put : memStr (shm.put i (str ++ [0])) i cap = FileRequest.cut cap str := by
  rw [memStr, FileRequest.cut, cString, cString]
  rcases Nat.lt_or_ge str.length (cap - 1) with hlt | hge
  · obtain ⟨k, hk⟩ := Nat.exists_eq_add_of_lt hlt
    have hread : (shm.put i (str ++ [0])).bytes i (str.length + 1) = str ++ [0] := by
      rw [Memory.bytes_put (by rw [List.length_append, List.length_singleton]),
        List.take_of_length_le (by rw [List.length_append, List.length_singleton])]
    have hsplit : cap - 1 = str.length + 1 + k := by omega
    rw [hsplit, Memory.bytes_add, hread, List.append_assoc, List.singleton_append,
      takeWhile_append_nul, List.take_of_length_le (by omega)]
  · rw [Memory.bytes_put (by rw [List.length_append, List.length_singleton]; omega),
      List.take_append_of_le_length hge]

/-- The array of a path ends in front of offset 128. -/
theorem memStr_put_second (hcap : cap ≤ 128) :
    memStr (shm.put 128 l) 0 cap = memStr shm 0 cap := by
  rw [memStr, memStr, Memory.bytes_put_of_le (by omega)]

theorem memStr_path (r : FileRequest) (shm : Memory) (hcap : cap ≤ 128) :
    memStr (r.put shm) 0 cap = FileRequest.cut cap r.path := by
  rw [FileRequest.put]
  split
  · exact memStr_put
  · rw [memStr_put_second hcap]
    exact memStr_put

/-- The text is as long as the call says. -/
theorem bytes_text (shm : Memory) (text : List UInt8) (n : ℕ) (h : n ≤ text.length) :
    (shm.put 128 (text ++ [0])).bytes 128 n = text.take n := by
  rw [Memory.bytes_put (by rw [List.length_append]; omega), List.take_append_of_le_length h]

theorem shows_put (shm : Memory) (l : List UInt8) : Shows (shm.put 0 l) (some l) := by
  show (shm.put 0 l).bytes 0 l.length = l
  rw [Memory.bytes_put le_rfl, List.take_length]

end

/-- One request: from the window of a client that is alone the driver performs it. -/
theorem serve_put (s : BlkState) (r : FileRequest) (dma : List UInt8) (shm : Memory) :
    (serveFile s r dma (r.put shm)).1 = (r.perform s).1 ∧
      (serveFile s r dma (r.put shm)).2.1 = (r.perform s).2.1 ∧
        Shows (serveFile s r dma (r.put shm)).2.2 (r.perform s).2.2 := by
  generalize hw : r.put shm = w
  have h64 : memStr w 0 64 = FileRequest.cut 64 r.path := hw ▸ memStr_path r shm (by decide)
  have h32 : memStr w 0 32 = FileRequest.cut 32 r.path := hw ▸ memStr_path r shm (by decide)
  -- by the command: each one copies its strings out of the window first
  cases r with
  | ls path =>
    have hserve : serveFile s (.ls path) dma w = serve s ⟨110, 0⟩ dma w := rfl
    rw [serve, if_pos rfl] at hserve
    rw [hserve, h64, FileRequest.perform, FileRequest.path]
    cases lsTarget s.fs s.disk (FileRequest.cut 64 path) with
    | inl text => exact ⟨rfl, rfl, shows_put _ _⟩
    | inr dirCluster =>
      dsimp only
      cases fat32FormatDirListing s.fs s.disk dirCluster (0x1000 - 8) with
      | none => exact ⟨rfl, rfl, trivial⟩
      | some text => exact ⟨rfl, rfl, shows_put _ _⟩
  | readFile path offset =>
    have hserve : serveFile s (.readFile path offset) dma w =
        match fat32ReadFile s.fs s.disk (memStr w 0 64) (offset % 2 ^ 32) with
        | none => ([-1, 0], s, w.put 0 dma)
        | some copied => ([0, copied.length], s, (w.put 0 dma).put 0 copied) := rfl
    rw [hserve, h64, FileRequest.perform, FileRequest.path]
    cases fat32ReadFile s.fs s.disk (FileRequest.cut 64 path) (offset % 2 ^ 32) with
    | none => exact ⟨rfl, rfl, trivial⟩
    | some copied => exact ⟨rfl, rfl, shows_put _ _⟩
  | readTextFile path =>
    have hserve : serveFile s (.readTextFile path) dma w =
        match fat32ReadTextFile s.fs s.disk (memStr w 0 64) with
        | none => ([-1], s, w.put 0 dma)
        | some copied => ([0], s, (w.put 0 dma).put 0 (copied ++ [0])) := rfl
    rw [hserve, h64, FileRequest.perform, FileRequest.path]
    cases fat32ReadTextFile s.fs s.disk (FileRequest.cut 64 path) with
    | none => exact ⟨rfl, rfl, trivial⟩
    | some copied => exact ⟨rfl, rfl, shows_put _ _⟩
  | writeFile path text =>
    have htext : w.bytes 128 (min (text.length % 2 ^ 32) 4096) =
        text.take (min (text.length % 2 ^ 32) 4096) :=
      hw ▸ bytes_text _ text _ ((Nat.min_le_left _ _).trans (Nat.mod_le _ _))
    rw [FileRequest.path] at h64
    simp only [FileRequest.perform, ← htext]
    rw [← h64]
    exact ⟨rfl, rfl, trivial⟩
  | rename path newPath =>
    have hnew : memStr w 128 32 = FileRequest.cut 32 newPath := hw ▸ memStr_put
    rw [FileRequest.path] at h32
    rw [FileRequest.perform, ← h32, ← hnew]
    exact ⟨rfl, rfl, trivial⟩
  -- these leave no result in the window
  | touch path | rm path | mkdir path | cd path =>
    rw [FileRequest.path] at h64
    rw [FileRequest.perform, ← h64]
    exact ⟨rfl, rfl, trivial⟩

/-- The driver implements the requests. -/
theorem implements_perform :
    Exchange.Implements FileRequest.put serveFile FileRequest.perform Shows where
  answer s r dma shm := (serve_put s r dma shm).1
  server s r dma shm := (serve_put s r dma shm).2.1
  result s r dma shm := (serve_put s r dma shm).2.2

/-- The window of a volume without files. -/
def emptyState : BlkState := ⟨emptyVolume.fs, emptyVolume.disk⟩

/-- One client creates a file and has its answer before the other lists the directory. -/
def oneAfterTheOther : List FileEvent :=
  [.write 0 (.touch [65]), .call 0 [], .read 0, .write 1 (.ls []), .call 1 []]

/-- What the second client reads. -/
def listingOfA : List UInt8 := ascii " [FAT] A \t(0 bytes)\n" ++ [0]

/-- Two clients write their paths before the first is served. -/
def bothAtOnce : List FileEvent := [.write 0 (.touch [65]), .write 1 (.touch [66]), .call 0 []]

end PsychWard.Blk
