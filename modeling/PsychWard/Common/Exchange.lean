import PsychWard.Common.Run
import Mathlib.Logic.Function.Basic

/-!
# Requests through a shared cell

Clients put a request into a cell that they share, have a server take it from there and leave the
result, and fetch the result, each in a step of its own. Nothing keeps a client from using the cell
in between. `Exchange.private_of_run` is the rule for runs in which a client starts only when no other
client is under way: then the cell is what the client that is under way has last seen of it.

`Atomic` are the same clients without the cell: a request is performed as it was asked, and its
result goes to the client. If the server implements this on a cell into which a request was just put,
every run in which a client starts only when it is alone refines it: `Exchange.atomic_of_run`.
-/

namespace PsychWard

variable {ι σ M R D O V : Type*}

/-- How far a client is: it has written a request, or has been served with an answer. The cell as it
was then is noted. -/
inductive Phase (M R O : Type*)
  | idle
  | wrote (r : R) (cell : M)
  | served (r : R) (o : O) (cell : M)

/-- The cell as the client has last seen it. -/
def Phase.seen : Phase M R O → Option M
  | .idle => none
  | .wrote _ cell => some cell
  | .served _ _ cell => some cell

/-- A server, the cell, and the clients. -/
structure Exchange (ι σ M R O : Type*) where
  server : σ
  cell : M
  phase : ι → Phase M R O

/-- The steps of a client: it writes a request, is served, and reads the result. What the server does
may depend on a `D` from outside. -/
inductive ExchangeEvent (ι R D : Type*)
  | write (c : ι) (r : R)
  | call (c : ι) (d : D)
  | read (c : ι)

/-! ## Clients without a cell -/

/-- How far a client is: it has asked, or has an answer and a result. -/
inductive Progress (R O V : Type*)
  | idle
  | asked (r : R)
  | answered (r : R) (o : O) (v : V)

/-- A server and its clients. -/
structure Atomic (ι σ R O V : Type*) where
  server : σ
  progress : ι → Progress R O V

namespace Atomic

variable [DecidableEq ι]

def start (server : σ) : Atomic ι σ R O V := ⟨server, fun _ => .idle⟩

/-- A call performs the request that the client has asked. -/
def step (perform : σ → R → O × σ × V) (a : Atomic ι σ R O V) :
    ExchangeEvent ι R D → Atomic ι σ R O V
  | .write c r => { a with progress := Function.update a.progress c (.asked r) }
  | .call c _ =>
    match a.progress c with
    | .asked r =>
      { server := (perform a.server r).2.1
        progress := Function.update a.progress c
          (.answered r (perform a.server r).1 (perform a.server r).2.2) }
    | .idle | .answered _ _ _ => a
  | .read c => { a with progress := Function.update a.progress c .idle }

/-- The server and the clients after the steps. -/
def after (perform : σ → R → O × σ × V) (server : σ) (es : List (ExchangeEvent ι R D)) :
    Atomic ι σ R O V := es.foldl (step perform) (start server)

end Atomic

namespace Exchange

/-- Nobody is under way. -/
def start (server : σ) (cell : M) : Exchange ι σ M R O := ⟨server, cell, fun _ => .idle⟩

variable [DecidableEq ι]

/-- The steps, for clients that write with `put` and a server that works with `serve`. -/
inductive Step (put : R → M → M) (serve : σ → R → D → M → O × σ × M) (x : Exchange ι σ M R O) :
    ExchangeEvent ι R D → Exchange ι σ M R O → Prop
  | write {c : ι} (r : R) (h : x.phase c = .idle) : Step put serve x (.write c r)
      { x with
        cell := put r x.cell
        phase := Function.update x.phase c (.wrote r (put r x.cell)) }
  | call {c : ι} {r : R} {w : M} (d : D) (h : x.phase c = .wrote r w) : Step put serve x (.call c d)
      { server := (serve x.server r d x.cell).2.1
        cell := (serve x.server r d x.cell).2.2
        phase := Function.update x.phase c
          (.served r (serve x.server r d x.cell).1 (serve x.server r d x.cell).2.2) }
  | read {c : ι} {r : R} {o : O} {w : M} (h : x.phase c = .served r o w) : Step put serve x (.read c)
      { x with phase := Function.update x.phase c .idle }

/-- A client starts only when no other client is under way. -/
def Alone (x : Exchange ι σ M R O) : ExchangeEvent ι R D → Prop
  | .write c _ => ∀ c', c' ≠ c → x.phase c' = .idle
  | _ => True

/-- The client that is under way has the cell for itself. -/
def Private (x : Exchange ι σ M R O) : Prop :=
  ∀ c cell, (x.phase c).seen = some cell → cell = x.cell ∧ ∀ c', c' ≠ c → x.phase c' = .idle

/-- The cell as a client has written it has its request in it. -/
def Written (put : R → M → M) (x : Exchange ι σ M R O) : Prop :=
  ∀ c r w, x.phase c = .wrote r w → ∃ m, w = put r m

/-- Served from a cell into which it was just put, a request is performed. -/
structure Implements (put : R → M → M) (serve : σ → R → D → M → O × σ × M)
    (perform : σ → R → O × σ × V) (Shows : M → V → Prop) : Prop where
  answer : ∀ s r d m, (serve s r d (put r m)).1 = (perform s r).1
  server : ∀ s r d m, (serve s r d (put r m)).2.1 = (perform s r).2.1
  result : ∀ s r d m, Shows (serve s r d (put r m)).2.2 (perform s r).2.2

/-- The client is as far with the cell as without it, and finds its result in the cell. -/
inductive Agrees (Shows : M → V → Prop) (cell : M) : Phase M R O → Progress R O V → Prop
  | idle : Agrees Shows cell .idle .idle
  | wrote (r : R) (w : M) : Agrees Shows cell (.wrote r w) (.asked r)
  | served (r : R) (o : O) (w : M) {v : V} (h : Shows cell v) :
      Agrees Shows cell (.served r o w) (.answered r o v)

/-- The server and all clients are as without the cell. -/
structure Refines (Shows : M → V → Prop) (x : Exchange ι σ M R O) (a : Atomic ι σ R O V) : Prop where
  server : x.server = a.server
  clients : ∀ c, Agrees Shows x.cell (x.phase c) (a.progress c)

section
variable {put : R → M → M} {serve : σ → R → D → M → O × σ × M} {x x' : Exchange ι σ M R O}
  {e : ExchangeEvent ι R D} {es : List (ExchangeEvent ι R D)}

/-- A step of the only client under way leaves it the only one. -/
theorem private_update {c : ι} {p : Phase M R O} (hother : ∀ c', c' ≠ c → x.phase c' = .idle)
    (hp : ∀ cell, p.seen = some cell → cell = x'.cell)
    (hphase : x'.phase = Function.update x.phase c p) : x'.Private := by
  have hidle : ∀ c', c' ≠ c → x'.phase c' = .idle := fun c' hne => by
    rw [hphase, Function.update_of_ne hne]
    exact hother c' hne
  intro b cell hb
  by_cases hbc : b = c
  · subst hbc
    refine ⟨hp cell ?_, hidle⟩
    rwa [hphase, Function.update_self] at hb
  · rw [hidle b hbc] at hb
    cases hb

theorem Private.step (hx : x.Private) (ha : x.Alone e) (hs : Step put serve x e x') :
    x'.Private := by
  cases hs with
  | write r h =>
    exact private_update (p := .wrote r (put r x.cell)) ha
      (fun cell hc => (Option.some.inj hc).symm) rfl
  | @call c r w d h =>
    have hseen : (x.phase c).seen = some w := by rw [h]; rfl
    exact private_update (p := .served r _ (serve x.server r d x.cell).2.2) (hx c w hseen).2
      (fun cell hc => (Option.some.inj hc).symm) rfl
  | @read c r o w h =>
    have hseen : (x.phase c).seen = some w := by rw [h]; rfl
    refine private_update (p := .idle) (hx c w hseen).2 (fun cell hc => ?_) rfl
    cases hc

theorem private_of_run {server : σ} {cell : M}
    (h : Run (guarded (Step put serve) Alone) (start server cell) es x) : x.Private := by
  refine h.invariant (I := Private) (fun t e u ht hs => ht.step hs.1 hs.2) fun c cell hc => ?_
  cases hc

theorem Written.step (hx : x.Written put) (hs : Step put serve x e x') : x'.Written put := by
  -- the phase of another client is the old one
  have hkeep : ∀ {c : ι} {p : Phase M R O}, (∀ r w, p = .wrote r w → ∃ m, w = put r m) →
      ∀ b r w, Function.update x.phase c p b = .wrote r w → ∃ m, w = put r m := by
    intro c p hp b r w hb
    by_cases hbc : b = c
    · subst hbc
      rw [Function.update_self] at hb
      exact hp r w hb
    · rw [Function.update_of_ne hbc] at hb
      exact hx b r w hb
  cases hs with
  | write r h =>
    refine hkeep fun r' w hp => ?_
    obtain ⟨rfl, rfl⟩ := Phase.wrote.inj hp
    exact ⟨_, rfl⟩
  | call d h => exact hkeep fun r w hp => by cases hp
  | read h => exact hkeep fun r w hp => by cases hp

variable {perform : σ → R → O × σ × V} {Shows : M → V → Prop} {a : Atomic ι σ R O V}

/-- When all other clients are idle, only the one that steps has to agree. -/
theorem Refines.update (h : Refines Shows x a) {c : ι} {p : Phase M R O} {q : Progress R O V}
    {cell : M} (hidle : ∀ c', c' ≠ c → x.phase c' = .idle) (hp : Agrees Shows cell p q) (b : ι) :
    Agrees Shows cell (Function.update x.phase c p b) (Function.update a.progress c q b) := by
  by_cases hbc : b = c
  · subst hbc
    rwa [Function.update_self, Function.update_self]
  · rw [Function.update_of_ne hbc, Function.update_of_ne hbc]
    have hagrees := h.clients b
    rw [hidle b hbc] at hagrees ⊢
    generalize a.progress b = q' at hagrees ⊢
    cases hagrees
    exact .idle

/-- The step lemma. -/
theorem Refines.step (h : Refines Shows x a) (himp : Implements put serve perform Shows)
    (hx : x.Private) (hput : x.Written put) (ha : x.Alone e) (hs : Step put serve x e x') :
    Refines Shows x' (a.step perform e) := by
  -- only the call changes both sides: the write and the read are invisible to the atomic server
  cases hs with
  | write r hphase => exact ⟨h.server, h.update ha (.wrote r _)⟩
  | @call c r w d hphase =>
    have hseen : (x.phase c).seen = some w := by rw [hphase]; rfl
    -- nobody has written since: the window is as the caller left it
    obtain ⟨rfl, hidle⟩ := hx c w hseen
    obtain ⟨m, hm⟩ := hput c r _ hphase
    have hasked : a.progress c = .asked r := by
      have hagrees := h.clients c
      rw [hphase] at hagrees
      generalize a.progress c = q at hagrees
      cases hagrees
      rfl
    have hstep : a.step perform (.call c d : ExchangeEvent ι R D) =
        { server := (perform a.server r).2.1
          progress := Function.update a.progress c
            (.answered r (perform a.server r).1 (perform a.server r).2.2) } := by
      rw [Atomic.step, hasked]
    rw [hstep, ← h.server]
    refine ⟨?_, h.update hidle ?_⟩
    · show (serve x.server r d x.cell).2.1 = _
      rw [hm]
      exact himp.server _ r d m
    · show Agrees Shows (serve x.server r d x.cell).2.2 _ _
      rw [hm, himp.answer]
      exact .served r _ _ (himp.result _ r d m)
  | @read c r o w hphase =>
    have hseen : (x.phase c).seen = some w := by rw [hphase]; rfl
    exact ⟨h.server, h.update (hx c w hseen).2 .idle⟩

/-- **Requests are atomic.** When every client starts alone, the requests are performed as they were
asked, and every client that has been served finds the result of its own request in the cell. -/
theorem atomic_of_run (himp : Implements put serve perform Shows) {server : σ} {cell : M}
    (h : Run (guarded (Step put serve) Alone) (start server cell) es x) :
    Refines Shows x (Atomic.after perform server es) := by
  have hstart : (start server cell : Exchange ι σ M R O).Written put := fun c r w hc => by cases hc
  have hwritten : ∀ {es y}, Run (guarded (Step put serve) Alone) (start server cell) es y →
      y.Written put := fun hrun =>
    hrun.invariant (I := Written put) (fun t e u ht hs => ht.step hs.2) hstart
  induction h with
  | nil => exact ⟨rfl, fun c => .idle⟩
  | snoc h he ih =>
    rw [Atomic.after, List.foldl_append]
    exact ih.step himp (private_of_run h) (hwritten h) he.1 he.2

end

end Exchange

end PsychWard
