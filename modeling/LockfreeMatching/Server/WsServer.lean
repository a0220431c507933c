import LockfreeMatching.Lib.EventLoop
import Mathlib.Logic.Function.Basic

/-!
# The dashboard server

A WebSocket server that accepts browsers and sends every one of them a frame at each tick of
its timer. Every handler runs on the one server thread. A member function of a session is
modelled by the session it leaves behind and the operations it starts on its stream; the
server's loop is shared by the acceptor, the timer and all sessions.

Of the networking libraries the model assumes that an operation may end at any time and with
any outcome, that closing the acceptor or cancelling the timer aborts the wait pending on it,
that a stream is open from the success of its WebSocket handshake on, and that it may stop
being open at any later time: when its close frame is sent, when the peer closes it or when
the connection fails. An `async_close` does not change by itself whether the stream is open.
-/
namespace LockfreeMatching

open Lib

/-! ## Sessions -/

/-- Operations on the stream of a session; `handshake` is its `async_accept`. -/
inductive SessionOp where
  | handshake
  | read
  | write (frame : String)
  | close
deriving DecidableEq

structure DashboardSession where
  ready : Bool := false
  writing : Bool := false
  queue : List String := []
  /-- Whether `ws_` is open as a websocket. -/
  isOpen : Bool := false

namespace DashboardSession

def maxQueued : Nat := 64

/-- A session and the operations started on its stream, in order. -/
abbrev Acted := DashboardSession × List SessionOp

def start (s : DashboardSession) : Acted := (s, [.handshake])

def doRead (s : DashboardSession) : Acted := (s, [.read])

/-- Callers make sure that the queue has a front. -/
def doWrite (s : DashboardSession) : Acted :=
  ({ s with writing := true }, [.write (s.queue.headD "")])

def close (s : DashboardSession) : Acted := (s, if s.isOpen then [.close] else [])

def send (s : DashboardSession) (frame : String) : Acted :=
  if maxQueued ≤ s.queue.length then s.close
  else
    let s := { s with queue := s.queue ++ [frame] }
    if s.ready && !s.writing then s.doWrite else (s, [])

/-- The handshake succeeded. -/
def onAccepted (s : DashboardSession) : Acted :=
  let s := { s with isOpen := true, ready := true }
  let (s, reads) := s.doRead
  if s.queue.isEmpty then (s, reads)
  else
    let (s, writes) := s.doWrite
    (s, reads ++ writes)

/-- The frame at the front has been written. -/
def onWritten (s : DashboardSession) : Acted :=
  let s := { s with queue := s.queue.tail }
  if s.queue.isEmpty then (s, []) else s.doWrite

end DashboardSession

/-! ## The server -/

inductive ServerOp where
  | timer
  | accept
  | session (id : Nat) (op : SessionOp)
deriving DecidableEq

/-- `stop` is posted by `stop()`. With `shut` the library notes that the stream of a session
is not open any more. -/
inductive ServerJob where
  | stop
  | shut (id : Nat)
deriving DecidableEq

/-- Calls of the snapshot function, and of `send` with whether the frame was queued. -/
inductive ServerCall where
  | snapshotFn
  | send (id : Nat) (frame : String) (queued : Bool)
deriving DecidableEq

/-- Sessions are numbered as they are created. A session lives on after it left `sessions`,
kept by the handlers of its operations. -/
structure DashboardServer where
  sessions : List Nat := []
  session : Nat → DashboardSession := fun _ => {}
  created : Nat := 0
  clients : Nat := 0
  stopping : Bool := false

abbrev ServerLoop := EventLoop DashboardServer ServerOp ServerJob ServerCall

abbrev ServerMove := LoopMove ServerOp ServerJob String

namespace ServerLoop

/-- Run a member function of a session. -/
def onSession (l : ServerLoop) (id : Nat)
    (f : DashboardSession → DashboardSession.Acted) : ServerLoop :=
  let (s, ops) := f (l.state.session id)
  let l := l.update fun c => { c with session := Function.update c.session id s }
  ops.foldl (fun l op => l.start (.session id op)) l

def dropSession (l : ServerLoop) (id : Nat) : ServerLoop :=
  let l := l.update fun c => { c with sessions := c.sessions.erase id }
  l.update fun c => { c with clients := c.sessions.length }

def doAccept (l : ServerLoop) : ServerLoop := l.start .accept

/-- Setting the timer cancels an earlier wait. -/
def armTimer (l : ServerLoop) : ServerLoop := (l.abort (· = .timer)).start .timer

def onAccept (l : ServerLoop) : ServerLoop :=
  let id := l.state.created
  let l := l.update fun c => { c with
    created := c.created + 1
    sessions := c.sessions ++ [id] }
  let l := l.update fun c => { c with clients := c.sessions.length }
  let l := onSession l id DashboardSession.start
  doAccept l

def send (frame : String) (l : ServerLoop) (id : Nat) : ServerLoop :=
  let queued := decide ((l.state.session id).queue.length < DashboardSession.maxQueued)
  onSession (l.call (.send id frame queued)) id (·.send frame)

/-- The source visits the sessions in the order of their addresses; here it is the order of
their creation, and nothing depends on it. -/
def onTimer (l : ServerLoop) (frame : String) : ServerLoop :=
  let l := l.call .snapshotFn
  let l := if l.state.sessions.isEmpty then l else l.state.sessions.foldl (send frame) l
  armTimer l

/-- The completion handlers; `frame` is what the snapshot function returns. -/
def completed (op : ServerOp) (ec : Outcome) (frame : String) (l : ServerLoop) : ServerLoop :=
  match op with
  | .accept => if ec ≠ .ok || l.state.stopping then l else onAccept l
  | .timer => if ec ≠ .ok || l.state.stopping then l else onTimer l frame
  | .session id .handshake =>
    if ec ≠ .ok then dropSession l id else onSession l id DashboardSession.onAccepted
  | .session id .read =>
    if ec ≠ .ok then dropSession l id else onSession l id DashboardSession.doRead
  | .session id (.write _) =>
    let l := onSession l id fun s => ({ s with writing := false }, [])
    if ec ≠ .ok then dropSession l id else onSession l id DashboardSession.onWritten
  | .session _ .close => l

def job (j : ServerJob) (l : ServerLoop) : ServerLoop :=
  match j with
  | .stop =>
    let l := l.update fun c => { c with stopping := true }
    let l := l.abort (· = .timer)
    let l := l.abort (· = .accept)
    let l := l.state.sessions.foldl (fun l id => onSession l id DashboardSession.close) l
    l.update fun c => { c with sessions := [], clients := 0 }
  | .shut id => onSession l id fun s => ({ s with isOpen := false }, [])

def handlers : Handlers DashboardServer ServerOp ServerJob ServerCall String where
  completed := completed
  run := job
  drift := id

/-- `start()` on a port that could be bound. -/
def started : ServerLoop := armTimer (doAccept { state := {} })

/-- The loop after a run. -/
def after (ms : List ServerMove) : ServerLoop := started.run handlers ms

/-! ## The state after a member function -/

theorem onSession_eq (l : ServerLoop) (id : Nat)
    (f : DashboardSession → DashboardSession.Acted) :
    onSession l id f =
      { l with
        state := { l.state with
          session := Function.update l.state.session id (f (l.state.session id)).1 }
        pending := l.pending ++ (f (l.state.session id)).2.map (.session id)
        log := l.log ++ (f (l.state.session id)).2.map fun op => .start (.session id op) } :=
  EventLoop.foldl_start (ServerOp.session id) _ _

theorem onSession_sessions (l : ServerLoop) (id : Nat)
    (f : DashboardSession → DashboardSession.Acted) :
    (onSession l id f).state.sessions = l.state.sessions := by
  rw [onSession_eq]

/-- What every turn of a loop over sessions keeps, the loop keeps. -/
theorem foldl_keeps {γ : Type} (π : DashboardServer → γ) {act : ServerLoop → Nat → ServerLoop}
    (hact : ∀ l id, π (act l id).state = π l.state) (ids : List Nat) (l : ServerLoop) :
    π (ids.foldl act l).state = π l.state := by
  induction ids generalizing l with
  | nil => rfl
  | cons id ids ih => exact (ih _).trans (hact l id)

theorem onTimer_sessions (l : ServerLoop) (frame : String) :
    (onTimer l frame).state.sessions = l.state.sessions := by
  have hturn : ∀ l id, (send frame l id).state.sessions = l.state.sessions :=
    fun l id => onSession_sessions _ id _
  have hloop := foldl_keeps DashboardServer.sessions hturn l.state.sessions (l.call .snapshotFn)
  unfold onTimer
  dsimp only
  split_ifs
  · rfl
  · exact hloop

theorem onAccept_sessions (l : ServerLoop) :
    (onAccept l).state.sessions = l.state.sessions ++ [l.state.created] :=
  onSession_sessions _ _ _

theorem completed_sessions_nodup {l : ServerLoop} (h : l.state.sessions.Nodup) {id : Nat}
    {op : SessionOp} {ec : Outcome} {frame : String} :
    (completed (.session id op) ec frame l).state.sessions.Nodup := by
  unfold completed
  cases op with
  | handshake | read =>
    dsimp only
    split_ifs
    · exact h.erase id
    · rwa [onSession_sessions]
  | write f =>
    dsimp only
    split_ifs
    · refine List.Nodup.erase id ?_
      rwa [onSession_sessions]
    · rwa [onSession_sessions, onSession_sessions]
  | close => exact h

end ServerLoop

end LockfreeMatching
