import LockfreeMatching.Lib.EventLoop

/-!
# The WebSocket client

Every handler of the client runs on the one thread that called `run()`. Of the networking
libraries the model assumes that closing a stream or cancelling a timer aborts the operations
pending on it and no others, so a pending resolve is not affected, that replacing a stream
aborts what was pending on the old one, and that an operation may be started on a closed
stream. An operation may end at any time and with any outcome, and a websocket that is open
may stop being open at any time.

## Main results

* `run_stop_final_iff`: after the handler posted by `stop()` no connection is attempted any
  more exactly if at that moment nothing was under way that closing the stream leaves alone.
-/
namespace LockfreeMatching

open Lib

/-- Delays are in milliseconds. -/
structure WsConfig where
  reconnectBaseDelay : Nat := 500
  reconnectMaxDelay : Nat := 30000

/-- Which of the callbacks are set. -/
structure WsCallbacks where
  message : Bool := true
  connect : Bool := true
  disconnect : Bool := true

inductive WsOp where
  | resolve
  | connect
  | tlsHandshake
  | wsHandshake
  | read
  | write
  | close
  | timer
deriving DecidableEq

/-- The operations on the stream, which closing it aborts. -/
def WsOp.onStream : WsOp → Bool
  | .resolve | .timer => false
  | _ => true

inductive WsJob where
  | send (text : String)
  | stop
deriving DecidableEq

/-- Calls of the callbacks; a disconnect says which step failed. -/
inductive WsCall where
  | connectHandler
  | messageHandler
  | disconnectHandler (place : String)
deriving DecidableEq

structure WsClient where
  /-- Whether `ws_` holds a stream, and whether that is open as a websocket. -/
  hasStream : Bool := false
  isOpen : Bool := false
  writeQueue : List String := []
  writing : Bool := false
  reconnectAttempts : UInt32 := 0
  stopping : Bool := false
  /-- The delay `reconnect_timer_` was last set to. -/
  timerDelay : Nat := 0

abbrev WsLoop := EventLoop WsClient WsOp WsJob WsCall

namespace WsLoop

variable (cfg : WsConfig) (on : WsCallbacks)

def startConnect (l : WsLoop) : WsLoop :=
  if l.state.stopping then l
  else
    -- a fresh transport for every attempt, and no frames of the dead connection
    let l := l.abort WsOp.onStream
    let l := l.update fun c => { c with
      hasStream := true
      isOpen := false
      writing := false
      writeQueue := [] }
    l.start .resolve

def scheduleReconnect (l : WsLoop) (ec : Outcome) (place : String) : WsLoop :=
  if l.state.stopping || ec = .aborted then l
  else
    let l := if on.disconnect then l.call (.disconnectHandler place) else l
    let shift := min l.state.reconnectAttempts.toNat 16
    let delay := min (cfg.reconnectBaseDelay * 1 <<< shift) cfg.reconnectMaxDelay
    let l := l.update fun c => { c with reconnectAttempts := c.reconnectAttempts + 1 }
    let l := if l.state.hasStream then l.abort WsOp.onStream else l
    -- setting the timer cancels an earlier wait
    let l := l.abort (· = .timer)
    let l := l.update fun c => { c with timerDelay := delay }
    l.start .timer

def doRead (l : WsLoop) : WsLoop := l.start .read

def doWrite (l : WsLoop) : WsLoop :=
  (l.update fun c => { c with writing := true }).start .write

/-- `sniOk` says whether the host name could be set for the TLS handshake. -/
def onTcpConnected (l : WsLoop) (sniOk : Bool) : WsLoop :=
  if sniOk then l.start .tlsHandshake else scheduleReconnect cfg on l .failed "sni"

def onTlsHandshakeDone (l : WsLoop) : WsLoop := l.start .wsHandshake

/-- The websocket is open before the handler of its handshake runs. -/
def onHandshake (l : WsLoop) : WsLoop :=
  let l := l.update fun c => { c with isOpen := true, reconnectAttempts := 0 }
  let l := if on.connect then l.call .connectHandler else l
  let l := if !l.state.writeQueue.isEmpty && !l.state.writing then doWrite l else l
  doRead l

def onRead (l : WsLoop) : WsLoop :=
  doRead (if on.message then l.call .messageHandler else l)

/-- The frame written leaves the queue; a queue cleared by a reconnect stays empty. -/
def onWritten (l : WsLoop) : WsLoop :=
  let l := l.update fun c => { c with writeQueue := c.writeQueue.tail }
  if l.state.writeQueue.isEmpty then l else doWrite l

/-- The completion handlers. -/
def completed (op : WsOp) (ec : Outcome) (sniOk : Bool) (l : WsLoop) : WsLoop :=
  match op with
  | .resolve => if ec = .ok then l.start .connect else scheduleReconnect cfg on l ec "resolve"
  | .connect =>
    if ec = .ok then onTcpConnected cfg on l sniOk
    else scheduleReconnect cfg on l ec "tcp_connect"
  | .tlsHandshake =>
    if ec = .ok then onTlsHandshakeDone l else scheduleReconnect cfg on l ec "tls_handshake"
  | .wsHandshake =>
    if ec = .ok then onHandshake on l else scheduleReconnect cfg on l ec "ws_handshake"
  | .read => if ec = .ok then onRead on l else scheduleReconnect cfg on l ec "read"
  | .write =>
    let l := l.update fun c => { c with writing := false }
    if ec = .ok then onWritten l else scheduleReconnect cfg on l ec "write"
  | .close => l
  | .timer => if ec ≠ .ok || l.state.stopping then l else startConnect l

/-- The handlers that `send` and `stop` post. -/
def job (j : WsJob) (l : WsLoop) : WsLoop :=
  match j with
  | .send text =>
    let l := l.update fun c => { c with writeQueue := c.writeQueue ++ [text] }
    if l.state.hasStream && l.state.isOpen && !l.state.writing then doWrite l else l
  | .stop =>
    let l := l.update fun c => { c with stopping := true }
    let l := l.abort (· = .timer)
    if l.state.hasStream && l.state.isOpen then l.start .close
    else if l.state.hasStream then l.abort WsOp.onStream
    else l

def handlers : Handlers WsClient WsOp WsJob WsCall Bool where
  completed := completed cfg on
  run := job
  drift c := { c with isOpen := false }

/-- `run()` connects, then enters the loop. -/
def started : WsLoop := startConnect { state := {} }

/-- An attempt to connect: one of its four operations, or the call of the connect handler. -/
def attempt : Effect WsOp WsCall → Bool
  | .start .resolve | .start .connect | .start .tlsHandshake | .start .wsHandshake => true
  | .call .connectHandler => true
  | _ => false

def attempts (l : WsLoop) : List (Effect WsOp WsCall) := l.log.filter attempt

/-! ## After the handler of stop -/

/-- The operations whose success leads to an attempt. -/
def Leads (on : WsCallbacks) : WsOp → Prop
  | .resolve | .connect | .tlsHandshake => True
  | .wsHandshake => on.connect = true
  | _ => False

def Stopping (c : WsClient) : Prop := c.stopping = true

variable {cfg on}

theorem scheduleReconnect_stopping {l : WsLoop} (h : Stopping l.state) (ec : Outcome)
    (place : String) : scheduleReconnect cfg on l ec place = l := by
  rw [scheduleReconnect, show l.state.stopping = true from h]
  rfl

section Silent

variable {l l' : WsLoop}

theorem silent_doRead (h : EventLoop.Silent (Leads on) attempt Stopping l l') :
    EventLoop.Silent (Leads on) attempt Stopping l (doRead l') :=
  h.start (by simp [Leads]) rfl

theorem silent_doWrite (h : EventLoop.Silent (Leads on) attempt Stopping l l') :
    EventLoop.Silent (Leads on) attempt Stopping l (doWrite l') :=
  (h.update h.state).start (by simp [Leads]) rfl

theorem silent_onHandshake (h : EventLoop.Silent (Leads on) attempt Stopping l l')
    (hon : ¬ Leads on .wsHandshake) :
    EventLoop.Silent (Leads on) attempt Stopping l (onHandshake on l') := by
  have hopen := h.update (f := fun c => { c with isOpen := true, reconnectAttempts := 0 }) h.state
  unfold onHandshake
  dsimp only
  rw [if_neg (show ¬ on.connect = true from hon)]
  apply silent_doRead
  split_ifs
  · exact silent_doWrite hopen
  · exact hopen

theorem silent_onRead (h : EventLoop.Silent (Leads on) attempt Stopping l l') :
    EventLoop.Silent (Leads on) attempt Stopping l (onRead on l') := by
  unfold onRead
  apply silent_doRead
  split_ifs
  · exact h.call rfl
  · exact h

theorem silent_onWritten (h : EventLoop.Silent (Leads on) attempt Stopping l l') :
    EventLoop.Silent (Leads on) attempt Stopping l (onWritten l') := by
  have hpop := h.update (f := fun c => { c with writeQueue := c.writeQueue.tail }) h.state
  unfold onWritten
  dsimp only
  split_ifs
  · exact hpop
  · exact silent_doWrite hpop

theorem silent_job (h : EventLoop.Silent (Leads on) attempt Stopping l l') (j : WsJob) :
    EventLoop.Silent (Leads on) attempt Stopping l (job j l') := by
  cases j with
  | send text =>
    have hpush := h.update (f := fun c => { c with writeQueue := c.writeQueue ++ [text] }) h.state
    unfold job
    dsimp only
    split_ifs
    · exact silent_doWrite hpush
    · exact hpush
  | stop =>
    have hstop := (h.update (f := fun c => { c with stopping := true }) rfl).abort (· = .timer)
    unfold job
    dsimp only
    split_ifs
    · exact hstop.start (by simp [Leads]) rfl
    · exact hstop.abort _
    · exact hstop

end Silent

/-- Once stopping, only the success of a leading operation shows an attempt. -/
theorem silences (cfg : WsConfig) (on : WsCallbacks) :
    EventLoop.Silences (handlers cfg on) (Leads on) attempt Stopping where
  completed op ec sniOk l hstop hq hlead := by
    have hself : EventLoop.Silent (Leads on) attempt Stopping l l := ⟨hstop, hq, rfl⟩
    show EventLoop.Silent _ _ _ l (completed cfg on op ec sniOk l)
    cases op with
    | resolve | connect | tlsHandshake =>
      have hec : ec ≠ .ok := fun h => hlead h trivial
      simp only [completed, if_neg hec, scheduleReconnect_stopping hstop]
      exact hself
    | wsHandshake =>
      unfold completed
      dsimp only
      split_ifs with hec
      · exact silent_onHandshake hself (hlead hec)
      · rw [scheduleReconnect_stopping hstop]
        exact hself
    | read =>
      unfold completed
      dsimp only
      split_ifs
      · exact silent_onRead hself
      · rw [scheduleReconnect_stopping hstop]
        exact hself
    | write =>
      have hwrite := hself.update (f := fun c => { c with writing := false }) hstop
      unfold completed
      dsimp only
      split_ifs
      · exact silent_onWritten hwrite
      · rw [scheduleReconnect_stopping hwrite.state]
        exact hwrite
    | close => exact hself
    | timer =>
      unfold completed
      dsimp only
      rw [show l.state.stopping = true from hstop, Bool.or_true, if_pos rfl]
      exact hself
  job j l hstop hq := silent_job ⟨hstop, hq, rfl⟩ j
  drift c hc := hc

/-- The success of a leading operation always shows an attempt. -/
theorem leads_shows {op : WsOp} (h : Leads on op) :
    ∃ sniOk, ∀ l : WsLoop,
      ((handlers cfg on).completed op .ok sniOk l).log.filter attempt ≠ l.log.filter attempt := by
  refine ⟨true, fun l => ?_⟩
  show (completed cfg on op .ok true l).log.filter attempt ≠ _
  cases op with
  | resolve | connect | tlsHandshake =>
    simp [completed, onTcpConnected, onTlsHandshakeDone, EventLoop.start, attempt]
  | wsHandshake =>
    have hon : on.connect = true := h
    simp only [completed, onHandshake, hon]
    simp only [if_true, doRead]
    split_ifs <;>
      simp [doWrite, EventLoop.start, EventLoop.update, EventLoop.call, attempt]
  | _ => cases h

/-! ## Runs -/

theorem scheduleReconnect_hasStream {l : WsLoop} (h : l.state.hasStream = true) (ec : Outcome)
    (place : String) : (scheduleReconnect cfg on l ec place).state.hasStream = true := by
  unfold scheduleReconnect
  dsimp only
  split_ifs <;> exact h

theorem completed_hasStream {l : WsLoop} (h : l.state.hasStream = true) (op : WsOp)
    (ec : Outcome) (sniOk : Bool) : (completed cfg on op ec sniOk l).state.hasStream = true := by
  unfold completed
  cases op with
  | resolve | tlsHandshake =>
    dsimp only
    split_ifs
    · exact h
    · exact scheduleReconnect_hasStream h _ _
  | connect =>
    dsimp only [onTcpConnected]
    split_ifs
    · exact h
    · exact scheduleReconnect_hasStream h _ _
    · exact scheduleReconnect_hasStream h _ _
  | wsHandshake =>
    dsimp only
    split_ifs
    · dsimp only [onHandshake, doRead]
      split_ifs <;> exact h
    · exact scheduleReconnect_hasStream h _ _
  | read =>
    dsimp only
    split_ifs
    · dsimp only [onRead, doRead]
      split_ifs <;> exact h
    · exact scheduleReconnect_hasStream h _ _
  | write =>
    dsimp only
    split_ifs
    · dsimp only [onWritten]
      split_ifs <;> exact h
    · apply scheduleReconnect_hasStream
      exact h
  | close => exact h
  | timer =>
    dsimp only [startConnect]
    split_ifs <;> first | exact h | rfl

theorem job_hasStream {l : WsLoop} (h : l.state.hasStream = true) (j : WsJob) :
    (job j l).state.hasStream = true := by
  unfold job
  cases j with
  | send text => dsimp only; split_ifs <;> exact h
  | stop => dsimp only; split_ifs <;> exact h

/-- From the first attempt on there is a stream. -/
theorem run_hasStream (ms : List (LoopMove WsOp WsJob Bool)) :
    (started.run (handlers cfg on) ms).state.hasStream = true := by
  refine EventLoop.run_induction (I := fun l : WsLoop => l.state.hasStream = true)
    (fun l m h => ?_) rfl ms
  cases m with
  | complete op success => rw [EventLoop.step]; split <;> exact h
  | handle op ec sniOk =>
    rw [EventLoop.step]
    split
    · exact completed_hasStream (l := { l with ready := l.ready.erase (op, ec) }) h op ec sniOk
    · exact h
  | post j => exact h
  | dispatch j =>
    rw [EventLoop.step]
    split
    · exact job_hasStream (l := { l with posted := l.posted.erase j }) h j
    · exact h
  | drift => exact h

/-- When the handler posted by `stop()` runs: no resolve is pending, no step of a connection
attempt has succeeded with its handler still to run, and if the websocket is open, so that the
stream is not closed, no step of an attempt is pending. -/
structure Settled (on : WsCallbacks) (l : WsLoop) : Prop where
  resolve : .resolve ∉ l.pending
  ready : ∀ op, (op, .ok) ∈ l.ready → ¬ Leads on op
  pending : l.state.isOpen = true → ∀ op ∈ l.pending, ¬ Leads on op

/-- With an open websocket `stop()` only cancels the timer and sends a close frame. -/
theorem quiet_stop_open_iff {l : WsLoop} (hstream : l.state.hasStream = true)
    (hopen : l.state.isOpen = true) :
    EventLoop.Quiet (Leads on) (job .stop l) ↔
      (∀ op ∈ l.pending, ¬ Leads on op) ∧ ∀ op, (op, .ok) ∈ l.ready → ¬ Leads on op := by
  have hjob : job .stop l = ((l.update fun c => { c with stopping := true }).abort
      (· = .timer)).start .close := by
    simp [job, EventLoop.abort, EventLoop.update, hstream, hopen]
  rw [hjob]
  constructor
  · intro hq
    refine ⟨fun op hop hlead => ?_, fun op hop => hq.ready op (EventLoop.mem_ready_abort.2 hop)⟩
    have hne : op ≠ .timer := by rintro rfl; exact hlead
    apply hq.pending op _ hlead
    simp [EventLoop.start, EventLoop.abort, EventLoop.update, hop, hne]
  · rintro ⟨hpending, hready⟩
    have hq : EventLoop.Quiet (Leads on) (l.update fun c => { c with stopping := true }) :=
      ⟨hpending, hready⟩
    exact (hq.abort _).start (by simp [Leads])

/-- Otherwise it closes the stream, which leaves only a resolve pending. -/
theorem quiet_stop_closed_iff {l : WsLoop} (hstream : l.state.hasStream = true)
    (hopen : l.state.isOpen = false) :
    EventLoop.Quiet (Leads on) (job .stop l) ↔
      .resolve ∉ l.pending ∧ ∀ op, (op, .ok) ∈ l.ready → ¬ Leads on op := by
  have hjob : job .stop l = ((l.update fun c => { c with stopping := true }).abort
      (· = .timer)).abort WsOp.onStream := by
    simp [job, EventLoop.abort, EventLoop.update, hstream, hopen]
  rw [hjob]
  constructor
  · intro hq
    refine ⟨fun hop => hq.pending .resolve ?_ trivial, fun op hop =>
      hq.ready op (EventLoop.mem_ready_abort.2 (EventLoop.mem_ready_abort.2 hop))⟩
    simp [EventLoop.abort, EventLoop.update, hop, WsOp.onStream]
  · rintro ⟨hresolve, hready⟩
    refine ⟨fun op hop => ?_, fun op hop =>
      hready op (EventLoop.mem_ready_abort.1 (EventLoop.mem_ready_abort.1 hop))⟩
    obtain ⟨hop', hoff⟩ := List.mem_filter.1 hop
    have hmem : op ∈ l.pending := List.mem_of_mem_filter hop'
    cases op with
    | resolve => exact absurd hmem hresolve
    | timer => exact id
    | _ => simp [WsOp.onStream] at hoff

theorem quiet_stop_iff {l : WsLoop} (hstream : l.state.hasStream = true) :
    EventLoop.Quiet (Leads on) (job .stop l) ↔ Settled on l := by
  cases hopen : l.state.isOpen with
  | true =>
    rw [quiet_stop_open_iff hstream hopen]
    refine ⟨fun ⟨hp, hr⟩ => ⟨fun h => hp _ h trivial, hr, fun _ => hp⟩,
      fun h => ⟨h.pending hopen, h.ready⟩⟩
  | false =>
    rw [quiet_stop_closed_iff hstream hopen]
    refine ⟨fun ⟨hp, hr⟩ => ⟨hp, hr, fun h => ?_⟩, fun h => ⟨h.resolve, h.ready⟩⟩
    rw [hopen] at h
    cases h

theorem job_stop_stopping (l : WsLoop) : Stopping (job .stop l).state := by
  unfold job
  dsimp only
  split_ifs <;> rfl

theorem attempts_stop (l : WsLoop) : attempts (job .stop l) = attempts l := by
  unfold job
  dsimp only
  split_ifs
  · simp [attempts, EventLoop.start, EventLoop.abort, EventLoop.update, attempt]
  · rfl
  · rfl

/-- Whatever the loop did before the handler posted by `stop()` runs: no attempt to connect
follows, in any continuation, exactly if the client was settled. -/
theorem run_stop_final_iff (cfg : WsConfig) (on : WsCallbacks)
    (before : List (LoopMove WsOp WsJob Bool))
    (hposted : .stop ∈ (started.run (handlers cfg on) before).posted) :
    (∀ after, attempts ((started.run (handlers cfg on) before).run (handlers cfg on)
        (.dispatch .stop :: after)) = attempts (started.run (handlers cfg on) before)) ↔
      Settled on (started.run (handlers cfg on) before) := by
  have hstream : (started.run (handlers cfg on) before).state.hasStream = true :=
    run_hasStream before
  generalize started.run (handlers cfg on) before = l at hposted hstream ⊢
  let l' : WsLoop := { l with posted := l.posted.erase .stop }
  have hstep : l.step (handlers cfg on) (.dispatch .stop) = job .stop l' := if_pos hposted
  have hlog : attempts l = attempts (job .stop l') := (attempts_stop l').symm
  simp only [EventLoop.run, hstep, hlog]
  apply (EventLoop.quiet_iff (silences cfg on) (fun op => leads_shows)
    (job_stop_stopping l')).trans
  rw [quiet_stop_iff (l := l') hstream]
  exact ⟨fun h => ⟨h.resolve, h.ready, h.pending⟩, fun h => ⟨h.resolve, h.ready, h.pending⟩⟩

/-- The four steps of a connection attempt succeed one after the other. -/
def connects : List (LoopMove WsOp WsJob Bool) :=
  [.complete .resolve true, .handle .resolve .ok true, .complete .connect true,
    .handle .connect .ok true, .complete .tlsHandshake true, .handle .tlsHandshake .ok true,
    .complete .wsHandshake true, .handle .wsHandshake .ok true]

/-- `stop()` is called once the client is connected. -/
def connectedStop : List (LoopMove WsOp WsJob Bool) := connects ++ [.post .stop]

theorem run_connectedStop :
    .stop ∈ (started.run (handlers {} {}) connectedStop).posted ∧
    ∀ after, attempts ((started.run (handlers {} {}) connectedStop).run (handlers {} {})
        (.dispatch .stop :: after)) =
      attempts (started.run (handlers {} {}) connectedStop) := by
  have hpending : (started.run (handlers {} {}) connectedStop).pending = [.read] := by decide
  have hready : (started.run (handlers {} {}) connectedStop).ready = [] := by decide
  have hposted : .stop ∈ (started.run (handlers {} {}) connectedStop).posted := by decide
  exact ⟨hposted, (run_stop_final_iff {} {} connectedStop hposted).2
    ⟨by simp [hpending], by simp [hready], by simp [hpending, Leads]⟩⟩

/-- Stopped while its first resolve is pending, the client goes on to connect. -/
theorem run_stop_resolving :
    .stop ∈ (started.run (handlers {} {}) [.post .stop]).posted ∧
    attempts (started.run (handlers {} {}) [.post .stop]) = [.start .resolve] ∧
    attempts ((started.run (handlers {} {}) [.post .stop]).run (handlers {} {})
        (.dispatch .stop :: connects)) =
      [.start .resolve, .start .connect, .start .tlsHandshake, .start .wsHandshake,
        .call .connectHandler] := by
  decide

end WsLoop

end LockfreeMatching
