import LockfreeMatching.Feed.WsClient
import Mathlib.Algebra.Group.Nat.Defs

/-!
# Reconnecting

The client after any run of its loop. Until the handler of `stop()` has run there is always an
operation whose handler goes on, so `run()` does not return, and the delays between attempts
follow the failures since the last connect.

## Main results

* `run_goes_on`: the loop never runs out of work before it is stopped.
* `run_backoff`: the delay the timer is set to.
-/
namespace LockfreeMatching

open Lib

namespace WsLoop

variable {cfg : WsConfig} {on : WsCallbacks} {l : WsLoop}

/-! ## Lifelines -/

/-- The operations that are followed by another one, whether they succeed or fail. -/
def carries : WsOp → Bool
  | .write | .close => false
  | _ => true

/-- An operation that ended and whose handler goes on. A timer is only ever cancelled. -/
def goesOn : WsOp × Outcome → Bool
  | (.timer, ec) => decide (ec = .ok)
  | (op, ec) => carries op && decide (ec ≠ .aborted)

/-- How many operations keep the client going. -/
def lifelines (l : WsLoop) : Nat := l.pending.countP carries + l.ready.countP goesOn

@[simp] theorem lifelines_start (op : WsOp) :
    lifelines (l.start op) = lifelines l + if carries op then 1 else 0 := by
  simp only [lifelines, EventLoop.start, List.countP_append, List.countP_singleton]
  omega

@[simp] theorem lifelines_update (f : WsClient → WsClient) :
    lifelines (l.update f) = lifelines l := rfl

@[simp] theorem lifelines_call (f : WsCall) : lifelines (l.call f) = lifelines l := rfl

/-- A failure sets the timer. -/
theorem lifelines_scheduleReconnect (hstop : l.state.stopping = false) {ec : Outcome}
    (hec : ec ≠ .aborted) (place : String) :
    0 < lifelines (scheduleReconnect cfg on l ec place) := by
  simp [scheduleReconnect, hstop, hec, carries]

theorem scheduleReconnect_aborted (place : String) :
    scheduleReconnect cfg on l .aborted place = l := by
  simp [scheduleReconnect]

theorem lifelines_startConnect (hstop : l.state.stopping = false) :
    0 < lifelines (startConnect l) := by
  simp [startConnect, hstop, carries]

theorem lifelines_doRead : 0 < lifelines (doRead l) := by simp [doRead, carries]

theorem lifelines_onWritten : lifelines (onWritten l) = lifelines l := by
  unfold onWritten
  dsimp only
  split_ifs <;> simp [doWrite, carries]

/-- The handler of an operation that carries the client on starts another one. -/
theorem completed_goes_on (hstop : l.state.stopping = false) {op : WsOp} {ec : Outcome}
    (hgoes : goesOn (op, ec) = true) (sniOk : Bool) :
    0 < lifelines (completed cfg on op ec sniOk l) := by
  cases op with
  | resolve | tlsHandshake =>
    have hec : ec ≠ .aborted := by simpa [goesOn, carries] using hgoes
    unfold completed
    dsimp only [onTlsHandshakeDone]
    split_ifs
    · simp [carries]
    · exact lifelines_scheduleReconnect hstop hec _
  | connect =>
    have hec : ec ≠ .aborted := by simpa [goesOn, carries] using hgoes
    unfold completed
    dsimp only [onTcpConnected]
    split_ifs
    · simp [carries]
    · exact lifelines_scheduleReconnect hstop (by simp) _
    · exact lifelines_scheduleReconnect hstop hec _
  | wsHandshake =>
    have hec : ec ≠ .aborted := by simpa [goesOn, carries] using hgoes
    unfold completed
    dsimp only [onHandshake]
    split_ifs
    all_goals first | exact lifelines_doRead | exact lifelines_scheduleReconnect hstop hec _
  | read =>
    have hec : ec ≠ .aborted := by simpa [goesOn, carries] using hgoes
    unfold completed
    dsimp only [onRead]
    split_ifs
    all_goals first | exact lifelines_doRead | exact lifelines_scheduleReconnect hstop hec _
  | write | close => simp [goesOn, carries] at hgoes
  | timer =>
    obtain rfl : ec = .ok := by simpa [goesOn] using hgoes
    simpa [completed, hstop] using lifelines_startConnect hstop

/-- Any other handler leaves the lifelines of the others alone, or sets the timer. -/
theorem completed_lifelines (hstop : l.state.stopping = false) (hlive : 0 < lifelines l)
    {op : WsOp} {ec : Outcome} (hgoes : goesOn (op, ec) = false) (sniOk : Bool) :
    0 < lifelines (completed cfg on op ec sniOk l) := by
  cases op with
  | resolve | connect | tlsHandshake | wsHandshake | read =>
    obtain rfl : ec = .aborted := by simpa [goesOn, carries] using hgoes
    simpa [completed, scheduleReconnect_aborted] using hlive
  | write =>
    have hstop' : (l.update fun c => { c with writing := false }).state.stopping = false := hstop
    have hlive' : 0 < lifelines (l.update fun c => { c with writing := false }) := hlive
    unfold completed
    dsimp only
    generalize l.update (fun c => { c with writing := false }) = l' at hstop' hlive'
    split_ifs
    · rwa [lifelines_onWritten]
    · by_cases hec : ec = .aborted
      · rwa [hec, scheduleReconnect_aborted]
      · exact lifelines_scheduleReconnect hstop' hec _
  | close => exact hlive
  | timer =>
    have hec : ec ≠ .ok := by simpa [goesOn] using hgoes
    simpa [completed, hec] using hlive

/-! ## Stopping -/

theorem scheduleReconnect_state (ec : Outcome) (place : String) :
    (scheduleReconnect cfg on l ec place).state.stopping = l.state.stopping := by
  unfold scheduleReconnect
  dsimp only
  split_ifs <;> rfl

/-- No completion handler stops the client, or resumes it. -/
theorem completed_stopping (op : WsOp) (ec : Outcome) (sniOk : Bool) :
    (completed cfg on op ec sniOk l).state.stopping = l.state.stopping := by
  cases op with
  | resolve | tlsHandshake =>
    unfold completed
    dsimp only [onTlsHandshakeDone]
    split_ifs
    · rfl
    · exact scheduleReconnect_state _ _
  | connect =>
    unfold completed
    dsimp only [onTcpConnected]
    split_ifs
    · rfl
    · exact scheduleReconnect_state _ _
    · exact scheduleReconnect_state _ _
  | wsHandshake =>
    unfold completed
    dsimp only [onHandshake]
    split_ifs
    all_goals first | rfl | exact scheduleReconnect_state _ _
  | read =>
    unfold completed
    dsimp only [onRead]
    split_ifs
    all_goals first | rfl | exact scheduleReconnect_state _ _
  | write =>
    unfold completed
    dsimp only [onWritten]
    split_ifs
    all_goals first | rfl | exact scheduleReconnect_state _ _
  | close => rfl
  | timer =>
    unfold completed
    dsimp only [startConnect]
    split_ifs <;> rfl

/-! ## Runs -/

/-- Alive until stopped. -/
def Alive (l : WsLoop) : Prop := l.state.stopping = false → 0 < lifelines l

/-- An operation that ends stays a lifeline. -/
theorem lifelines_complete {op : WsOp} {success : Bool} (htimer : op = .timer → success = true) :
    lifelines (l.step (handlers cfg on) (.complete op success)) = lifelines l := by
  rw [EventLoop.step]
  by_cases hmem : op ∈ l.pending
  · rw [if_pos hmem]
    have hperm := (List.perm_cons_erase hmem).countP_eq carries
    have hkind : goesOn (op, if success then .ok else .failed) = carries op := by
      cases op <;> cases success <;> simp_all [goesOn, carries]
    simp only [lifelines, hperm, List.countP_append, List.countP_cons, List.countP_nil, hkind]
    omega
  · rw [if_neg hmem]

theorem lifelines_handling {op : WsOp} {ec : Outcome} (hmem : (op, ec) ∈ l.ready) :
    lifelines l = lifelines (l.handling op ec) + if goesOn (op, ec) then 1 else 0 := by
  have hperm := (List.perm_cons_erase hmem).countP_eq goesOn
  simp only [lifelines, EventLoop.handling, hperm, List.countP_cons]
  omega

theorem job_send_lifelines (text : String) : lifelines (job (.send text) l) = lifelines l := by
  unfold job
  dsimp only
  split_ifs <;> simp [doWrite, carries]

theorem job_alive (h : Alive l) (j : WsJob) : Alive (job j l) := by
  cases j with
  | send text =>
    intro hstop
    rw [job_send_lifelines]
    refine h ?_
    unfold job at hstop
    dsimp only at hstop
    split_ifs at hstop <;> exact hstop
  | stop =>
    intro hstop
    unfold job at hstop
    dsimp only at hstop
    split_ifs at hstop <;> cases hstop

theorem handle_alive (h : Alive l) {op : WsOp} {ec : Outcome} (hmem : (op, ec) ∈ l.ready)
    (sniOk : Bool) : Alive (completed cfg on op ec sniOk (l.handling op ec)) := by
  intro hstop
  rw [completed_stopping] at hstop
  have hlive := h hstop
  rw [lifelines_handling hmem] at hlive
  cases hgoes : goesOn (op, ec) with
  | true => exact completed_goes_on hstop hgoes sniOk
  | false => exact completed_lifelines hstop (by simpa [hgoes] using hlive) hgoes sniOk

theorem Alive.step (h : Alive l) {m : LoopMove WsOp WsJob Bool}
    (htimer : m ≠ .complete .timer false) : Alive (l.step (handlers cfg on) m) := by
  cases m with
  | complete op success =>
    have hstate : (l.step (handlers cfg on) (.complete op success)).state = l.state := by
      rw [EventLoop.step]
      split <;> rfl
    intro hstop
    rw [lifelines_complete fun hop => by cases success <;> simp_all]
    exact h (hstate ▸ hstop)
  | handle op ec sniOk =>
    rw [EventLoop.step]
    split_ifs with hmem
    · exact handle_alive h hmem sniOk
    · exact h
  | post j => exact h
  | dispatch j =>
    rw [EventLoop.step]
    split_ifs
    · exact job_alive (l := l.dispatching j) h j
    · exact h
  | drift => exact h

theorem run_alive {ms : List (LoopMove WsOp WsJob Bool)} (htimer : .complete .timer false ∉ ms)
    (h : Alive l) : Alive (l.run (handlers cfg on) ms) := by
  induction ms generalizing l with
  | nil => exact h
  | cons m ms ih =>
    rw [List.mem_cons, not_or] at htimer
    exact ih htimer.2 (h.step (Ne.symm htimer.1))

/-- Before it is stopped the client has an operation under way, or one that ended and whose handler
goes on: a timer that expired, or a step that was not given up. So the loop cannot run out of
work. Timers expire or are cancelled; they do not fail. -/
theorem run_goes_on {ms : List (LoopMove WsOp WsJob Bool)} (htimer : .complete .timer false ∉ ms)
    (hstop : (started.run (handlers cfg on) ms).state.stopping = false) :
    ∃ op, carries op = true ∧ (op ∈ (started.run (handlers cfg on) ms).pending ∨
      ∃ ec, goesOn (op, ec) = true ∧ (op, ec) ∈ (started.run (handlers cfg on) ms).ready) := by
  have hstart : Alive started := fun _ => by decide
  have hlive := run_alive htimer hstart hstop
  rcases Nat.add_pos_iff_pos_or_pos.1 hlive with hpending | hready
  · obtain ⟨op, hop, hcarries⟩ := List.countP_pos_iff.1 hpending
    exact ⟨op, hcarries, .inl hop⟩
  · obtain ⟨⟨op, ec⟩, hmem, hgoes⟩ := List.countP_pos_iff.1 hready
    refine ⟨op, ?_, .inr ⟨ec, hgoes, hmem⟩⟩
    cases op <;> simp_all [goesOn, carries]

/-- The read of an open websocket fails, and its handler has not run yet. -/
theorem run_goes_on_readFailed : ∃ op, carries op = true ∧
    (op ∈ (started.run (handlers {} {}) (connects ++ [.complete .read false])).pending ∨
      ∃ ec, goesOn (op, ec) = true ∧
        (op, ec) ∈ (started.run (handlers {} {}) (connects ++ [.complete .read false])).ready) :=
  run_goes_on (by simp [connects]) rfl

/-! ## Backoff -/

/-- Failures since the last connect: each of them sets the timer. -/
def countFailure (n : Nat) : Effect WsOp WsCall → Nat
  | .start .timer => n + 1
  | .call .connectHandler => 0
  | _ => n

def failures (log : List (Effect WsOp WsCall)) : Nat := log.foldl countFailure 0

@[simp] theorem failures_concat (log : List (Effect WsOp WsCall)) (e : Effect WsOp WsCall) :
    failures (log ++ [e]) = countFailure (failures log) e := by
  simp [failures]

/-- The delay after `k` failures in a row; the counter of the source has 32 bits. -/
def delayAfter (cfg : WsConfig) (k : Nat) : Nat :=
  min (cfg.reconnectBaseDelay * 2 ^ min (k % 2 ^ 32) 16) cfg.reconnectMaxDelay

structure Backoff (cfg : WsConfig) (l : WsLoop) : Prop where
  attempts : l.state.reconnectAttempts = .ofNat (failures l.log)
  delay : 0 < failures l.log → l.state.timerDelay = delayAfter cfg (failures l.log - 1)

namespace Backoff

theorem start (h : Backoff cfg l) {op : WsOp} (hop : op ≠ .timer) : Backoff cfg (l.start op) := by
  have hsame : failures (l.start op).log = failures l.log := by
    cases op <;> simp_all [countFailure]
  exact ⟨by rw [hsame]; exact h.attempts, by rw [hsame]; exact h.delay⟩

theorem update (h : Backoff cfg l) {f : WsClient → WsClient}
    (hattempts : (f l.state).reconnectAttempts = l.state.reconnectAttempts)
    (hdelay : (f l.state).timerDelay = l.state.timerDelay) : Backoff cfg (l.update f) :=
  ⟨hattempts.trans h.attempts, fun hpos => hdelay.trans (h.delay hpos)⟩

theorem abort (h : Backoff cfg l) (p : WsOp → Bool) : Backoff cfg (l.abort p) :=
  ⟨h.attempts, h.delay⟩

theorem call (h : Backoff cfg l) {f : WsCall} (hf : f ≠ .connectHandler) :
    Backoff cfg (l.call f) := by
  have hsame : failures (l.call f).log = failures l.log := by
    cases f <;> simp_all [countFailure]
  exact ⟨by rw [hsame]; exact h.attempts, by rw [hsame]; exact h.delay⟩

/-- The timer is set once more. -/
theorem rearm (h : Backoff cfg l) (drops : Bool) :
    Backoff cfg ((((if drops then
          (l.update fun c => { c with reconnectAttempts := c.reconnectAttempts + 1 }).abort
            WsOp.onStream
        else l.update fun c => { c with reconnectAttempts := c.reconnectAttempts + 1 }).abort
          (· = .timer)).update fun c => { c with
            timerDelay := min
              (cfg.reconnectBaseDelay * 1 <<< min l.state.reconnectAttempts.toNat 16)
              cfg.reconnectMaxDelay }).start .timer) := by
  have hdelay : cfg.reconnectBaseDelay * 1 <<< min l.state.reconnectAttempts.toNat 16 =
      cfg.reconnectBaseDelay * 2 ^ min (failures l.log % 2 ^ 32) 16 := by
    rw [Nat.one_shiftLeft, h.attempts]
    rfl
  cases drops <;>
    exact ⟨by simp [EventLoop.abort, EventLoop.update, EventLoop.start, h.attempts, countFailure],
      fun _ => by simp [EventLoop.abort, EventLoop.update, EventLoop.start, hdelay, countFailure,
        delayAfter]⟩

theorem scheduleReconnect (h : Backoff cfg l) (ec : Outcome) (place : String) :
    Backoff cfg (scheduleReconnect cfg on l ec place) := by
  have hcalled : Backoff cfg (if on.disconnect then l.call (.disconnectHandler place) else l) := by
    split_ifs
    · exact h.call (by simp)
    · exact h
  unfold WsLoop.scheduleReconnect
  dsimp only
  generalize (if on.disconnect then l.call (.disconnectHandler place) else l) = l' at hcalled
  by_cases hends : (l.state.stopping || decide (ec = .aborted)) = true
  · rw [if_pos hends]
    exact h
  · rw [if_neg hends]
    exact hcalled.rearm l'.state.hasStream

theorem doWrite (h : Backoff cfg l) : Backoff cfg (doWrite l) := (h.update rfl rfl).start (by simp)

theorem startConnect (h : Backoff cfg l) : Backoff cfg (startConnect l) := by
  unfold WsLoop.startConnect
  dsimp only
  split_ifs
  · exact h
  · exact ((h.abort _).update rfl rfl).start (by simp)

/-- The handshake resets the counter and calls the connect handler. -/
theorem onHandshake (hon : on.connect = true) : Backoff cfg (onHandshake on l) := by
  have hreset : Backoff cfg ((l.update fun c =>
      { c with isOpen := true, reconnectAttempts := 0 }).call .connectHandler) := by
    constructor <;> simp [EventLoop.call, EventLoop.update, countFailure]
  unfold WsLoop.onHandshake
  simp only [hon, if_true]
  refine start ?_ (by simp)
  split_ifs
  · exact hreset.doWrite
  · exact hreset

theorem onRead (h : Backoff cfg l) : Backoff cfg (onRead on l) := by
  unfold WsLoop.onRead
  refine start ?_ (by simp)
  split_ifs
  · exact h.call (by simp)
  · exact h

theorem onWritten (h : Backoff cfg l) : Backoff cfg (onWritten l) := by
  have hpop : Backoff cfg (l.update fun c => { c with writeQueue := c.writeQueue.tail }) :=
    h.update rfl rfl
  unfold WsLoop.onWritten
  dsimp only
  split_ifs
  · exact hpop
  · exact hpop.doWrite

theorem completed (h : Backoff cfg l) (hon : on.connect = true) (op : WsOp) (ec : Outcome)
    (sniOk : Bool) : Backoff cfg (completed cfg on op ec sniOk l) := by
  cases op with
  | resolve | tlsHandshake =>
    unfold WsLoop.completed
    dsimp only [onTlsHandshakeDone]
    split_ifs
    · exact h.start (by simp)
    · exact h.scheduleReconnect ec _
  | connect =>
    unfold WsLoop.completed
    dsimp only [onTcpConnected]
    split_ifs
    · exact h.start (by simp)
    · exact h.scheduleReconnect _ _
    · exact h.scheduleReconnect _ _
  | wsHandshake =>
    unfold WsLoop.completed
    dsimp only
    split_ifs
    · exact onHandshake hon
    · exact h.scheduleReconnect _ _
  | read =>
    unfold WsLoop.completed
    dsimp only
    split_ifs
    · exact h.onRead
    · exact h.scheduleReconnect _ _
  | write =>
    have hwritten : Backoff cfg (l.update fun c => { c with writing := false }) := h.update rfl rfl
    unfold WsLoop.completed
    dsimp only
    generalize l.update (fun c => { c with writing := false }) = l' at hwritten
    split_ifs
    · exact hwritten.onWritten
    · exact hwritten.scheduleReconnect _ _
  | close => exact h
  | timer =>
    unfold WsLoop.completed
    dsimp only
    split_ifs
    · exact h
    · exact h.startConnect

theorem job (h : Backoff cfg l) (j : WsJob) : Backoff cfg (job j l) := by
  cases j with
  | send text =>
    have hqueued : Backoff cfg
        (l.update fun c => { c with writeQueue := c.writeQueue ++ [text] }) := h.update rfl rfl
    unfold WsLoop.job
    dsimp only
    split_ifs
    · exact hqueued.doWrite
    · exact hqueued
  | stop =>
    have hstopped : Backoff cfg ((l.update fun c => { c with stopping := true }).abort
        (· = .timer)) := (h.update rfl rfl).abort _
    unfold WsLoop.job
    dsimp only
    split_ifs
    · exact hstopped.start (by simp)
    · exact hstopped.abort _
    · exact hstopped

theorem step (h : Backoff cfg l) (hon : on.connect = true) (m : LoopMove WsOp WsJob Bool) :
    Backoff cfg (l.step (handlers cfg on) m) := by
  rcases EventLoop.step_cases l (handlers cfg on) m with hsame | ⟨op, ec, sniOk, -, -, he⟩ |
    ⟨j, -, -, he⟩ | ⟨-, he⟩
  · exact ⟨by rw [hsame.state, hsame.log]; exact h.attempts,
      by rw [hsame.state, hsame.log]; exact h.delay⟩
  · rw [he]
    exact completed (l := l.handling op ec) ⟨h.attempts, h.delay⟩ hon op ec sniOk
  · rw [he]
    exact job (l := l.dispatching j) ⟨h.attempts, h.delay⟩ j
  · rw [he]
    exact h.update rfl rfl

end Backoff

end WsLoop

end LockfreeMatching
