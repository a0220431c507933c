import LockfreeMatching.Server.Sessions

/-!
# Stopping the dashboard server

The handlers of the acceptor and of the timer look at `stopping_` before they start anything
again. The handler of a session's handshake does not, and `stop()` cannot close a session whose
stream is not open yet.

## Main results

* `run_stop_quiet_iff`: after the handler posted by `stop()` the timer, the acceptor and new
  sessions are never started again, and no further session starts to read, exactly if at that
  moment no handshake was under way.
-/
namespace LockfreeMatching

open Lib

namespace ServerLoop

/-- The session has a read in flight. -/
def reading (l : ServerLoop) (id : Nat) : Bool := decide (0 < inFlight id SessionOp.isRead l)

/-- The timer, the acceptor or a new session is started, or a session starts to read that is
not among those already reading. -/
def arming (already : Nat → Bool) : Effect ServerOp ServerCall → Bool
  | .start .timer | .start .accept | .start (.session _ .handshake) => true
  | .start (.session id .read) => !already id
  | _ => false

def arms (already : Nat → Bool) (l : ServerLoop) : List (Effect ServerOp ServerCall) :=
  l.log.filter (arming already)

/-- No handshake is pending, or has succeeded with its handler still to run. -/
structure Settled (l : ServerLoop) : Prop where
  pending : ∀ id, .session id .handshake ∉ l.pending
  ready : ∀ id, (.session id .handshake, .ok) ∉ l.ready

/-! ## After the handler of stop -/

/-- The operations whose success starts a read loop. -/
def Leads (already : Nat → Bool) : ServerOp → Prop
  | .session id .handshake | .session id .read => already id = false
  | _ => False

theorem leads_cases {already : Nat → Bool} {op : ServerOp} (h : Leads already op) :
    ∃ id, already id = false ∧ (op = .session id .handshake ∨ op = .session id .read) := by
  cases op with
  | timer | accept => cases h
  | session id op =>
    cases op with
    | handshake => exact ⟨id, h, .inl rfl⟩
    | read => exact ⟨id, h, .inr rfl⟩
    | write f => cases h
    | close => cases h

def Stopping (c : DashboardServer) : Prop := c.stopping = true

/-- The server is stopping, nothing that leads to a read loop is under way in `l'`, and `l'` has
armed what `l` had. -/
abbrev Muted (already : Nat → Bool) (l l' : ServerLoop) : Prop :=
  EventLoop.Silent (Leads already) (arming already) Stopping l l'

section Muted

variable {already : Nat → Bool} {l l' : ServerLoop}

/-- A member function is silent if the operations it starts are. -/
theorem muted_onSession (h : Muted already l l') (id : Nat)
    {f : DashboardSession → DashboardSession.Acted}
    (hops : ∀ op ∈ (f (l'.state.session id)).2,
      ¬ Leads already (.session id op) ∧ arming already (.start (.session id op)) = false) :
    Muted already l (onSession l' id f) := by
  have hupdate := h.update (f := fun c : DashboardServer => { c with
    session := Function.update c.session id (f (l'.state.session id)).1 }) h.state
  exact hupdate.starts (ServerOp.session id) hops

theorem muted_drop (h : Muted already l l') (id : Nat) :
    Muted already l (dropSession l' id) := by
  unfold dropSession
  apply EventLoop.Silent.update
  · exact h.update h.state
  · exact h.state

theorem muted_write (h : Muted already l l') (id : Nat) (ec : Outcome) (frame f : String) :
    Muted already l (completed (.session id (.write f)) ec frame l') := by
  have hwriting := muted_onSession h id (f := fun s => ({ s with writing := false }, []))
    (by simp)
  unfold completed
  dsimp only
  split_ifs
  · exact muted_drop hwriting id
  · apply muted_onSession hwriting id
    unfold DashboardSession.onWritten
    dsimp only
    split_ifs
    · simp
    · simp [DashboardSession.doWrite, Leads, arming]

theorem muted_job (h : Muted already l l') (j : ServerJob) : Muted already l (job j l') := by
  cases j with
  | stop =>
    have hstop := ((h.update (f := fun c => { c with stopping := true }) rfl).abort
      (· = .timer)).abort (· = .accept)
    have hclose : ∀ (ids : List Nat) (l' : ServerLoop), Muted already l l' →
        Muted already l (ids.foldl (fun l id => onSession l id DashboardSession.close) l') := by
      intro ids
      induction ids with
      | nil => exact fun l' hl' => hl'
      | cons id ids ih =>
        intro l' hl'
        apply ih
        apply muted_onSession hl'
        unfold DashboardSession.close
        dsimp only
        split_ifs <;> simp [Leads, arming]
    have hclosed := hclose l'.state.sessions _ hstop
    unfold job
    apply EventLoop.Silent.update hclosed
    exact hclosed.state
  | shut id =>
    unfold job
    apply muted_onSession h
    exact fun op hop => absurd hop List.not_mem_nil

end Muted

/-- Once stopping, only the success of a leading operation arms anything. -/
theorem silences (already : Nat → Bool) :
    EventLoop.Silences handlers (Leads already) (arming already) Stopping where
  completed op ec frame l hstop hq hlead := by
    have hself : Muted already l l := ⟨hstop, hq, rfl⟩
    show Muted already l (completed op ec frame l)
    cases op with
    | timer | accept =>
      unfold completed
      dsimp only
      rw [show l.state.stopping = true from hstop, Bool.or_true, if_pos rfl]
      exact hself
    | session id op =>
      cases op with
      | handshake =>
        unfold completed
        dsimp only
        split_ifs with hec
        · exact muted_drop hself id
        · have halready : already id = true := by
            simpa [Leads] using hlead (by simpa using hec)
          apply muted_onSession hself
          unfold DashboardSession.onAccepted
          dsimp only [DashboardSession.doRead]
          split_ifs <;> simp [DashboardSession.doWrite, Leads, arming, halready]
      | read =>
        unfold completed
        dsimp only
        split_ifs with hec
        · exact muted_drop hself id
        · have halready : already id = true := by
            simpa [Leads] using hlead (by simpa using hec)
          apply muted_onSession hself
          simp [DashboardSession.doRead, Leads, arming, halready]
      | write f => exact muted_write hself id ec frame f
      | close => exact hself
  job j l hstop hq := muted_job ⟨hstop, hq, rfl⟩ j
  drift c hc := hc

/-- The success of a leading operation always starts a read loop. -/
theorem leads_shows {already : Nat → Bool} {op : ServerOp} (h : Leads already op) :
    ∃ frame, ∀ l : ServerLoop, (handlers.completed op .ok frame l).log.filter (arming already) ≠
      l.log.filter (arming already) := by
  refine ⟨"", fun l => ?_⟩
  obtain ⟨id, hnot, rfl | rfl⟩ := leads_cases h
  · show (onSession l id DashboardSession.onAccepted).log.filter _ ≠ _
    rw [onSession_eq]
    unfold DashboardSession.onAccepted
    dsimp only [DashboardSession.doRead]
    split_ifs <;> simp [DashboardSession.doWrite, arming, hnot]
  · show (onSession l id DashboardSession.doRead).log.filter _ ≠ _
    simp [onSession_eq, DashboardSession.doRead, arming, hnot]

section Stop

variable {l : ServerLoop}

theorem job_stop_stopping (l : ServerLoop) : Stopping (job .stop l).state := by
  unfold job
  exact foldl_keeps DashboardServer.stopping (fun l id => by rw [onSession_eq]) _ _

/-- Closing the sessions takes nothing away from what is under way. -/
theorem foldl_close_under_way (ids : List Nat) (l : ServerLoop) :
    l.pending ⊆ (ids.foldl (fun l id => onSession l id DashboardSession.close) l).pending ∧
      (ids.foldl (fun l id => onSession l id DashboardSession.close) l).ready = l.ready := by
  induction ids generalizing l with
  | nil => exact ⟨fun _ hop => hop, rfl⟩
  | cons id ids ih =>
    obtain ⟨hpending, hready⟩ := ih (onSession l id DashboardSession.close)
    rw [onSession_eq] at hpending hready
    refine ⟨fun op hop => ?_, ?_⟩
    · rw [List.foldl_cons, onSession_eq]
      exact hpending (List.mem_append_left _ hop)
    · rw [List.foldl_cons, onSession_eq]
      exact hready

/-- What is silent while stopping is silent when the handler of `stop()` runs. -/
theorem muted_stop {already : Nat → Bool} (hq : EventLoop.Quiet (Leads already) l) :
    EventLoop.Quiet (Leads already) (job .stop l) ∧
      arms already (job .stop l) = arms already l := by
  have hself : Muted already (l.update fun c => { c with stopping := true })
      (l.update fun c => { c with stopping := true }) := ⟨rfl, ⟨hq.pending, hq.ready⟩, rfl⟩
  have hstop := muted_job hself .stop
  exact ⟨hstop.quiet, hstop.log⟩

/-- `stop()` neither aborts nor starts an operation that leads to a read loop. -/
theorem quiet_stop_iff {already : Nat → Bool} :
    EventLoop.Quiet (Leads already) (job .stop l) ↔ EventLoop.Quiet (Leads already) l := by
  let aborted : ServerLoop :=
    ((l.update fun c => { c with stopping := true }).abort (· = .timer)).abort (· = .accept)
  obtain ⟨hpending, hready⟩ := foldl_close_under_way l.state.sessions aborted
  refine ⟨fun hq => ⟨fun op hop hlead => ?_, fun op hop => ?_⟩, fun hq => (muted_stop hq).1⟩
  · have hkept : op ∈ aborted.pending := by
      cases op with
      | timer | accept => cases hlead
      | session id op => simpa [aborted, EventLoop.abort, EventLoop.update] using hop
    exact hq.pending op (hpending hkept) hlead
  · have hkept : (op, .ok) ∈ aborted.ready :=
      EventLoop.mem_ready_abort.2 (EventLoop.mem_ready_abort.2 hop)
    rw [← hready] at hkept
    exact hq.ready op hkept

/-- A session whose handshake is under way is not reading yet. -/
theorem Inv.not_reading (h : Inv l) {id : Nat}
    (hhand : 0 < inFlight id SessionOp.isHandshake l) : reading l id = false := by
  have hinv := h.session id
  have hnot : (l.state.session id).ready = false := by
    cases hr : (l.state.session id).ready with
    | false => rfl
    | true => exact absurd (hinv.accepted hr) (Nat.ne_of_gt hhand)
  have hreads : inFlight id SessionOp.isRead l = 0 := (hinv.waiting hnot).2
  simp [reading, hreads]

theorem Inv.quiet_iff_settled (h : Inv l) :
    EventLoop.Quiet (Leads (reading l)) l ↔ Settled l := by
  constructor
  · intro hq
    refine ⟨fun id hmem => ?_, fun id hmem => ?_⟩
    · apply hq.pending _ hmem
      exact h.not_reading (EventLoop.outstanding_pos_of_pending _ hmem
        (by simp [ServerOp.of]))
    · apply hq.ready _ hmem
      exact h.not_reading (EventLoop.outstanding_pos_of_ready _ hmem
        (by simp [ServerOp.of]))
  · intro hs
    -- a read in flight belongs to a session that is already reading
    have hread : ∀ id, 0 < inFlight id SessionOp.isRead l → ¬ reading l id = false := by
      intro id hpos
      simp [reading, hpos]
    refine ⟨fun op hmem hlead => ?_, fun op hmem hlead => ?_⟩
    · obtain ⟨id, hnot, rfl | rfl⟩ := leads_cases hlead
      · exact hs.pending id hmem
      · exact hread id (EventLoop.outstanding_pos_of_pending _ hmem
          (by simp [ServerOp.of])) hnot
    · obtain ⟨id, hnot, rfl | rfl⟩ := leads_cases hlead
      · exact hs.ready id hmem
      · exact hread id (EventLoop.outstanding_pos_of_ready _ hmem
          (by simp [ServerOp.of])) hnot

theorem after_stop {before : List ServerMove} (hposted : .stop ∈ (after before).posted)
    (rest : List ServerMove) :
    after (before ++ .dispatch .stop :: rest) =
      (job .stop ((after before).dispatching .stop)).run handlers rest := by
  have hstep : (after before).step handlers (.dispatch .stop) =
      job .stop ((after before).dispatching .stop) := if_pos hposted
  unfold after at hstep ⊢
  rw [EventLoop.run_append, EventLoop.run, hstep]

end Stop

/-- Whatever the loop did before the handler posted by `stop()` runs: in no continuation is the
timer, the acceptor or a session started again, nor does a session start to read that was not
reading, exactly if no handshake was under way. -/
theorem run_stop_quiet_iff (before : List ServerMove)
    (hposted : .stop ∈ (after before).posted) :
    (∀ rest, arms (reading (after before)) (after (before ++ .dispatch .stop :: rest)) =
        arms (reading (after before)) (after before)) ↔
      Settled (after before) := by
  rw [← (inv_after before).quiet_iff_settled]
  have hiff := EventLoop.quiet_iff (silences (reading (after before))) (fun op => leads_shows)
    (job_stop_stopping ((after before).dispatching .stop))
  constructor
  · intro hquiet
    have hnow := after_stop hposted [] ▸ hquiet []
    have hstop := hiff.1 fun rest =>
      (after_stop hposted rest ▸ hquiet rest).trans (Eq.symm hnow)
    obtain ⟨hpending, hready⟩ := quiet_stop_iff.1 hstop
    exact ⟨hpending, hready⟩
  · intro hq rest
    obtain ⟨hstop, hnow⟩ := muted_stop (l := (after before).dispatching .stop)
      ⟨hq.pending, hq.ready⟩
    rw [after_stop hposted]
    exact (hiff.2 hstop rest).trans hnow

/-- A browser has connected to the port and its handshake is pending when `stop()` is called. -/
def handshakePending : List ServerMove :=
  [.complete .accept true, .handle .accept .ok "", .post .stop]

/-- The handshake succeeds after the handler of `stop()` has run, and the session starts to
read. -/
theorem handshakePending_reads :
    .stop ∈ (after handshakePending).posted ∧
    reading (after handshakePending) 0 = false ∧
    arms (reading (after handshakePending)) (after (handshakePending ++
        [.dispatch .stop, .complete (.session 0 .handshake) true,
          .handle (.session 0 .handshake) .ok ""])) =
      arms (reading (after handshakePending)) (after handshakePending) ++
        [.start (.session 0 .read)] := by
  decide

/-- `stop()` is called once the handshake has succeeded. -/
def connectedStop : List ServerMove :=
  [.complete .accept true, .handle .accept .ok "", .complete (.session 0 .handshake) true,
    .handle (.session 0 .handshake) .ok "", .post .stop]

theorem connectedStop_quiet :
    .stop ∈ (after connectedStop).posted ∧
    ∀ rest, arms (reading (after connectedStop))
        (after (connectedStop ++ .dispatch .stop :: rest)) =
      arms (reading (after connectedStop)) (after connectedStop) := by
  have hposted : .stop ∈ (after connectedStop).posted := by decide
  have hpending : (after connectedStop).pending = [.timer, .accept, .session 0 .read] := by decide
  have hready : (after connectedStop).ready = [] := by decide
  exact ⟨hposted, (run_stop_quiet_iff connectedStop hposted).2
    ⟨by simp [hpending], by simp [hready]⟩⟩

end ServerLoop

end LockfreeMatching
