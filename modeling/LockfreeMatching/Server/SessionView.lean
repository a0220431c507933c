import LockfreeMatching.Server.WsServer

/-!
# One session in the loop of the server

What concerns one session in a run of the server: the session itself, whether it is known and
listed, its operations in flight, and the frames queued for it and written to it. `view id`
reads this off a loop. A handler of another session leaves it alone, so a step of the server
is at most one event of the session, and each event is a function on views.
-/
namespace LockfreeMatching

open Lib

namespace SessionOp

@[simp] def isHandshake : SessionOp → Bool
  | .handshake => true
  | _ => false

@[simp] def isRead : SessionOp → Bool
  | .read => true
  | _ => false

@[simp] def isWrite : SessionOp → Bool
  | .write _ => true
  | _ => false

@[simp] def isClose : SessionOp → Bool
  | .close => true
  | _ => false

@[simp] def frame? : SessionOp → Option String
  | .write frame => some frame
  | _ => none

end SessionOp

/-- The operations of session `id` that satisfy `q`. -/
def ServerOp.of (id : Nat) (q : SessionOp → Bool) : ServerOp → Bool
  | .session i op => decide (i = id) && q op
  | _ => false

namespace ServerLoop

/-- How many operations of a session that satisfy `q` have not called their handler yet. -/
def inFlight (id : Nat) (q : SessionOp → Bool) (l : ServerLoop) : Nat :=
  l.outstanding (ServerOp.of id q)

/-- The frame an effect writes to session `id`. -/
def writtenTo (id : Nat) : Effect ServerOp ServerCall → Option String
  | .start (.session i op) => if i = id then op.frame? else none
  | _ => none

/-- The frame an effect queues for session `id`. -/
def queuedFor (id : Nat) : Effect ServerOp ServerCall → Option String
  | .call (.send i frame true) => if i = id then some frame else none
  | _ => none

/-- The frames given to `async_write`, in order. -/
def written (id : Nat) (l : ServerLoop) : List String := l.log.filterMap (writtenTo id)

/-- The frames that `send` queued, in order. -/
def queued (id : Nat) (l : ServerLoop) : List String := l.log.filterMap (queuedFor id)

end ServerLoop

/-! ## What concerns one session -/

@[ext]
structure SessionView where
  session : DashboardSession
  known : Prop
  listed : Prop
  inFlight : (SessionOp → Bool) → Nat
  queued : List String
  written : List String

namespace SessionView

/-- One more operation is in flight. -/
@[simps] def owing (v : SessionView) (op : SessionOp) : SessionView :=
  { v with inFlight := fun q => v.inFlight q + if q op then 1 else 0 }

@[simps] def start (v : SessionView) (op : SessionOp) : SessionView :=
  { v.owing op with written := v.written ++ op.frame?.toList }

/-- What a member function of the session leaves behind. -/
def acted (v : SessionView) (a : DashboardSession.Acted) : SessionView :=
  a.2.foldl start { v with session := a.1 }

def act (v : SessionView) (f : DashboardSession → DashboardSession.Acted) : SessionView :=
  v.acted (f v.session)

def drop (v : SessionView) : SessionView := { v with listed := False }

def send (v : SessionView) (frame : String) : SessionView :=
  if v.session.queue.length < DashboardSession.maxQueued then
    ({ v with queued := v.queued ++ [frame] }).acted (v.session.send frame)
  else v.acted (v.session.send frame)

/-- The handler of an operation of the session runs. -/
def completed (v : SessionView) (op : SessionOp) (ec : Outcome) : SessionView :=
  match op with
  | .handshake => if ec ≠ .ok then v.drop else v.act DashboardSession.onAccepted
  | .read => if ec ≠ .ok then v.drop else v.act DashboardSession.doRead
  | .write _ =>
    let v := v.act fun s => ({ s with writing := false }, [])
    if ec ≠ .ok then v.drop else v.act DashboardSession.onWritten
  | .close => v

/-- The session is created and starts its handshake. -/
def create (v : SessionView) : SessionView :=
  ({ v with known := True, listed := True }).act DashboardSession.start

end SessionView

namespace ServerLoop

def view (id : Nat) (l : ServerLoop) : SessionView where
  session := l.state.session id
  known := id < l.state.created
  listed := id ∈ l.state.sessions
  inFlight q := inFlight id q l
  queued := queued id l
  written := written id l

section View

variable (id : Nat) (l : ServerLoop)

theorem view_congr {l' : ServerLoop} (h : EventLoop.Same l l') : view id l' = view id l := by
  simp [view, inFlight, queued, written, h.state, h.log, h.outstanding]

/-- Loops that agree on the fields of a view. -/
theorem view_eq {v : SessionView} (hsession : l.state.session id = v.session)
    (hknown : id < l.state.created ↔ v.known)
    (hlisted : id ∈ l.state.sessions ↔ v.listed)
    (hinFlight : ∀ q, inFlight id q l = v.inFlight q) (hqueued : queued id l = v.queued)
    (hwritten : written id l = v.written) : view id l = v := by
  ext1
  · exact hsession
  · exact propext hknown
  · exact propext hlisted
  · exact funext hinFlight
  · exact hqueued
  · exact hwritten

variable {id l} in
theorem inFlight_of_view {v : SessionView} (h : view id l = v) (q : SessionOp → Bool) :
    inFlight id q l = v.inFlight q := congrFun (congrArg SessionView.inFlight h) q

theorem view_start (op : SessionOp) :
    view id (l.start (.session id op)) = (view id l).start op := by
  refine view_eq id _ rfl Iff.rfl Iff.rfl (fun q => ?_) ?_ ?_
  · simp [view, inFlight, ServerOp.of]
  · simp [view, queued, queuedFor]
  · cases op <;> simp [view, written, writtenTo]

theorem view_start_ne {op : ServerOp} (hop : ∀ o, op ≠ .session id o) :
    view id (l.start op) = view id l := by
  refine view_eq id _ rfl Iff.rfl Iff.rfl (fun q => ?_) ?_ ?_
  · cases op <;> simp_all [view, inFlight, ServerOp.of]
  · simp [view, queued, queuedFor]
  · cases op <;> simp_all [view, written, writtenTo]

/-- Only the state changes. -/
theorem view_update (g : DashboardServer → DashboardServer) :
    view id (l.update g) =
      { view id l with
        session := (g l.state).session id
        known := id < (g l.state).created
        listed := id ∈ (g l.state).sessions } := rfl

theorem view_update_session (s : DashboardSession) :
    view id (l.update fun c => { c with session := Function.update c.session id s }) =
      { view id l with session := s } := by
  rw [view_update]
  simp [view]

/-- A member function of the session acts on its view. -/
theorem view_onSession (f : DashboardSession → DashboardSession.Acted) :
    view id (onSession l id f) = (view id l).act f := by
  unfold onSession SessionView.act SessionView.acted
  rw [← List.foldl_hom (view id) (fun l op => (view_start id l op).symm), view_update_session]
  rfl

theorem view_onSession_ne {i : Nat} (hi : i ≠ id)
    (f : DashboardSession → DashboardSession.Acted) :
    view id (onSession l i f) = view id l := by
  have hstarts : ∀ (ops : List SessionOp) (l : ServerLoop),
      view id (ops.foldl (fun l op => l.start (.session i op)) l) = view id l := by
    intro ops
    induction ops with
    | nil => exact fun l => rfl
    | cons op ops ih =>
      intro l
      rw [List.foldl_cons, ih]
      exact view_start_ne id l (by simp [hi])
  unfold onSession
  rw [hstarts, view_update]
  simp [view, hi.symm]

theorem view_abort (p : ServerOp → Bool) : view id (l.abort p) = view id l :=
  view_congr id l ⟨rfl, rfl, fun q => EventLoop.outstanding_abort l q p⟩

theorem view_armTimer : view id (armTimer l) = view id l := by
  unfold armTimer
  rw [view_start_ne id _ (by simp), view_abort]

theorem view_doAccept : view id (doAccept l) = view id l := view_start_ne id l (by simp)

theorem view_dropSession (hroster : l.state.sessions.Nodup) :
    view id (dropSession l id) = (view id l).drop := by
  rw [dropSession, view_update, view_update]
  simp [SessionView.drop, view, hroster.mem_erase_iff]

theorem view_dropSession_ne {i : Nat} (hi : i ≠ id) :
    view id (dropSession l i) = view id l := by
  rw [dropSession, view_update, view_update]
  simp [view, List.mem_erase_of_ne hi.symm]

theorem view_call {call : ServerCall} (hcall : queuedFor id (.call call) = none) :
    view id (l.call call) = view id l := by
  refine view_eq id _ rfl Iff.rfl Iff.rfl (fun q => rfl) ?_ ?_
  · simp [view, queued, hcall]
  · simp [view, written, writtenTo]

theorem view_send (frame : String) : view id (send frame l id) = (view id l).send frame := by
  unfold send SessionView.send
  rw [view_onSession, SessionView.act]
  split_ifs with hroom
  · have hroom' : decide ((l.state.session id).queue.length < DashboardSession.maxQueued) = true :=
      decide_eq_true hroom
    have hcall : view id (l.call (.send id frame true)) =
        { view id l with queued := queued id l ++ [frame] } := by
      refine view_eq id _ rfl Iff.rfl Iff.rfl (fun q => rfl) ?_ ?_
      · simp [queued, queuedFor]
      · simp [view, written, writtenTo]
    rw [hroom', hcall]
    rfl
  · have hroom' : decide ((l.state.session id).queue.length < DashboardSession.maxQueued) = false :=
      decide_eq_false hroom
    rw [hroom', view_call id l rfl]

theorem view_send_ne {i : Nat} (hi : i ≠ id) (frame : String) :
    view id (send frame l i) = view id l := by
  unfold send
  rw [view_onSession_ne id _ hi, view_call]
  cases decide ((l.state.session i).queue.length < DashboardSession.maxQueued) <;>
    simp [queuedFor, hi]

/-- A loop over the sessions reaches a listed one exactly once. -/
theorem view_foldl {act : ServerLoop → Nat → ServerLoop} (e : SessionView → SessionView)
    (hself : ∀ l, view id (act l id) = e (view id l))
    (hne : ∀ l i, i ≠ id → view id (act l i) = view id l) {ids : List Nat} (hids : ids.Nodup) :
    view id (ids.foldl act l) = if id ∈ ids then e (view id l) else view id l := by
  induction ids generalizing l with
  | nil => rfl
  | cons i ids ih =>
    obtain ⟨hi, hids⟩ := List.nodup_cons.1 hids
    rw [List.foldl_cons, ih _ hids]
    by_cases he : i = id
    · subst he
      simp [hi, hself]
    · simp [hne l i he, Ne.symm he]

theorem view_onTimer (hroster : l.state.sessions.Nodup) (frame : String) :
    view id (onTimer l frame) =
      if id ∈ l.state.sessions then (view id l).send frame else view id l := by
  have hcall : view id (l.call .snapshotFn) = view id l := view_call id l rfl
  have hloop := view_foldl id (l.call .snapshotFn) (·.send frame)
    (fun l => view_send id l frame) (fun l i hi => view_send_ne id l hi frame) hroster
  unfold onTimer
  dsimp only
  rw [view_armTimer]
  by_cases hempty : (l.call .snapshotFn).state.sessions.isEmpty = true
  · have hnil : l.state.sessions = [] := List.isEmpty_iff.1 hempty
    rw [if_pos hempty, hcall]
    simp [hnil]
  · rw [if_neg hempty]
    rw [hcall] at hloop
    exact hloop

theorem view_onAccept :
    view id (onAccept l) = if id = l.state.created then (view id l).create else view id l := by
  unfold onAccept
  dsimp only
  rw [view_doAccept]
  split_ifs with hid
  · rw [← hid, view_onSession, SessionView.create]
    congr 1
    rw [view_update, view_update]
    simp [view, hid]
  · have hknown : id < l.state.created + 1 ↔ id < l.state.created := by omega
    rw [view_onSession_ne id _ (Ne.symm hid), view_update, view_update]
    simp [view, hid, hknown]

theorem view_completed (hroster : l.state.sessions.Nodup) (op : SessionOp) (ec : Outcome)
    (frame : String) :
    view id (ServerLoop.completed (.session id op) ec frame l) = (view id l).completed op ec := by
  unfold ServerLoop.completed SessionView.completed
  cases op with
  | handshake | read =>
    dsimp only
    split_ifs
    · exact view_dropSession id l hroster
    · exact view_onSession id l _
  | write f =>
    dsimp only
    split_ifs
    · rw [view_dropSession id _ (by rwa [onSession_sessions]), view_onSession]
    · rw [view_onSession, view_onSession]
  | close => rfl

theorem view_completed_ne {i : Nat} (hi : i ≠ id) (op : SessionOp) (ec : Outcome)
    (frame : String) :
    view id (ServerLoop.completed (.session i op) ec frame l) = view id l := by
  unfold ServerLoop.completed
  cases op with
  | handshake | read =>
    dsimp only
    split_ifs
    · exact view_dropSession_ne id l hi
    · exact view_onSession_ne id l hi _
  | write f =>
    dsimp only
    split_ifs
    · rw [view_dropSession_ne id _ hi, view_onSession_ne id _ hi]
    · rw [view_onSession_ne id _ hi, view_onSession_ne id _ hi]
  | close => rfl

theorem view_job_stop (hroster : l.state.sessions.Nodup) :
    view id (job .stop l) =
      (if id ∈ l.state.sessions then (view id l).act DashboardSession.close
        else view id l).drop := by
  have hclear : ∀ l : ServerLoop,
      view id (l.update fun c => { c with sessions := [], clients := 0 }) = (view id l).drop := by
    intro l
    rw [view_update]
    simp [view, SessionView.drop]
  have hstopping : view id (l.update fun c => { c with stopping := true }) = view id l := rfl
  unfold job
  simp only [hclear, EventLoop.abort_state, EventLoop.update_state]
  rw [view_foldl id _ (·.act DashboardSession.close)
    (fun l => view_onSession id l DashboardSession.close)
    (fun l i hi => view_onSession_ne id l hi DashboardSession.close) hroster, view_abort,
    view_abort, hstopping]

theorem view_handling {op : SessionOp} {ec : Outcome} (hmem : (.session id op, ec) ∈ l.ready) :
    view id l = (view id (l.handling (.session id op) ec)).owing op := by
  have hcount := fun q => EventLoop.outstanding_handling (ServerOp.of id q) hmem
  refine view_eq id _ rfl Iff.rfl Iff.rfl (fun q => ?_) rfl rfl
  simp [view, inFlight, hcount, ServerOp.of]

theorem view_handling_ne {op : ServerOp} {ec : Outcome} (hmem : (op, ec) ∈ l.ready)
    (hop : ∀ o, op ≠ .session id o) : view id (l.handling op ec) = view id l := by
  have hcount := fun q => EventLoop.outstanding_handling (ServerOp.of id q) hmem
  have hother : ∀ q, ServerOp.of id q op = false := by
    intro q
    cases op <;> simp_all [ServerOp.of]
  refine view_eq id _ rfl Iff.rfl Iff.rfl (fun q => ?_) rfl rfl
  simp [view, inFlight, hcount, hother]

end View

end ServerLoop

end LockfreeMatching
