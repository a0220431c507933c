import LockfreeMatching.Server.SessionView
import Mathlib.Data.List.Induction

/-!
# Serialization of one session

The invariant of a session is kept by every event of its view, and so by every step of the
server. It bounds the writes in flight and the queue and orders the frames in every run. The
closes in flight are bounded only as long as no session is closed twice.

## Main results

* `run_serial_iff`: along a run a session has at most one write and one close in flight, keeps
  its queue within bounds and writes its frames in the order they were queued exactly if no
  tick and no stop closes it while an earlier close is still in flight.
-/
namespace LockfreeMatching

open Lib

/-! ## The invariant of a session -/

namespace DashboardSession

variable {s : DashboardSession} {frame : String}

theorem send_full (hfull : ¬ s.queue.length < maxQueued) : s.send frame = s.close :=
  if_pos (Nat.not_lt.1 hfull)

/-- With nothing in flight the frame is written at once. -/
theorem send_idle (hroom : s.queue.length < maxQueued) (hgo : (s.ready && !s.writing) = true) :
    s.send frame = ({ s with queue := s.queue ++ [frame] } : DashboardSession).doWrite := by
  rw [send, if_neg (Nat.not_le.2 hroom)]
  exact if_pos hgo

theorem send_busy (hroom : s.queue.length < maxQueued)
    (hgo : ¬ (s.ready && !s.writing) = true) :
    s.send frame = ({ s with queue := s.queue ++ [frame] }, []) := by
  rw [send, if_neg (Nat.not_le.2 hroom)]
  exact if_neg hgo

end DashboardSession

/-- Every write in flight is the one announced by `writing`, and it is the front of the queue.
Before the handshake has succeeded nothing is written or read. Of the frames that were queued,
those not yet written are still in the queue, unless a write failed: then the session is not
listed any more and nothing starts another write. -/
structure SessionInv (v : SessionView) : Prop where
  known : v.listed → v.known
  fresh : ¬ v.known → v.session.ready = false ∧ v.inFlight SessionOp.isHandshake = 0
  handshake : v.inFlight SessionOp.isHandshake ≤ 1
  accepted : v.session.ready = true → v.inFlight SessionOp.isHandshake = 0
  waiting : v.session.ready = false →
    v.session.writing = false ∧ v.inFlight SessionOp.isRead = 0
  writes : v.inFlight SessionOp.isWrite = v.session.writing.toNat
  bound : v.session.queue.length ≤ DashboardSession.maxQueued
  order : v.written <+: v.queued
  front : v.session.writing = true → ∃ done frame rest,
    v.session.queue = frame :: rest ∧ v.written = done ++ [frame] ∧
      v.queued = done ++ v.session.queue
  idle : v.session.writing = false → (v.listed ∨ v.session.ready = false) →
    v.queued = v.written ++ v.session.queue

namespace SessionInv

open SessionOp DashboardSession

variable {v : SessionView}

theorem drop (h : SessionInv v) : SessionInv v.drop :=
  { h with
    known := False.elim
    idle := fun hw hor => h.idle hw (.inr (hor.resolve_left id)) }

/-- The handler of an operation other than a write runs. -/
theorem settle {op : SessionOp} (h : SessionInv (v.owing op)) (hop : op.isWrite = false) :
    SessionInv v where
  known := h.known
  fresh hk := ⟨(h.fresh hk).1, Nat.eq_zero_of_add_eq_zero_right (h.fresh hk).2⟩
  handshake := Nat.le_trans (Nat.le_add_right _ _) h.handshake
  accepted hr := Nat.eq_zero_of_add_eq_zero_right (h.accepted hr)
  waiting hr := ⟨(h.waiting hr).1, Nat.eq_zero_of_add_eq_zero_right (h.waiting hr).2⟩
  writes := by
    have hwrites : v.inFlight isWrite + (if op.isWrite then 1 else 0) = v.session.writing.toNat :=
      h.writes
    rwa [hop] at hwrites
  bound := h.bound
  order := h.order
  front := h.front
  idle := h.idle

theorem start_close (h : SessionInv v) : SessionInv (v.start .close) where
  known := h.known
  fresh := by simpa using h.fresh
  handshake := by simpa using h.handshake
  accepted := by simpa using h.accepted
  waiting := by simpa using h.waiting
  writes := by simpa using h.writes
  bound := h.bound
  order := by simpa using h.order
  front := by simpa using h.front
  idle := by simpa using h.idle

theorem close (h : SessionInv v) : SessionInv (v.act DashboardSession.close) := by
  unfold SessionView.act SessionView.acted DashboardSession.close
  cases v.session.isOpen with
  | true => exact h.start_close
  | false => exact h

theorem shut (h : SessionInv v) :
    SessionInv (v.act fun s => ({ s with isOpen := false }, [])) :=
  ⟨h.known, h.fresh, h.handshake, h.accepted, h.waiting, h.writes, h.bound, h.order, h.front,
    h.idle⟩

theorem read (h : SessionInv (v.owing .read)) : SessionInv (v.act doRead) := by
  have heq : v.act doRead = v.owing .read := by
    simp [SessionView.act, SessionView.acted, doRead, SessionView.start, SessionView.owing]
  rwa [heq]

theorem create (h : SessionInv v) (hk : ¬ v.known) : SessionInv v.create := by
  obtain ⟨hready, hhand⟩ := h.fresh hk
  refine ⟨fun _ => trivial, fun hn => absurd trivial hn, ?_, ?_, ?_, ?_, h.bound, ?_, ?_, ?_⟩
  all_goals
    simp only [SessionView.create, SessionView.act, SessionView.acted, DashboardSession.start,
      List.foldl_cons, List.foldl_nil]
  · simp [hhand]
  · simp [hready]
  · simpa using h.waiting
  · simpa using h.writes
  · simpa using h.order
  · simpa using h.front
  · simpa [hready] using h.idle

/-- A write may start when none is in flight and the queue holds what is left to write. -/
theorem doWrite (h : SessionInv v) (hready : v.session.ready = true)
    (hwriting : v.session.writing = false) (hqueue : v.session.queue ≠ [])
    (hrest : v.queued = v.written ++ v.session.queue) :
    SessionInv (v.act DashboardSession.doWrite) := by
  obtain ⟨frame, rest, hfront⟩ := List.exists_cons_of_ne_nil hqueue
  have hact : v.act DashboardSession.doWrite =
      ({ v with session := { v.session with writing := true } } : SessionView).start
        (.write frame) := by
    simp [SessionView.act, SessionView.acted, DashboardSession.doWrite, hfront]
  have hwrites := h.writes
  rw [hact]
  refine ⟨h.known, ?_, ?_, ?_, ?_, ?_, h.bound, ?_, ?_, ?_⟩
  · simpa using h.fresh
  · simpa using h.handshake
  · simpa using h.accepted
  · simp [hready]
  · simp [hwrites, hwriting]
  · exact ⟨rest, by simp [hrest, hfront]⟩
  · exact fun _ => ⟨v.written, frame, rest, hfront, by simp, hrest⟩
  · simp

theorem push (h : SessionInv v) (hlisted : v.listed)
    (hroom : v.session.queue.length < maxQueued) (frame : String) :
    SessionInv { v with
      session := { v.session with queue := v.session.queue ++ [frame] }
      queued := v.queued ++ [frame] } := by
  refine ⟨h.known, h.fresh, h.handshake, h.accepted, h.waiting, h.writes, ?_, ?_, ?_, ?_⟩
  · rw [List.length_append]
    exact hroom
  · exact h.order.trans (List.prefix_append _ _)
  · intro hwriting
    obtain ⟨done, front, rest, hfront, hwritten, hqueued⟩ := h.front hwriting
    exact ⟨done, front, rest ++ [frame], by simp [hfront], hwritten, by simp [hqueued]⟩
  · intro hwriting _
    simp [h.idle hwriting (.inl hlisted)]

theorem send (h : SessionInv v) (hlisted : v.listed) (frame : String) :
    SessionInv (v.send frame) := by
  unfold SessionView.send
  by_cases hroom : v.session.queue.length < maxQueued
  · have hpush := h.push hlisted hroom frame
    rw [if_pos hroom]
    by_cases hgo : (v.session.ready && !v.session.writing) = true
    · obtain ⟨hready, hwriting⟩ : v.session.ready = true ∧ v.session.writing = false := by
        simpa using hgo
      rw [send_idle hroom hgo]
      exact hpush.doWrite hready hwriting (by simp) (hpush.idle hwriting (.inl hlisted))
    · rw [send_busy hroom hgo]
      exact hpush
  · rw [if_neg hroom, send_full hroom]
    exact h.close

theorem onAccepted (h : SessionInv (v.owing .handshake)) :
    SessionInv (v.act DashboardSession.onAccepted) := by
  have hhand : v.inFlight isHandshake = 0 := by simpa using h.handshake
  have hready : v.session.ready = false := by
    cases hr : v.session.ready with
    | false => rfl
    | true => simpa using h.accepted hr
  have hv := h.settle rfl
  obtain ⟨hwriting, -⟩ := hv.waiting hready
  have hrest := hv.idle hwriting (.inr hready)
  -- the session once it reads, before it writes
  have hreads : SessionInv
      (({ v with session := { v.session with isOpen := true, ready := true } } : SessionView).start
        .read) := by
    refine ⟨hv.known, fun hk => ?_, ?_, ?_, ?_, ?_, hv.bound, ?_, ?_, ?_⟩
    · simpa using (h.fresh hk).2
    · simp [hhand]
    · simp [hhand]
    · simp
    · simpa using hv.writes
    · simpa using hv.order
    · simp [hwriting]
    · simp [hrest]
  unfold SessionView.act DashboardSession.onAccepted
  cases hqueue : v.session.queue with
  | nil => simpa [SessionView.acted, doRead, hqueue] using hreads
  | cons frame rest =>
    have hwrite := hreads.doWrite rfl hwriting (by simp [hqueue]) (by simp [hrest])
    simpa [SessionView.act, SessionView.acted, doRead, DashboardSession.doWrite, hqueue,
      SessionView.start, SessionView.owing] using hwrite

section Write

variable {f : String}

theorem writing_of_owing (h : SessionInv (v.owing (.write f))) :
    v.session.writing = true ∧ v.session.ready = true ∧ v.inFlight isWrite = 0 := by
  have hwrites : v.inFlight isWrite + 1 = v.session.writing.toNat := h.writes
  have hwriting : v.session.writing = true := by
    cases hw : v.session.writing with
    | true => rfl
    | false => simp [hw] at hwrites
  refine ⟨hwriting, ?_, by simpa [hwriting] using hwrites⟩
  cases hr : v.session.ready with
  | true => rfl
  | false => exact absurd (hwriting.symm.trans (h.waiting hr).1) (by simp)

/-- After a failed write the front of the queue stays, and the session is dropped. -/
theorem writeFailed (h : SessionInv (v.owing (.write f))) :
    SessionInv (v.act fun s => ({ s with writing := false }, [])).drop := by
  obtain ⟨-, hready, hnone⟩ := h.writing_of_owing
  refine ⟨False.elim, h.fresh, h.handshake, h.accepted, fun hr => ?_, ?_, h.bound, h.order,
    nofun, fun _ hor => ?_⟩
  · exact absurd hready (by simp [show v.session.ready = false from hr])
  · exact hnone
  · exact absurd hready (by simp [show v.session.ready = false from hor.resolve_left id])

theorem onWritten (h : SessionInv (v.owing (.write f))) :
    SessionInv ((v.act fun s => ({ s with writing := false }, [])).act
      DashboardSession.onWritten) := by
  obtain ⟨hwriting, hready, hnone⟩ := h.writing_of_owing
  obtain ⟨done, frame, rest, hqueue, hwritten, hqueued⟩ := h.front hwriting
  have hrest : v.queued = v.written ++ rest := by
    rw [show v.queued = done ++ v.session.queue from hqueued,
      show v.session.queue = frame :: rest from hqueue,
      show v.written = done ++ [frame] from hwritten]
    simp
  -- the session once the frame has left the queue, before the next write
  have hpop : SessionInv { v with
      session := { v.session with writing := false, queue := v.session.queue.tail } } := by
    refine ⟨h.known, h.fresh, h.handshake, h.accepted, fun hr => ?_, hnone, ?_, h.order, nofun,
      fun _ _ => ?_⟩
    · exact absurd hready (by simp [show v.session.ready = false from hr])
    · have hbound : v.session.queue.length ≤ maxQueued := h.bound
      simp only [List.length_tail]
      omega
    · simp [hrest, show v.session.queue = frame :: rest from hqueue]
  have htail : v.session.queue.tail = rest := by
    rw [show v.session.queue = frame :: rest from hqueue, List.tail_cons]
  unfold SessionView.act DashboardSession.onWritten
  cases hnext : rest with
  | nil => simpa [SessionView.acted, htail, hnext] using hpop
  | cons next rest' =>
    have hwrite := hpop.doWrite hready rfl (by simp [htail, hnext]) (by simp [hrest, htail])
    simpa [SessionView.act, SessionView.acted, DashboardSession.doWrite, htail, hnext]
      using hwrite

end Write

theorem completed {op : SessionOp} (h : SessionInv (v.owing op)) (ec : Outcome) :
    SessionInv (v.completed op ec) := by
  unfold SessionView.completed
  cases op with
  | handshake =>
    dsimp only
    split_ifs
    · exact (h.settle rfl).drop
    · exact h.onAccepted
  | read =>
    dsimp only
    split_ifs
    · exact (h.settle rfl).drop
    · exact h.read
  | write f =>
    dsimp only
    split_ifs
    · exact h.writeFailed
    · exact h.onWritten
  | close => exact h.settle rfl

end SessionInv

namespace ServerLoop

/-! ## Runs -/

/-- No session is listed twice, and every session keeps its invariant. -/
structure Inv (l : ServerLoop) : Prop where
  roster : l.state.sessions.Nodup
  session : ∀ id, SessionInv (view id l)

theorem view_started (id : Nat) :
    view id started =
      { session := {}
        known := False
        listed := False
        inFlight := fun _ => 0
        queued := []
        written := [] } := by
  rw [started, view_armTimer, view_doAccept]
  apply view_eq <;> intros <;> simp [inFlight, EventLoop.outstanding, queued, written]

theorem inv_started : Inv started where
  roster := List.nodup_nil
  session id := by
    rw [view_started]
    constructor <;> simp

theorem Inv.created_not_mem {l : ServerLoop} (h : Inv l) : l.state.created ∉ l.state.sessions := by
  intro hmem
  exact Nat.lt_irrefl _ ((h.session l.state.created).known hmem)

section Step

variable {l : ServerLoop}

/-- A handler of the acceptor or the timer starts from the views of the loop. -/
theorem Inv.handling {op : ServerOp} {ec : Outcome} (h : Inv l) (hmem : (op, ec) ∈ l.ready)
    (hop : ∀ id o, op ≠ .session id o) : Inv (l.handling op ec) where
  roster := h.roster
  session id := by
    rw [view_handling_ne id l hmem (hop id)]
    exact h.session id

theorem Inv.accept {ec : Outcome} (h : Inv l) (hmem : (.accept, ec) ∈ l.ready) (frame : String) :
    Inv (completed .accept ec frame (l.handling .accept ec)) := by
  have hl := h.handling hmem (by simp)
  generalize l.handling .accept ec = l' at hl
  unfold completed
  dsimp only
  split_ifs
  · exact hl
  · refine ⟨?_, fun id => ?_⟩
    · rw [onAccept_sessions]
      exact List.nodup_append.2 ⟨hl.roster, by simp, by
        intro a ha b hb
        rintro rfl
        exact hl.created_not_mem (List.mem_singleton.1 hb ▸ ha)⟩
    · rw [view_onAccept]
      split_ifs with hid
      · exact (hl.session id).create (by simp [view, hid])
      · exact hl.session id

theorem Inv.timer {ec : Outcome} (h : Inv l) (hmem : (.timer, ec) ∈ l.ready) (frame : String) :
    Inv (completed .timer ec frame (l.handling .timer ec)) := by
  have hl := h.handling hmem (by simp)
  generalize l.handling .timer ec = l' at hl
  unfold completed
  dsimp only
  split_ifs
  · exact hl
  · refine ⟨?_, fun id => ?_⟩
    · rw [onTimer_sessions]
      exact hl.roster
    · rw [view_onTimer id l' hl.roster]
      split_ifs with hlisted
      · exact (hl.session id).send hlisted frame
      · exact hl.session id

theorem Inv.completed {op : SessionOp} {ec : Outcome} {i : Nat} (h : Inv l)
    (hmem : (.session i op, ec) ∈ l.ready) (frame : String) :
    Inv (ServerLoop.completed (.session i op) ec frame (l.handling (.session i op) ec)) := by
  have hroster : (l.handling (.session i op) ec).state.sessions.Nodup := h.roster
  refine ⟨completed_sessions_nodup hroster, fun id => ?_⟩
  by_cases hi : i = id
  · subst hi
    have howing := h.session i
    rw [view_handling i l hmem] at howing
    rw [view_completed i _ hroster]
    exact howing.completed ec
  · rw [view_completed_ne id _ hi, view_handling_ne id l hmem (by simp [hi])]
    exact h.session id

theorem Inv.job (h : Inv l) (j : ServerJob) : Inv (job j (l.dispatching j)) := by
  have hl : Inv (l.dispatching j) := ⟨h.roster, h.session⟩
  generalize l.dispatching j = l' at hl
  cases j with
  | stop =>
    refine ⟨List.nodup_nil, fun id => ?_⟩
    rw [view_job_stop id l' hl.roster]
    split_ifs
    · exact (hl.session id).close.drop
    · exact (hl.session id).drop
  | shut i =>
    refine ⟨?_, fun id => ?_⟩
    · rw [ServerLoop.job, onSession_sessions]
      exact hl.roster
    · rw [ServerLoop.job]
      by_cases hi : i = id
      · subst hi
        rw [view_onSession]
        exact (hl.session i).shut
      · rw [view_onSession_ne id l' hi]
        exact hl.session id

theorem Inv.step (h : Inv l) (m : ServerMove) : Inv (l.step handlers m) := by
  rcases EventLoop.step_cases l handlers m with
    hsame | ⟨op, ec, frame, rfl, hmem, hstep⟩ | ⟨j, rfl, hmem, hstep⟩ | ⟨rfl, hstep⟩
  · refine ⟨hsame.state ▸ h.roster, fun id => ?_⟩
    rw [view_congr id l hsame]
    exact h.session id
  · rw [hstep]
    cases op with
    | timer => exact h.timer hmem frame
    | accept => exact h.accept hmem frame
    | session i op => exact h.completed hmem frame
  · rw [hstep]
    exact h.job j
  · exact h

theorem inv_after (ms : List ServerMove) : Inv (after ms) :=
  EventLoop.run_induction (I := Inv) (fun _ m h => h.step m) inv_started ms

end Step

/-! ## Closes in flight -/

theorem inFlight_acted (v : SessionView) (a : DashboardSession.Acted) (q : SessionOp → Bool) :
    (v.acted a).inFlight q = v.inFlight q + a.2.countP q := by
  obtain ⟨s, ops⟩ := a
  unfold SessionView.acted
  generalize hw : ({ v with session := s } : SessionView) = w
  have hcount : v.inFlight q = w.inFlight q := by rw [← hw]
  rw [hcount]
  clear hw hcount
  induction ops generalizing w with
  | nil => rfl
  | cons op ops ih =>
    simp only [List.foldl_cons, ih, SessionView.start_inFlight, SessionView.owing_inFlight,
      List.countP_cons]
    omega

theorem onAccepted_closes (s : DashboardSession) :
    s.onAccepted.2.countP SessionOp.isClose = 0 := by
  unfold DashboardSession.onAccepted
  dsimp only [DashboardSession.doRead]
  split_ifs <;> simp [DashboardSession.doWrite]

theorem onWritten_closes (s : DashboardSession) :
    s.onWritten.2.countP SessionOp.isClose = 0 := by
  unfold DashboardSession.onWritten
  dsimp only
  split_ifs <;> simp [DashboardSession.doWrite]

theorem close_closes (s : DashboardSession) :
    s.close.2.countP SessionOp.isClose = s.isOpen.toNat := by
  unfold DashboardSession.close
  cases s.isOpen <;> simp

/-- `send` closes the stream exactly if the queue is full and the stream open. -/
theorem send_closes (s : DashboardSession) (frame : String) :
    (s.send frame).2.countP SessionOp.isClose =
      if DashboardSession.maxQueued ≤ s.queue.length then s.isOpen.toNat else 0 := by
  split_ifs with hfull
  · rw [DashboardSession.send_full (Nat.not_lt.2 hfull), close_closes]
  · have hroom : s.queue.length < DashboardSession.maxQueued := Nat.not_le.1 hfull
    by_cases hgo : (s.ready && !s.writing) = true
    · rw [DashboardSession.send_idle hroom hgo]
      simp [DashboardSession.doWrite]
    · rw [DashboardSession.send_busy hroom hgo]
      rfl

/-- The handlers of a session's operations start no close. -/
theorem closes_completed (v : SessionView) (op : SessionOp) (ec : Outcome) :
    (v.completed op ec).inFlight SessionOp.isClose = v.inFlight SessionOp.isClose := by
  unfold SessionView.completed
  cases op with
  | handshake =>
    dsimp only
    split_ifs
    · rfl
    · rw [SessionView.act, inFlight_acted, onAccepted_closes]
      rfl
  | read =>
    dsimp only
    split_ifs
    · rfl
    · rw [SessionView.act, inFlight_acted]
      rfl
  | write f =>
    dsimp only
    split_ifs
    · rfl
    · rw [SessionView.act, inFlight_acted, onWritten_closes]
      rfl
  | close => rfl

theorem closes_send (v : SessionView) (frame : String) :
    (v.send frame).inFlight SessionOp.isClose = v.inFlight SessionOp.isClose +
      if DashboardSession.maxQueued ≤ v.session.queue.length then v.session.isOpen.toNat
      else 0 := by
  unfold SessionView.send
  split_ifs with hroom hfull hfull
  · omega
  all_goals
    rw [inFlight_acted, send_closes]
    simp [hfull]

/-- A tick finds the session listed, its queue full and its stream open. -/
def Overflows (id : Nat) (c : DashboardServer) : Prop :=
  c.stopping = false ∧ id ∈ c.sessions ∧
    DashboardSession.maxQueued ≤ (c.session id).queue.length ∧ (c.session id).isOpen = true

/-- `stop()` finds the session listed and its stream open. -/
def StopsOpen (id : Nat) (c : DashboardServer) : Prop :=
  id ∈ c.sessions ∧ (c.session id).isOpen = true

/-- The step calls `async_close` on the stream of session `id`. -/
def ClosesSession (id : Nat) (l : ServerLoop) : ServerMove → Prop
  | .handle .timer .ok _ => (.timer, .ok) ∈ l.ready ∧ Overflows id l.state
  | .dispatch .stop => .stop ∈ l.posted ∧ StopsOpen id l.state
  | _ => False

section Closes

variable {l : ServerLoop} {id : Nat}

theorem closes_overflow (hroster : l.state.sessions.Nodup) (ho : Overflows id l.state)
    (frame : String) :
    inFlight id SessionOp.isClose (completed .timer .ok frame l) =
      inFlight id SessionOp.isClose l + 1 := by
  obtain ⟨hstopping, hlisted, hfull, hopen⟩ := ho
  have htick : view id (completed .timer .ok frame l) = (view id l).send frame := by
    simp [completed, hstopping, view_onTimer id l hroster, hlisted]
  rw [inFlight_of_view htick, closes_send]
  simp [view, hfull, hopen]

theorem closes_no_overflow (hroster : l.state.sessions.Nodup) {ec : Outcome}
    (ho : ec = .ok → ¬ Overflows id l.state) (frame : String) :
    inFlight id SessionOp.isClose (completed .timer ec frame l) =
      inFlight id SessionOp.isClose l := by
  unfold completed
  dsimp only
  split_ifs with hquit
  · rfl
  · obtain ⟨rfl, hstopping⟩ : ec = .ok ∧ l.state.stopping = false := by simpa using hquit
    have htick := view_onTimer id l hroster frame
    split_ifs at htick with hlisted
    · rw [inFlight_of_view htick, closes_send]
      split_ifs with hfull
      · have hopen : (l.state.session id).isOpen = false := by
          by_contra hopen
          exact ho rfl ⟨hstopping, hlisted, hfull, by simpa using hopen⟩
        simp [view, hopen]
      · rfl
    · exact inFlight_of_view htick _

theorem closes_accept (ec : Outcome) (frame : String) (l : ServerLoop) :
    inFlight id SessionOp.isClose (completed .accept ec frame l) =
      inFlight id SessionOp.isClose l := by
  unfold completed
  dsimp only
  split_ifs
  · rfl
  · have hview := view_onAccept id l
    split_ifs at hview with hid
    · have hcreate := inFlight_acted { view id l with known := True, listed := True }
        (l.state.session id).start SessionOp.isClose
      exact (inFlight_of_view hview _).trans hcreate
    · exact inFlight_of_view hview _

theorem closes_shut (i : Nat) (l : ServerLoop) :
    inFlight id SessionOp.isClose (job (.shut i) l) = inFlight id SessionOp.isClose l := by
  unfold job
  by_cases hi : i = id
  · subst hi
    exact inFlight_of_view (view_onSession i l _) _
  · exact inFlight_of_view (view_onSession_ne id l hi _) _

theorem closes_stop (hroster : l.state.sessions.Nodup) (hs : StopsOpen id l.state) :
    inFlight id SessionOp.isClose (job .stop l) = inFlight id SessionOp.isClose l + 1 := by
  obtain ⟨hlisted, hopen⟩ := hs
  have hstop := inFlight_of_view (view_job_stop id l hroster) SessionOp.isClose
  have hclose := inFlight_acted (view id l) (l.state.session id).close SessionOp.isClose
  rw [close_closes, hopen] at hclose
  rw [if_pos hlisted] at hstop
  exact hstop.trans hclose

theorem closes_no_stop (hroster : l.state.sessions.Nodup) (hs : ¬ StopsOpen id l.state) :
    inFlight id SessionOp.isClose (job .stop l) = inFlight id SessionOp.isClose l := by
  have hstop := inFlight_of_view (view_job_stop id l hroster) SessionOp.isClose
  split_ifs at hstop with hlisted
  · have hopen : (l.state.session id).isOpen = false := by
      by_contra hopen
      exact hs ⟨hlisted, by simpa using hopen⟩
    have hclose := inFlight_acted (view id l) (l.state.session id).close SessionOp.isClose
    rw [close_closes, hopen] at hclose
    exact hstop.trans hclose
  · exact hstop

theorem closes_of_closesSession (h : Inv l) {m : ServerMove} (hm : ClosesSession id l m) :
    inFlight id SessionOp.isClose (l.step handlers m) =
      inFlight id SessionOp.isClose l + 1 := by
  unfold ClosesSession at hm
  split at hm
  · obtain ⟨hmem, ho⟩ := hm
    have htick := closes_overflow (l := l.handling .timer .ok) h.roster ho
    rw [EventLoop.step, if_pos hmem]
    rw [inFlight_of_view (view_handling_ne id l hmem (by simp))] at htick
    exact htick _
  · obtain ⟨hmem, hs⟩ := hm
    rw [EventLoop.step, if_pos hmem]
    exact closes_stop (l := l.dispatching .stop) h.roster hs
  · cases hm

/-- No other step adds a close. -/
theorem closes_le (h : Inv l) {m : ServerMove} (hm : ¬ ClosesSession id l m) :
    inFlight id SessionOp.isClose (l.step handlers m) ≤ inFlight id SessionOp.isClose l := by
  rcases EventLoop.step_cases l handlers m with
    hsame | ⟨op, ec, frame, rfl, hmem, hstep⟩ | ⟨j, rfl, hmem, hstep⟩ | ⟨rfl, hstep⟩
  · exact Nat.le_of_eq (hsame.outstanding _)
  · rw [hstep]
    cases op with
    | timer =>
      have ho : ec = .ok → ¬ Overflows id (l.handling .timer ec).state := by
        intro hec ho
        subst hec
        exact hm ⟨hmem, ho⟩
      have htick := closes_no_overflow (l := l.handling .timer ec) h.roster ho frame
      exact Nat.le_of_eq (htick.trans
        (inFlight_of_view (view_handling_ne id l hmem (by simp)) _))
    | accept =>
      exact Nat.le_of_eq ((closes_accept ec frame _).trans
        (inFlight_of_view (view_handling_ne id l hmem (by simp)) _))
    | session i op =>
      by_cases hi : i = id
      · subst hi
        have hdone := inFlight_of_view
          (view_completed i (l.handling (.session i op) ec) h.roster op ec frame)
          SessionOp.isClose
        rw [closes_completed] at hdone
        apply Nat.le_trans (Nat.le_of_eq hdone)
        rw [inFlight_of_view (view_handling i l hmem)]
        exact Nat.le_add_right _ _
      · exact Nat.le_of_eq (inFlight_of_view ((view_completed_ne id _ hi op ec frame).trans
          (view_handling_ne id l hmem (by simp [hi]))) _)
  · rw [hstep]
    cases j with
    | stop =>
      exact Nat.le_of_eq (closes_no_stop (l := l.dispatching .stop) h.roster
        fun hs => hm ⟨hmem, hs⟩)
    | shut i => exact Nat.le_of_eq (closes_shut i _)
  · exact Nat.le_refl _

end Closes

/-! ## Serial sessions -/

/-- At most one write and one close are in flight, frames are written in the order in which
they were queued, and the queue keeps its bound. -/
structure Serial (id : Nat) (l : ServerLoop) : Prop where
  writes : inFlight id SessionOp.isWrite l ≤ 1
  order : written id l <+: queued id l
  bound : (l.state.session id).queue.length ≤ DashboardSession.maxQueued
  closes : inFlight id SessionOp.isClose l ≤ 1

/-- The step does not close a session that has a close in flight. -/
def Timely (id : Nat) (l : ServerLoop) (m : ServerMove) : Prop :=
  ClosesSession id l m → inFlight id SessionOp.isClose l = 0

theorem Inv.serial {l : ServerLoop} (h : Inv l) {id : Nat}
    (hcloses : inFlight id SessionOp.isClose l ≤ 1) : Serial id l where
  writes := by
    have hwrites : inFlight id SessionOp.isWrite l = (l.state.session id).writing.toNat :=
      (h.session id).writes
    rw [hwrites]
    exact Bool.toNat_le _
  order := (h.session id).order
  bound := (h.session id).bound
  closes := hcloses

theorem after_concat (ms : List ServerMove) (m : ServerMove) :
    after (ms ++ [m]) = (after ms).step handlers m :=
  EventLoop.run_append handlers started ms [m]

theorem closes_after {ms : List ServerMove} {id : Nat}
    (htimely : ∀ before m, before ++ [m] <+: ms → Timely id (after before) m) :
    inFlight id SessionOp.isClose (after ms) ≤ 1 := by
  induction ms using List.reverseRecOn with
  | nil =>
    have hnone := inFlight_of_view (view_started id) SessionOp.isClose
    exact Nat.le_trans (Nat.le_of_eq hnone) (Nat.zero_le 1)
  | append_singleton ms m ih =>
    have hbefore := ih fun before m' hpre => htimely before m' (hpre.trans (List.prefix_append _ _))
    rw [after_concat]
    by_cases hm : ClosesSession id (after ms) m
    · have hnone := htimely ms m (List.prefix_refl _) hm
      rw [closes_of_closesSession (inv_after ms) hm]
      omega
    · exact Nat.le_trans (closes_le (inv_after ms) hm) hbefore

/-- A session is serial in every state of a run exactly if every step of the run is timely. -/
theorem run_serial_iff (ms : List ServerMove) (id : Nat) :
    (∀ before, before <+: ms → Serial id (after before)) ↔
      ∀ before m, before ++ [m] <+: ms → Timely id (after before) m := by
  constructor
  · intro hserial before m hpre hm
    have hcloses := (hserial _ hpre).closes
    rw [after_concat, closes_of_closesSession (inv_after before) hm] at hcloses
    omega
  · intro htimely before hpre
    exact (inv_after before).serial
      (closes_after fun before' m hpre' => htimely before' m (hpre'.trans hpre))

/-- A browser connects, its first frame never gets through, and the timer ticks on. -/
def stalledClient (ticks : Nat) : List ServerMove :=
  [.complete .accept true, .handle .accept .ok "", .complete (.session 0 .handshake) true,
    .handle (.session 0 .handshake) .ok ""] ++
  (List.replicate ticks [.complete .timer true, .handle .timer .ok "frame"]).flatten

/-- The queue is full after 64 ticks. The next two close the stream twice. -/
theorem stalledClient_closes_twice :
    inFlight 0 SessionOp.isClose (after (stalledClient 65)) = 1 ∧
    inFlight 0 SessionOp.isWrite (after (stalledClient 66)) = 1 ∧
    inFlight 0 SessionOp.isClose (after (stalledClient 66)) = 2 ∧
    ¬ Serial 0 (after (stalledClient 66)) := by
  have hcloses : inFlight 0 SessionOp.isClose (after (stalledClient 66)) = 2 := by
    decide +kernel
  refine ⟨by decide +kernel, by decide +kernel, hcloses, fun h => ?_⟩
  have hone := h.closes
  omega

end ServerLoop

end LockfreeMatching
