import LockfreeMatching.Lib.Offers
import LockfreeMatching.Server.Shutdown

/-!
# Broadcast

Which frames reach which browser. At every tick the server makes one frame and offers it to the
sessions listed at that time; a session takes it if its queue has room. A frame in the queue of a
listed session is being written, or waits for the write under way or for the handshake.

## Main results

* `run_broadcast`: what a session was offered, what it queued and what it wrote in any run.
* `run_ticks_on`: the server goes on ticking and accepting until it is stopped.
-/
namespace LockfreeMatching

open Lib

namespace ServerLoop

/-- The frame made by a move, which is one for every tick. -/
def tick (l : ServerLoop) : ServerMove → Option String
  | .handle .timer .ok frame =>
    if (ServerOp.timer, Outcome.ok) ∈ l.ready ∧ l.state.stopping = false then some frame else none
  | _ => none

/-- The frame offered to a session, and whether its queue has room. -/
def offer (id : Nat) (l : ServerLoop) (m : ServerMove) : Option (String × Bool) :=
  (tick l m).bind fun frame =>
    if id ∈ l.state.sessions then
      some (frame, decide ((l.state.session id).queue.length < DashboardSession.maxQueued))
    else none

def ticks (ms : List ServerMove) : List String := started.trace handlers tick ms

def offers (id : Nat) (ms : List ServerMove) : List (String × Bool) :=
  started.trace handlers (offer id) ms

theorem ticks_concat (ms : List ServerMove) (m : ServerMove) :
    ticks (ms ++ [m]) = ticks ms ++ (tick (after ms) m).toList := EventLoop.trace_concat ..

theorem offers_concat (id : Nat) (ms : List ServerMove) (m : ServerMove) :
    offers id (ms ++ [m]) = offers id ms ++ (offer id (after ms) m).toList :=
  EventLoop.trace_concat ..

/-- A session is offered frames of the ticks, in their order. -/
theorem offers_sublist (id : Nat) (ms : List ServerMove) :
    ((offers id ms).map (·.1)).Sublist (ticks ms) := by
  induction ms using List.reverseRecOn with
  | nil => exact .refl _
  | append_singleton ms m ih =>
    rw [ticks_concat, offers_concat, List.map_append]
    refine ih.append ?_
    unfold offer
    cases tick (after ms) m with
    | none => simp
    | some frame => by_cases hid : id ∈ (after ms).state.sessions <;> simp [hid]

end ServerLoop

/-! ## Queues -/

namespace SessionView

variable (v : SessionView)

theorem acted_eq (a : DashboardSession.Acted) :
    (v.acted a).session = a.1 ∧ (v.acted a).listed = v.listed ∧ (v.acted a).queued = v.queued := by
  have hstarts : ∀ (ops : List SessionOp) (v : SessionView),
      (ops.foldl start v).session = v.session ∧ (ops.foldl start v).listed = v.listed ∧
        (ops.foldl start v).queued = v.queued := by
    intro ops
    induction ops with
    | nil => exact fun v => ⟨rfl, rfl, rfl⟩
    | cons op ops ih => exact fun v => ih (v.start op)
  exact hstarts a.2 _

@[simp] theorem act_session (f : DashboardSession → DashboardSession.Acted) :
    (v.act f).session = (f v.session).1 := (v.acted_eq _).1

@[simp] theorem act_listed (f : DashboardSession → DashboardSession.Acted) :
    (v.act f).listed = v.listed := (v.acted_eq _).2.1

@[simp] theorem act_queued (f : DashboardSession → DashboardSession.Acted) :
    (v.act f).queued = v.queued := (v.acted_eq _).2.2

theorem send_eq (frame : String) :
    (v.send frame).session = (v.session.send frame).1 ∧ (v.send frame).listed = v.listed ∧
      (v.send frame).queued = v.queued ++
        if v.session.queue.length < DashboardSession.maxQueued then [frame] else [] := by
  unfold send
  split_ifs with hroom <;> simp [acted_eq]

@[simp] theorem completed_queued (op : SessionOp) (ec : Outcome) :
    (v.completed op ec).queued = v.queued := by
  cases op <;> by_cases hec : ec = .ok <;> simp [completed, drop, hec]

/-- A listed session with nothing in flight has nothing to write. -/
def Flushed : Prop :=
  v.listed → v.session.ready = true → v.session.writing = false → v.session.queue = []

variable {v}

theorem Flushed.of_session {w : SessionView} (h : v.Flushed) (hlisted : w.listed → v.listed)
    (hready : w.session.ready = v.session.ready) (hwriting : w.session.writing = v.session.writing)
    (hqueue : w.session.queue = v.session.queue) : w.Flushed := by
  intro hw
  rw [hready, hwriting, hqueue]
  exact h (hlisted hw)

theorem Flushed.send (h : v.Flushed) (frame : String) : (v.send frame).Flushed := by
  obtain ⟨hsession, hlisted, -⟩ := v.send_eq frame
  by_cases hroom : v.session.queue.length < DashboardSession.maxQueued
  · intro _ hready hwriting
    rw [hsession] at hready hwriting ⊢
    by_cases hgo : (v.session.ready && !v.session.writing) = true
    · rw [DashboardSession.send_idle hroom hgo] at hwriting
      simp [DashboardSession.doWrite] at hwriting
    · rw [DashboardSession.send_busy hroom hgo] at hready hwriting
      simp_all
  · have hsame : (v.session.send frame).1 = v.session := by
      rw [DashboardSession.send_full hroom]
      rfl
    refine h.of_session (by simp [hlisted]) ?_ ?_ ?_ <;> rw [hsession, hsame]

theorem flushed_onAccepted (v : SessionView) : (v.act DashboardSession.onAccepted).Flushed := by
  intro _ _ hwriting
  by_cases hqueue : v.session.queue = [] <;>
    simp_all [DashboardSession.onAccepted, DashboardSession.doRead, DashboardSession.doWrite]

theorem flushed_onWritten (v : SessionView) : (v.act DashboardSession.onWritten).Flushed := by
  intro _ _ hwriting
  by_cases hqueue : v.session.queue.tail = [] <;>
    simp_all [DashboardSession.onWritten, DashboardSession.doWrite]

theorem flushed_drop (v : SessionView) : v.drop.Flushed := fun h => h.elim

theorem Flushed.completed (h : v.Flushed) (op : SessionOp) (ec : Outcome) :
    (v.completed op ec).Flushed := by
  cases op with
  | handshake =>
    by_cases hec : ec = .ok
    · simpa [SessionView.completed, hec] using v.flushed_onAccepted
    · simpa [SessionView.completed, hec] using v.flushed_drop
  | read =>
    by_cases hec : ec = .ok
    · simpa [SessionView.completed, hec] using
        h.of_session (w := v.act DashboardSession.doRead) (by simp)
          (by simp [DashboardSession.doRead]) (by simp [DashboardSession.doRead])
          (by simp [DashboardSession.doRead])
    · simpa [SessionView.completed, hec] using v.flushed_drop
  | write frame =>
    by_cases hec : ec = .ok
    · simpa [SessionView.completed, hec] using flushed_onWritten _
    · simpa [SessionView.completed, hec] using flushed_drop _
  | close => exact h

end SessionView

namespace ServerLoop

variable {l : ServerLoop} {id : Nat}

/-- What a tick does. -/
theorem tick_cases {m : ServerMove} {frame : String} (h : tick l m = some frame) :
    m = .handle .timer .ok frame ∧ (ServerOp.timer, Outcome.ok) ∈ l.ready ∧
      l.step handlers m = onTimer (l.handling .timer .ok) frame := by
  unfold tick at h
  split at h
  · split_ifs at h with hready
    obtain rfl := Option.some.inj h
    refine ⟨rfl, hready.1, ?_⟩
    rw [EventLoop.step, if_pos hready.1]
    exact if_neg (by simp [hready.2])
  · cases h

/-- The timer ends without a tick. -/
theorem completed_timer {ec : Outcome} {frame : String} (hmem : (.timer, ec) ∈ l.ready)
    (h : tick l (.handle .timer ec frame) = none) :
    completed .timer ec frame (l.handling .timer ec) = l.handling .timer ec := by
  refine if_pos ?_
  by_contra hcon
  simp only [ne_eq, Bool.or_eq_true, decide_eq_true_eq, not_or, not_not, Bool.not_eq_true] at hcon
  obtain ⟨rfl, hstopping⟩ := hcon
  have hgo : l.state.stopping = false := hstopping
  simp [tick, hmem, hgo] at h

theorem view_tick (id : Nat) (h : Inv l) {m : ServerMove} {frame : String}
    (hm : tick l m = some frame) :
    view id (l.step handlers m) =
      if id ∈ l.state.sessions then (view id l).send frame else view id l := by
  obtain ⟨rfl, hmem, hstep⟩ := tick_cases hm
  have hsend := view_onTimer id (l.handling .timer .ok) h.roster frame
  rw [view_handling_ne id l hmem (by simp)] at hsend
  rw [hstep]
  exact hsend

/-- No frame was queued for the session, and none is left behind. -/
structure Calm (id : Nat) (l l' : ServerLoop) : Prop where
  queued : queued id l' = queued id l
  flushed : (view id l').Flushed

section Calm

variable {l' : ServerLoop}

theorem Calm.of_view (h : (view id l).Flushed) (heq : view id l' = view id l) : Calm id l l' :=
  ⟨congrArg SessionView.queued heq, heq ▸ h⟩

theorem calm_accept (hinv : Inv l) (h : (view id l).Flushed) {ec : Outcome}
    (hmem : (.accept, ec) ∈ l.ready) (frame : String) :
    Calm id l (completed .accept ec frame (l.handling .accept ec)) := by
  have hview := view_handling_ne id l hmem (by simp)
  have hcreate := view_onAccept id (l.handling .accept ec)
  have hfresh := ((hinv.handling hmem (by simp)).session id).fresh
  simp only [completed]
  split_ifs with hec
  · exact .of_view h hview
  by_cases hid : id = (l.handling .accept ec).state.created
  · rw [if_pos hid, hview] at hcreate
    rw [hview] at hfresh
    have hready := (hfresh (by simp [view, EventLoop.handling] at hid ⊢; omega)).1
    refine ⟨(congrArg SessionView.queued hcreate).trans (SessionView.act_queued _ _), ?_⟩
    intro _ hready'
    rw [hcreate] at hready'
    simp [SessionView.create, DashboardSession.start, hready] at hready'
  · rw [if_neg hid] at hcreate
    exact .of_view h (hcreate.trans hview)

theorem calm_session (hinv : Inv l) (h : (view id l).Flushed) {i : Nat} {op : SessionOp}
    {ec : Outcome} (hmem : (.session i op, ec) ∈ l.ready) (frame : String) :
    Calm id l (completed (.session i op) ec frame (l.handling (.session i op) ec)) := by
  by_cases hi : i = id
  · subst hi
    have hsession := view_completed i (l.handling (.session i op) ec) hinv.roster op ec frame
    have hflushed : (view i (l.handling (.session i op) ec)).Flushed := h
    exact ⟨(congrArg SessionView.queued hsession).trans (SessionView.completed_queued _ _ _),
      hsession ▸ hflushed.completed op ec⟩
  · refine .of_view h ?_
    rw [view_completed_ne id _ hi, view_handling_ne id l hmem (by simp [hi])]

theorem calm_job (hinv : Inv l) (h : (view id l).Flushed) (j : ServerJob) :
    Calm id l (job j (l.dispatching j)) := by
  cases j with
  | stop =>
    have hstop := view_job_stop id (l.dispatching .stop) hinv.roster
    refine ⟨(congrArg SessionView.queued hstop).trans ?_, hstop ▸ SessionView.flushed_drop _⟩
    split_ifs
    · exact SessionView.act_queued _ _
    · rfl
  | shut i =>
    by_cases hi : i = id
    · subst hi
      have hshut := view_onSession i (l.dispatching (.shut i)) fun s =>
        ({ s with isOpen := false }, [])
      refine ⟨(congrArg SessionView.queued hshut).trans (SessionView.act_queued _ _), ?_⟩
      rw [job, hshut]
      exact SessionView.Flushed.of_session h (by simp; exact id) (by simp; rfl) (by simp; rfl)
        (by simp; rfl)
    · exact .of_view h (view_onSession_ne id (l.dispatching (.shut i)) hi _)

/-- Every move but a tick. -/
theorem calm_step (hinv : Inv l) (h : (view id l).Flushed) {m : ServerMove}
    (hm : tick l m = none) : Calm id l (l.step handlers m) := by
  rcases EventLoop.step_cases l handlers m with
    hsame | ⟨op, ec, frame, rfl, hmem, hstep⟩ | ⟨job, rfl, hmem, hstep⟩ | ⟨rfl, hstep⟩
  · exact .of_view h (view_congr id l hsame)
  · rw [hstep]
    cases op with
    | timer =>
      refine .of_view h ?_
      rw [← view_handling_ne id l hmem (by simp)]
      exact congrArg (view id) (completed_timer hmem hm)
    | accept => exact calm_accept hinv h hmem frame
    | session i op => exact calm_session hinv h hmem frame
  · rw [hstep]
    exact calm_job hinv h job
  · rw [hstep]
    exact .of_view h rfl

end Calm

theorem started_flushed (id : Nat) : (view id started).Flushed := by
  rw [view_started]
  exact fun h => h.elim

/-- What was queued is what there was room for. -/
theorem run_queued (ms : List ServerMove) (id : Nat) :
    queued id (after ms) = taken (offers id ms) ∧ (view id (after ms)).Flushed := by
  induction ms using List.reverseRecOn with
  | nil => exact ⟨congrArg SessionView.queued (view_started id), started_flushed id⟩
  | append_singleton ms m ih =>
    obtain ⟨hqueued, hflushed⟩ := ih
    have hinv := inv_after ms
    rw [after_concat, offers_concat, offer]
    cases htick : tick (after ms) m with
    | none =>
      obtain ⟨hcalm, hcalm'⟩ := calm_step hinv hflushed htick
      exact ⟨by simpa [hqueued] using hcalm, hcalm'⟩
    | some frame =>
      have hview := view_tick id hinv htick
      by_cases hid : id ∈ (after ms).state.sessions
      · rw [if_pos hid] at hview
        have hsent := (congrArg SessionView.queued hview).trans (SessionView.send_eq _ frame).2.2
        refine ⟨?_, hview ▸ hflushed.send frame⟩
        simpa [hid, hqueued, view] using hsent
      · rw [if_neg hid] at hview
        refine ⟨?_, hview ▸ hflushed⟩
        simpa [hid, hqueued, view] using congrArg SessionView.queued hview

/-- How often the snapshot function was called. -/
def snapshots (l : ServerLoop) : Nat := l.log.countP (· = .call .snapshotFn)

/-- Acceptor, timer and roster are left alone. -/
structure Aside (l l' : ServerLoop) : Prop where
  sessions : l'.state.sessions = l.state.sessions
  clients : l'.state.clients = l.state.clients
  stopping : l'.state.stopping = l.state.stopping
  snapshots : snapshots l' = snapshots l
  ready : l'.ready = l.ready
  waits : ∀ op, (∀ id o, op ≠ .session id o) →
    l'.outstanding (· = op) = l.outstanding (· = op)

theorem Aside.refl (l : ServerLoop) : Aside l l := ⟨rfl, rfl, rfl, rfl, rfl, fun _ _ => rfl⟩

theorem Aside.trans {l l' l'' : ServerLoop} (h : Aside l l') (h' : Aside l' l'') : Aside l l'' :=
  ⟨h'.sessions.trans h.sessions, h'.clients.trans h.clients, h'.stopping.trans h.stopping,
    h'.snapshots.trans h.snapshots, h'.ready.trans h.ready,
    fun op hop => (h'.waits op hop).trans (h.waits op hop)⟩

theorem aside_onSession (l : ServerLoop) (id : Nat)
    (f : DashboardSession → DashboardSession.Acted) : Aside l (onSession l id f) := by
  rw [onSession_eq]
  refine ⟨rfl, rfl, rfl, ?_, rfl, fun op hop => ?_⟩
  · simp [snapshots, List.countP_append, List.countP_map, Function.comp_def]
  · have hops : ∀ o, ¬ ServerOp.session id o = op := fun o => (hop id o).symm
    simp [EventLoop.outstanding, List.countP_append, List.countP_map, Function.comp_def, hops]

theorem aside_foldl {act : ServerLoop → Nat → ServerLoop} (hact : ∀ l id, Aside l (act l id))
    (ids : List Nat) (l : ServerLoop) : Aside l (ids.foldl act l) := by
  induction ids generalizing l with
  | nil => exact .refl l
  | cons id ids ih => exact (hact l id).trans (ih _)

theorem aside_send (frame : String) (l : ServerLoop) (id : Nat) : Aside l (send frame l id) := by
  have hcall : Aside l (l.call (.send id frame
      (decide ((l.state.session id).queue.length < DashboardSession.maxQueued)))) :=
    ⟨rfl, rfl, rfl, by simp [snapshots, EventLoop.call], rfl, fun _ _ => rfl⟩
  unfold send
  exact hcall.trans (aside_onSession _ id _)

/-- A tick, up to the timer. -/
theorem onTimer_eq (l : ServerLoop) (frame : String) :
    ∃ l', Aside (l.call .snapshotFn) l' ∧ onTimer l frame = armTimer l' := by
  unfold onTimer
  dsimp only
  split_ifs
  · exact ⟨_, .refl _, rfl⟩
  · exact ⟨_, aside_foldl (aside_send frame) _ _, rfl⟩

/-- The number of clients is right, and `n` snapshots were made. -/
structure Tallied (n : Nat) (l : ServerLoop) : Prop where
  clients : l.state.clients = l.state.sessions.length
  snapshots : snapshots l = n

namespace Tallied

variable {n : Nat}

theorem aside {l' : ServerLoop} (h : Tallied n l) (ha : Aside l l') : Tallied n l' :=
  ⟨by rw [ha.clients, ha.sessions, h.clients], ha.snapshots.trans h.snapshots⟩

theorem start (h : Tallied n l) (op : ServerOp) : Tallied n (l.start op) :=
  ⟨h.clients, by simpa [ServerLoop.snapshots] using h.snapshots⟩

theorem dropSession (h : Tallied n l) (id : Nat) : Tallied n (dropSession l id) :=
  ⟨rfl, h.snapshots⟩

theorem onAccept (h : Tallied n l) : Tallied n (onAccept l) := by
  have hnew : Tallied n (EventLoop.update (EventLoop.update l fun c => { c with
      created := c.created + 1
      sessions := c.sessions ++ [l.state.created] }) fun c => { c with
      clients := c.sessions.length }) := ⟨rfl, h.snapshots⟩
  exact (hnew.aside (aside_onSession _ l.state.created DashboardSession.start)).start .accept

theorem onTimer (h : Tallied n l) (frame : String) : Tallied (n + 1) (onTimer l frame) := by
  have hcall : Tallied (n + 1) (l.call .snapshotFn) :=
    ⟨h.clients, by simp [ServerLoop.snapshots, EventLoop.call, ← h.snapshots]⟩
  obtain ⟨l', haside, heq⟩ := onTimer_eq l frame
  rw [heq]
  have hl' := hcall.aside haside
  have habort : Tallied (n + 1) (l'.abort (· = .timer)) := ⟨hl'.clients, hl'.snapshots⟩
  exact habort.start .timer

theorem session (h : Tallied n l) (id : Nat) (op : SessionOp) (ec : Outcome) (frame : String) :
    Tallied n (completed (.session id op) ec frame l) := by
  cases op with
  | handshake | read =>
    simp only [completed]
    split_ifs
    exacts [h.dropSession id, h.aside (aside_onSession _ _ _)]
  | write f =>
    have hdone := h.aside (aside_onSession l id fun s => ({ s with writing := false }, []))
    simp only [completed]
    split_ifs
    exacts [hdone.dropSession id, hdone.aside (aside_onSession _ _ _)]
  | close => exact h

theorem job (h : Tallied n l) (j : ServerJob) : Tallied n (job j l) := by
  cases j with
  | stop =>
    have hclose := aside_foldl (fun l id => aside_onSession l id DashboardSession.close)
      l.state.sessions (((l.update fun c => { c with stopping := true }).abort (· = .timer)).abort
        (· = .accept))
    exact ⟨rfl, hclose.snapshots.trans h.snapshots⟩
  | shut id =>
    unfold ServerLoop.job
    exact h.aside (aside_onSession _ _ _)

end Tallied

theorem run_tallied (ms : List ServerMove) : Tallied (ticks ms).length (after ms) := by
  induction ms using List.reverseRecOn with
  | nil => exact ⟨rfl, rfl⟩
  | append_singleton ms m ih =>
    rw [after_concat, ticks_concat]
    generalize after ms = l at ih
    cases htick : tick l m with
    | some frame =>
      have hl : Tallied (ticks ms).length (l.handling .timer .ok) := ⟨ih.clients, ih.snapshots⟩
      rw [(tick_cases htick).2.2]
      simpa using hl.onTimer frame
    | none =>
      simp only [Option.toList_none, List.append_nil]
      rcases EventLoop.step_cases l handlers m with
        hsame | ⟨op, ec, frame, rfl, hmem, hstep⟩ | ⟨job, rfl, hmem, hstep⟩ | ⟨rfl, hstep⟩
      · exact ⟨by rw [hsame.state, ih.clients], by rw [snapshots, hsame.log]; exact ih.snapshots⟩
      · have hl : Tallied (ticks ms).length (l.handling op ec) := ⟨ih.clients, ih.snapshots⟩
        rw [hstep]
        cases op with
        | timer =>
          have hquiet : handlers.completed .timer ec frame (l.handling .timer ec) = _ :=
            completed_timer hmem htick
          rwa [hquiet]
        | accept =>
          simp only [handlers, completed]
          split_ifs
          exacts [hl, hl.onAccept]
        | session id op => exact hl.session id op ec frame
      · have hl : Tallied (ticks ms).length (l.dispatching job) := ⟨ih.clients, ih.snapshots⟩
        rw [hstep]
        exact hl.job job
      · rw [hstep]
        exact ⟨ih.clients, ih.snapshots⟩

/-- Every session is offered the frame of every tick while it is listed, queues it if there is
room, and writes what it has queued in order, each frame once. Whenever it is connected and no
write is under way, all of it has been written. There is one snapshot for every tick, also while
nobody is connected, and the number of clients shown is that of the sessions listed. -/
theorem run_broadcast (ms : List ServerMove) (id : Nat) :
    ((offers id ms).map (·.1)).Sublist (ticks ms) ∧ queued id (after ms) = taken (offers id ms) ∧
      written id (after ms) <+: queued id (after ms) ∧
      (id ∈ (after ms).state.sessions → ((after ms).state.session id).ready = true →
        inFlight id SessionOp.isWrite (after ms) = 0 →
        written id (after ms) = taken (offers id ms)) ∧
      snapshots (after ms) = (ticks ms).length ∧
      (after ms).state.clients = (after ms).state.sessions.length := by
  have hinv := (inv_after ms).session id
  obtain ⟨hqueued, hflushed⟩ := run_queued ms id
  obtain ⟨hclients, hsnapshots⟩ := run_tallied ms
  refine ⟨offers_sublist id ms, hqueued, hinv.order, fun hlisted hready hwrite => ?_, hsnapshots,
    hclients⟩
  have hwriting : ((after ms).state.session id).writing = false := by
    have hwrites : inFlight id SessionOp.isWrite (after ms) =
        ((after ms).state.session id).writing.toNat := hinv.writes
    rw [hwrite] at hwrites
    simpa using hwrites.symm
  have hempty : (view id (after ms)).session.queue = [] := hflushed hlisted hready hwriting
  have hidle := hinv.idle hwriting (.inl hlisted)
  rw [hempty, List.append_nil] at hidle
  exact hidle.symm.trans hqueued

/-! ## Ticking on -/

/-- One wait of the acceptor or the timer is outstanding, and it did not fail. -/
structure Waiting (op : ServerOp) (l : ServerLoop) : Prop where
  one : l.outstanding (· = op) = 1
  ok : ∀ ec, (op, ec) ∈ l.ready → ec = .ok

section Waiting

variable {op : ServerOp}

theorem Waiting.aside {l' : ServerLoop} (hop : ∀ id o, op ≠ .session id o) (h : Waiting op l)
    (ha : Aside l l') : Waiting op l' :=
  ⟨(ha.waits op hop).trans h.one, by rw [ha.ready]; exact h.ok⟩

/-- The handler of another operation runs. -/
theorem Waiting.handling (h : Waiting op l) {op' : ServerOp} {ec : Outcome}
    (hmem : (op', ec) ∈ l.ready) (hne : op' ≠ op) : Waiting op (l.handling op' ec) := by
  have hcount := EventLoop.outstanding_handling (fun o => decide (o = op)) hmem
  refine ⟨?_, fun ec' hec' => h.ok ec' (List.mem_of_mem_erase hec')⟩
  simpa [hne, h.one] using hcount.symm

/-- Its own handler runs: nothing is left, until it waits again. -/
theorem Waiting.handled (h : Waiting op l) {ec : Outcome} (hmem : (op, ec) ∈ l.ready) :
    ec = .ok ∧ (l.handling op ec).outstanding (· = op) = 0 := by
  have hcount := EventLoop.outstanding_handling (fun o => decide (o = op)) hmem
  refine ⟨h.ok ec hmem, ?_⟩
  have hone := h.one
  simp only [decide_true, if_true] at hcount
  omega

theorem waiting_start (h : l.outstanding (· = op) = 0) : Waiting op (l.start op) := by
  refine ⟨by simp [h], fun ec hec => ?_⟩
  have hpos := EventLoop.outstanding_pos_of_ready (fun o => decide (o = op))
    (show (op, ec) ∈ l.ready from hec) (by simp)
  omega

theorem Waiting.start_ne (h : Waiting op l) {op' : ServerOp} (hne : op' ≠ op) :
    Waiting op (l.start op') :=
  ⟨by simp [h.one, hne], h.ok⟩

theorem Waiting.abort_ne (h : Waiting op l) {op' : ServerOp} (hne : op' ≠ op) :
    Waiting op (l.abort (· = op')) := by
  refine ⟨by simp [h.one], fun ec hec => ?_⟩
  rcases List.mem_append.1 hec with hec | hec
  · exact h.ok ec hec
  · simp only [List.mem_map, List.mem_filter, decide_eq_true_eq, Prod.mk.injEq] at hec
    obtain ⟨o, ⟨-, rfl⟩, rfl, -⟩ := hec
    exact absurd rfl hne

theorem Waiting.complete (h : Waiting op l) (op' : ServerOp) (success : Bool)
    (hok : op' = op → success = true) : Waiting op (l.step handlers (.complete op' success)) := by
  refine ⟨(EventLoop.outstanding_complete l _ handlers op' success).trans h.one, fun ec hec => ?_⟩
  by_cases hmem : op' ∈ l.pending
  · rw [EventLoop.step, if_pos hmem] at hec
    rcases List.mem_append.1 hec with hec | hec
    · exact h.ok ec hec
    · simp only [List.mem_singleton, Prod.mk.injEq] at hec
      obtain ⟨rfl, rfl⟩ := hec
      simp [hok rfl]
  · rw [EventLoop.step, if_neg hmem] at hec
    exact h.ok ec hec

/-- A tick arms the timer again. -/
theorem waiting_onTimer (frame : String) :
    (l.outstanding (· = ServerOp.timer) = 0 → Waiting .timer (onTimer l frame)) ∧
      (Waiting .accept l → Waiting .accept (onTimer l frame)) := by
  obtain ⟨l', haside, heq⟩ := onTimer_eq l frame
  rw [heq, armTimer]
  constructor
  · intro hnone
    apply waiting_start
    rw [EventLoop.outstanding_abort, haside.waits _ (by simp)]
    exact hnone
  · intro h
    have hcall : Waiting .accept (l.call .snapshotFn) := ⟨h.one, h.ok⟩
    exact ((hcall.aside (by simp) haside).abort_ne (by simp)).start_ne (by simp)

/-- A connection is followed by the next one. -/
theorem waiting_onAccept :
    (l.outstanding (· = ServerOp.accept) = 0 → Waiting .accept (onAccept l)) ∧
      (Waiting .timer l → Waiting .timer (onAccept l)) := by
  obtain ⟨l', heq, hpending, hready⟩ : ∃ l' : ServerLoop,
      onAccept l = doAccept (onSession l' l.state.created DashboardSession.start) ∧
        l'.pending = l.pending ∧ l'.ready = l.ready := ⟨_, rfl, rfl, rfl⟩
  have haside := aside_onSession l' l.state.created DashboardSession.start
  have hcount : l'.outstanding = l.outstanding := by
    funext q
    rw [EventLoop.outstanding, hpending, hready, EventLoop.outstanding]
  rw [heq, doAccept]
  constructor
  · intro hnone
    exact waiting_start ((haside.waits .accept (by simp)).trans (hcount ▸ hnone))
  · intro h
    have hl' : Waiting .timer l' := ⟨hcount ▸ h.one, hready ▸ h.ok⟩
    exact (hl'.aside (by simp) haside).start_ne (by simp)

theorem Waiting.session (hop : ∀ id o, op ≠ .session id o) (h : Waiting op l) (id : Nat)
    (o : SessionOp) (ec : Outcome) (frame : String) :
    Waiting op (completed (.session id o) ec frame l) := by
  have hdrop : ∀ l, Waiting op l → Waiting op (dropSession l id) := fun _ h => ⟨h.one, h.ok⟩
  cases o with
  | handshake | read =>
    simp only [completed]
    split_ifs
    exacts [hdrop l h, h.aside hop (aside_onSession _ _ _)]
  | write f =>
    have hdone := h.aside hop (aside_onSession l id fun s => ({ s with writing := false }, []))
    simp only [completed]
    split_ifs
    exacts [hdrop _ hdone, hdone.aside hop (aside_onSession _ _ _)]
  | close => exact h

end Waiting

/-- Only `stop` sets the flag, and nothing resets it. -/
theorem completed_stopping (op : ServerOp) (ec : Outcome) (frame : String) (l : ServerLoop) :
    (completed op ec frame l).state.stopping = l.state.stopping := by
  have hsession : ∀ (l : ServerLoop) id f, (onSession l id f).state.stopping = l.state.stopping :=
    fun l id f => (aside_onSession l id f).stopping
  cases op with
  | timer =>
    simp only [completed]
    split_ifs
    · rfl
    · obtain ⟨l', haside, heq⟩ := onTimer_eq l frame
      rw [heq]
      exact haside.stopping
  | accept =>
    simp only [completed]
    split_ifs
    exacts [rfl, hsession _ _ _]
  | session id o =>
    cases o with
    | handshake | read =>
      simp only [completed]
      split_ifs
      exacts [rfl, hsession _ _ _]
    | write f =>
      simp only [completed]
      split_ifs
      exacts [hsession _ _ _, (hsession _ _ _).trans (hsession _ _ _)]
    | close => rfl

/-- The timer and the acceptor are waiting, as long as the server is not stopped. -/
def Serving (l : ServerLoop) : Prop :=
  l.state.stopping = false → Waiting .timer l ∧ Waiting .accept l

theorem Serving.completed (h : Serving l) {op : ServerOp} {ec : Outcome}
    (hmem : (op, ec) ∈ l.ready) (frame : String) :
    Serving (completed op ec frame (l.handling op ec)) := by
  intro hstopping
  rw [completed_stopping] at hstopping
  have hgo : l.state.stopping = false := hstopping
  obtain ⟨htimer, haccept⟩ := h hgo
  cases op with
  | timer =>
    obtain ⟨rfl, hnone⟩ := htimer.handled hmem
    have haccept' := haccept.handling hmem (by simp)
    simp only [ServerLoop.completed, hstopping]
    exact ⟨(waiting_onTimer frame).1 hnone, (waiting_onTimer frame).2 haccept'⟩
  | accept =>
    obtain ⟨rfl, hnone⟩ := haccept.handled hmem
    have htimer' := htimer.handling hmem (by simp)
    simp only [ServerLoop.completed, hstopping]
    exact ⟨waiting_onAccept.2 htimer', waiting_onAccept.1 hnone⟩
  | session id o =>
    exact ⟨(htimer.handling hmem (by simp)).session (by simp) id o ec frame,
      (haccept.handling hmem (by simp)).session (by simp) id o ec frame⟩

theorem Serving.step (h : Serving l) {m : ServerMove} (htimer : m ≠ .complete .timer false)
    (haccept : m ≠ .complete .accept false) : Serving (l.step handlers m) := by
  cases m with
  | complete op success =>
    intro hstopping
    have hgo : l.state.stopping = false := by
      rw [EventLoop.step] at hstopping
      split_ifs at hstopping <;> exact hstopping
    obtain ⟨hwait, hwait'⟩ := h hgo
    refine ⟨hwait.complete op success fun hop => ?_, hwait'.complete op success fun hop => ?_⟩
    · by_contra hfail
      simp [hop, hfail] at htimer
    · by_contra hfail
      simp [hop, hfail] at haccept
  | handle op ec frame =>
    rw [EventLoop.step]
    split_ifs with hmem
    exacts [h.completed hmem frame, h]
  | post job => exact fun hgo => ⟨⟨(h hgo).1.one, (h hgo).1.ok⟩, ⟨(h hgo).2.one, (h hgo).2.ok⟩⟩
  | dispatch j =>
    rw [EventLoop.step]
    split_ifs with hmem
    · cases j with
      | stop =>
        intro hstopping
        have hstop := job_stop_stopping (l.dispatching .stop)
        rw [Stopping] at hstop
        exact absurd (hstop.symm.trans hstopping) (by simp)
      | shut id =>
        have haside := aside_onSession (l.dispatching (.shut id)) id fun s =>
          ({ s with isOpen := false }, [])
        intro hstopping
        have hgo := h (haside.stopping.symm.trans hstopping)
        have htimer' : Waiting .timer (l.dispatching (.shut id)) := ⟨hgo.1.one, hgo.1.ok⟩
        have haccept' : Waiting .accept (l.dispatching (.shut id)) := ⟨hgo.2.one, hgo.2.ok⟩
        exact ⟨htimer'.aside (by simp) haside, haccept'.aside (by simp) haside⟩
    · exact h
  | drift => exact fun hgo => ⟨⟨(h hgo).1.one, (h hgo).1.ok⟩, ⟨(h hgo).2.one, (h hgo).2.ok⟩⟩

theorem serving_started : Serving started := by
  refine fun _ => ⟨⟨by decide, ?_⟩, ⟨by decide, ?_⟩⟩ <;> simp [started, armTimer, doAccept,
    EventLoop.start, EventLoop.abort]

theorem run_serving {ms : List ServerMove} (htimer : .complete .timer false ∉ ms)
    (haccept : .complete .accept false ∉ ms) : Serving (after ms) := by
  induction ms using List.reverseRecOn with
  | nil => exact serving_started
  | append_singleton ms m ih =>
    simp only [List.mem_append, List.mem_singleton, not_or] at htimer haccept
    rw [after_concat]
    exact (ih htimer.1 haccept.1).step (Ne.symm htimer.2) (Ne.symm haccept.2)

/-- The operation can succeed, if it has not already. -/
theorem Waiting.next {op : ServerOp} (h : Waiting op l) :
    ∃ ms' : List ServerMove, (∀ l : ServerLoop, l.trace handlers tick ms' = []) ∧
      (op, .ok) ∈ (l.run handlers ms').ready ∧ (l.run handlers ms').state = l.state := by
  have hpos : 0 < l.outstanding (· = op) := by
    rw [h.one]
    exact Nat.one_pos
  rcases Nat.add_pos_iff_pos_or_pos.1 hpos with hpos | hpos
  · obtain ⟨o, hmem, ho⟩ := List.countP_pos_iff.1 hpos
    obtain rfl : o = op := by simpa using ho
    refine ⟨[.complete o true], fun l => rfl, ?_, ?_⟩ <;>
      simp [EventLoop.run, EventLoop.step, hmem]
  · obtain ⟨⟨o, ec⟩, hmem, ho⟩ := List.countP_pos_iff.1 hpos
    obtain rfl : o = op := by simpa using ho
    obtain rfl := h.ok ec hmem
    exact ⟨[], fun l => rfl, hmem, rfl⟩

/-- As long as the server is not stopped and no wait of the timer or the acceptor has failed, one
wait of each is under way or about to be handled. So the next tick and the next connection can
come, whatever the sessions do. -/
theorem run_ticks_on {ms : List ServerMove} (htimer : .complete .timer false ∉ ms)
    (haccept : .complete .accept false ∉ ms) (hgo : (after ms).state.stopping = false)
    (frame : String) :
    (after ms).outstanding (· = ServerOp.timer) = 1 ∧
      (after ms).outstanding (· = ServerOp.accept) = 1 ∧
      (∃ ms', ticks (ms ++ ms') = ticks ms ++ [frame]) ∧
      ∃ ms', (after (ms ++ ms')).state.sessions =
        (after ms).state.sessions ++ [(after ms).state.created] := by
  obtain ⟨hwait, hwait'⟩ := run_serving htimer haccept hgo
  have hafter : ∀ ms', after (ms ++ ms') = (after ms).run handlers ms' :=
    EventLoop.run_append handlers started ms
  refine ⟨hwait.one, hwait'.one, ?_, ?_⟩
  · obtain ⟨ms', htrace, hready, hstate⟩ := hwait.next
    refine ⟨ms' ++ [.handle .timer .ok frame], ?_⟩
    have hnext : tick (after (ms ++ ms')) (.handle .timer .ok frame) = some frame := by
      simp [tick, hafter, hready, hstate, hgo]
    have hquiet : ticks (ms ++ ms') = ticks ms := by
      rw [ticks, EventLoop.trace_append]
      exact (congrArg _ (htrace _)).trans (List.append_nil _)
    rw [← List.append_assoc, ticks_concat, hnext, hquiet]
    rfl
  · obtain ⟨ms', -, hready, hstate⟩ := hwait'.next
    refine ⟨ms' ++ [.handle .accept .ok frame], ?_⟩
    have hstep : after (ms ++ (ms' ++ [.handle .accept .ok frame])) =
        onAccept (((after ms).run handlers ms').handling .accept .ok) := by
      rw [← List.append_assoc, after_concat, hafter, EventLoop.step, if_pos hready]
      exact if_neg (by simp [hstate, hgo])
    rw [hstep, onAccept_sessions]
    simp [EventLoop.handling, hstate]

/-- A client that never reads stops neither the ticks nor the next client. -/
theorem run_ticks_on_stalled :
    (after (stalledClient 3)).outstanding (· = ServerOp.timer) = 1 ∧
      (after (stalledClient 3)).outstanding (· = ServerOp.accept) = 1 ∧
      (∃ ms', ticks (stalledClient 3 ++ ms') = ticks (stalledClient 3) ++ ["next"]) ∧
      ∃ ms', (after (stalledClient 3 ++ ms')).state.sessions = [0, 1] := by
  have htimer : .complete .timer false ∉ stalledClient 3 := by simp [stalledClient]
  have haccept : .complete .accept false ∉ stalledClient 3 := by simp [stalledClient]
  have hlisted : (after (stalledClient 3)).state.sessions = [0] ∧
      (after (stalledClient 3)).state.created = 1 := by
    decide +kernel
  have hticks := run_ticks_on htimer haccept (by decide +kernel) "next"
  rwa [hlisted.1, hlisted.2] at hticks

end ServerLoop

end LockfreeMatching
