import LockfreeMatching.Core.Conservation
import LockfreeMatching.Core.Laws
import LockfreeMatching.Feed.FeedHandler

/-!
# A live feed

The handler and the engine together: every frame is parsed into a fresh batch, and the batch is
delivered message by message. As the handler only ever appends, this is the same as
delivering everything it emits over the whole sequence (`LiveFeed.run_eq`).
-/
namespace LockfreeMatching

/-! ## The handler only appends -/

namespace Sink

/-- The same handler, appending behind `pre`. -/
def after (s : Sink) (pre : List EngineMessage) : Sink := { s with out := pre ++ s.out }

theorem clearLevel_after (s : Sink) (pre : List EngineMessage) (key : LevelKey)
    (ts : Timestamp) : (s.after pre).clearLevel key ts = (s.clearLevel key ts).after pre := by
  unfold clearLevel after
  simp only
  split <;> simp

theorem openLevel_after (s : Sink) (pre : List EngineMessage) (key : LevelKey) (qty : Quantity)
    (ts : Timestamp) :
    (s.after pre).openLevel key qty ts = (s.openLevel key qty ts).after pre := by
  exact congrArg (Sink.mk _) (List.append_assoc pre s.out _)

theorem applyLevel_after (s : Sink) (pre : List EngineMessage) (key : LevelKey)
    (qty : Quantity) (ts : Timestamp) :
    (s.after pre).applyLevel key qty ts = (s.applyLevel key qty ts).after pre := by
  simp only [applyLevel, clearLevel_after, openLevel_after]
  split <;> rfl

theorem resetBook_after (s : Sink) (pre : List EngineMessage) (ts : Timestamp)
    (iteration : Iteration) :
    (s.after pre).resetBook ts iteration = (s.resetBook ts iteration).after pre := by
  simp [resetBook, after]

theorem consumeRow_after (s : Sink) (pre : List EngineMessage) (skipZero : Bool)
    (ts : Timestamp) (row : Except RowError (LevelKey × Quantity)) :
    (s.after pre).consumeRow skipZero ts row = (s.consumeRow skipZero ts row).after pre := by
  cases row with
  | error e => rfl
  | ok level =>
    simp only [consumeRow, applyLevel_after]
    split <;> rfl

theorem foldl_after {f : Sink → Element → Sink} {pre : List EngineMessage}
    (hf : ∀ s row, f (s.after pre) row = (f s row).after pre) (rows : List Element) (s : Sink) :
    rows.foldl f (s.after pre) = (rows.foldl f s).after pre := by
  induction rows generalizing s with
  | nil => rfl
  | cons row rows ih => rw [List.foldl_cons, List.foldl_cons, hf, ih]

theorem consumeSide_after (conv : Conversions) (s : Sink) (pre : List EngineMessage)
    (levels : Option (List Element)) (side : Side) (ts : Timestamp) :
    (s.after pre).consumeSide conv levels side ts =
      (s.consumeSide conv levels side ts).after pre := by
  cases levels with
  | none => rfl
  | some levels => exact foldl_after (fun s row => s.consumeRow_after pre true ts _) levels s

/-- What a frame emits does not depend on what was emitted before. -/
theorem parse_after (conv : Conversions) (s : Sink) (pre : List EngineMessage) (a : Arrival) :
    ((s.after pre).parse conv a).1 = (s.parse conv a).1.after pre := by
  unfold parse
  split
  · rfl
  · split
    · rfl
    · split_ifs
      · split
        · rfl
        · exact foldl_after (fun s row => s.consumeRow_after pre false a.ts _) _ s
      · simp only [resetBook_after, consumeSide_after]
      · rfl
      · rfl

theorem run_after (conv : Conversions) (s : Sink) (pre : List EngineMessage)
    (arrivals : List Arrival) :
    (s.after pre).run conv arrivals = (s.run conv arrivals).after pre := by
  induction arrivals generalizing s with
  | nil => rfl
  | cons a arrivals ih =>
    rw [run, run, List.foldl_cons, List.foldl_cons, parse_after]
    exact ih _

end Sink

/-! ## Handler and engine -/

theorem MatchingEngine.trace_append (e : MatchingEngine) (a b : List EngineMessage) :
    e.trace (a ++ b) =
      (e.trace a).bind fun r => (r.1.trace b).map fun r' => (r'.1, r.2 ++ r'.2) := by
  induction a generalizing e with
  | nil => simp [MatchingEngine.trace]
  | cons msg a ih =>
    rw [List.cons_append, MatchingEngine.trace, MatchingEngine.trace, Option.bind_assoc]
    congr 1
    funext e'
    rw [ih, Option.map_bind, Option.bind_map]
    congr 1
    funext r
    simp [Option.map_map, Function.comp_def]

structure LiveFeed where
  handler : FeedHandler := {}
  engine : MatchingEngine := .new
  fills : List Fill := []

namespace LiveFeed

/-- Parse a frame and deliver its messages in order; `none` if a call does not return. -/
def frame (conv : Conversions) (l : LiveFeed) (a : Arrival) : Option LiveFeed :=
  let s := (Sink.parse conv { handler := l.handler } a).1
  (l.engine.trace s.out).map fun r =>
    { handler := s.handler, engine := r.1, fills := l.fills ++ r.2 }

def run (conv : Conversions) (l : LiveFeed) : List Arrival → Option LiveFeed
  | [] => some l
  | a :: arrivals => (l.frame conv a).bind fun l' => run conv l' arrivals

/-- Delivering frame by frame is delivering all messages in order. -/
theorem run_eq (conv : Conversions) (l : LiveFeed) (arrivals : List Arrival) :
    l.run conv arrivals =
      (l.engine.trace (Sink.run conv { handler := l.handler } arrivals).out).map fun r =>
        { handler := (Sink.run conv { handler := l.handler } arrivals).handler
          engine := r.1
          fills := l.fills ++ r.2 } := by
  induction arrivals generalizing l with
  | nil => simp [run, Sink.run, MatchingEngine.trace]
  | cons a arrivals ih =>
    set s := (Sink.parse conv { handler := l.handler } a).1 with hs
    have hrun : Sink.run conv { handler := l.handler } (a :: arrivals) =
        (Sink.run conv { handler := s.handler } arrivals).after s.out := by
      rw [← Sink.run_after]
      simp only [Sink.after, List.append_nil]
      rfl
    rw [hrun, run, frame, ← hs, Option.bind_map]
    simp only [Sink.after, MatchingEngine.trace_append, Option.map_bind]
    congr 1
    funext r
    simp [ih, Option.map_map, Function.comp_def]

end LiveFeed

/-! ## Snapshot resets -/

/-- What a reset emits, as a list of cancels. -/
theorem Sink.resetBook_cancels (h : FeedHandler) (ts : Timestamp) (iteration : Iteration) :
    (Sink.resetBook { handler := h } ts iteration).out =
      ((iteration.1 h.live.entries).map fun e => { id := e.2, timestamp := ts }).map .cancel := by
  simp [Sink.resetBook]

/-- After any messages, two orders of the same cancels leave the same book; so the order in
which a reset happens to iterate its hash map does not matter. -/
theorem run_cancels_comm (msgs : List EngineMessage) :
    ∃ e, MatchingEngine.new.run msgs = some e ∧
      (∀ cs cs' : List CancelMessage, cs.Perm cs' →
        ∃ e₁ e₂, e.run (cs.map .cancel) = some e₁ ∧ e.run (cs'.map .cancel) = some e₂ ∧
          SameQueues e₁ e₂) ∧
      ∀ (h : FeedHandler) (ts : Timestamp) (iteration iteration' : Iteration),
        ∃ e₁ e₂, e.run (Sink.resetBook { handler := h } ts iteration).out = some e₁ ∧
          e.run (Sink.resetBook { handler := h } ts iteration').out = some e₂ ∧
          SameQueues e₁ e₂ := by
  obtain ⟨e, hrun, q, free, he, -⟩ := Simulates.new.run msgs
  refine ⟨e, hrun, fun cs cs' hperm => ?_, fun h ts iteration iteration' => ?_⟩
  · exact he.cancels_comm fun id => (hperm.map _).mem_iff
  · have hperm := (iteration.2 h.live.entries).trans (iteration'.2 h.live.entries).symm
    rw [Sink.resetBook_cancels, Sink.resetBook_cancels]
    apply he.cancels_comm
    intro id
    exact ((hperm.map _).map _).mem_iff

/-- Two bids and an unknown id, cancelled in two orders. -/
theorem run_cancels_comm_twoBids :
    ∃ e, MatchingEngine.new.run [.newOrder { id := 1, price := 100, quantity := 5 },
        .newOrder { id := 2, price := 101, quantity := 6 }] = some e ∧
      ∃ e₁ e₂, e.run [.cancel { id := 1 }, .cancel { id := 2 }, .cancel { id := 3 }] = some e₁ ∧
        e.run [.cancel { id := 3 }, .cancel { id := 2 }, .cancel { id := 1 }] = some e₂ ∧
        SameQueues e₁ e₂ := by
  obtain ⟨e, hrun, hcomm, -⟩ := run_cancels_comm
    [.newOrder { id := 1, price := 100, quantity := 5 },
      .newOrder { id := 2, price := 101, quantity := 6 }]
  exact ⟨e, hrun, hcomm [{ id := 1 }, { id := 2 }, { id := 3 }]
    [{ id := 3 }, { id := 2 }, { id := 1 }] (by decide)⟩

end LockfreeMatching
