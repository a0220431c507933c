import LockfreeMatching.Core.MatchingEngine
import LockfreeMatching.Lib.BoundedFifo

/-!
# The threads of the pipeline

Ingest, engine, output and main thread, connected by three rings: messages into the engine,
fills out of it, latency samples out of it. Each thread is a step relation with an explicit
program counter, and the pipeline interleaves their steps in any order.

A ring is used here through what its queue refines, a bounded FIFO: `tryPush` takes effect
when the producer's index is stored and `tryPop` when the consumer's is. A `tryPop` that fails
takes effect when the producer's index is loaded, so it fails only if the ring was empty then.

Clock readings, generated messages and the moment of a signal are arbitrary. Statistics,
printing and the dashboard touch none of the rings and are left out.
-/
namespace LockfreeMatching

open Lib

/-- A ring with the history of everything successfully pushed into it. -/
structure Ring (T : Type) where
  queue : List T := []
  pushed : List T := []

namespace Ring

variable {T : Type}

/-- Room for one item less than the number of slots. -/
def tryPush (capacity : Nat) (r : Ring T) (x : T) : Option (Ring T) :=
  if r.queue.length < capacity - 1 then
    some { queue := r.queue ++ [x], pushed := r.pushed ++ [x] }
  else none

def tryPop (r : Ring T) : Option (T × Ring T) :=
  match r.queue with
  | [] => none
  | x :: q => some (x, { r with queue := q })

theorem tryPush_eq {capacity : Nat} {r r' : Ring T} {x : T} (h : r.tryPush capacity x = some r') :
    r' = { queue := r.queue ++ [x], pushed := r.pushed ++ [x] } ∧
      FifoStep (capacity - 1) r.queue (.push x) r'.queue := by
  unfold tryPush at h
  split_ifs at h with hroom
  obtain rfl := Option.some.inj h
  exact ⟨rfl, .push x hroom⟩

theorem tryPop_eq {r r' : Ring T} {x : T} (h : r.tryPop = some (x, r')) :
    r.queue = x :: r'.queue ∧ r'.pushed = r.pushed ∧
      ∀ n, FifoStep n r.queue (.pop x) r'.queue := by
  unfold tryPop at h
  split at h
  · cases h
  · rename_i hq
    cases h
    refine ⟨hq, rfl, fun n => ?_⟩
    rw [hq]
    exact .pop x _

theorem tryPop_none {r : Ring T} (h : r.tryPop = none) : r.queue = [] := by
  unfold tryPop at h
  split at h
  · assumption
  · cases h

end Ring

/-! ## State -/

inductive SampleKind where
  | match_ | order
  deriving DecidableEq, Repr

structure LatencySample where
  kind : SampleKind := .match_
  ns : UInt64 := 0
  deriving DecidableEq, Repr

def feedQueueSize : Nat := 65536

def latencyQueueSize : Nat := 65536

/-- What the engine still has to send downstream for the message it processed. -/
inductive Emission where
  | sample (s : LatencySample)
  | fill (f : Fill)

/-- Synthetic ingest follows its loop; a live feed just pushes until it returns. -/
inductive IngestPc where
  | loadShutdown
  | push (msg : EngineMessage)
  | reloadShutdown (msg : EngineMessage)
  | live
  | exited

inductive EnginePc where
  | pop
  | process (msg : EngineMessage)
  | emit (work : List Emission)
  | loadStop
  | exited

/-- `didWork` tells whether the current iteration has popped anything yet. -/
inductive OutputPc where
  | drain (i : Nat) (didWork : Bool)
  | popFill (didWork : Bool)
  | loadStop
  | exited

inductive MainPc where
  | wait
  | joinIngest
  | storeEngineStop
  | joinEngine
  | storeOutputStop
  | joinOutput
  | done

structure Pipeline where
  input : Ring EngineMessage := {}
  output : Ring Fill := {}
  latency : Ring LatencySample := {}
  shutdown : Bool := false
  engineStop : Bool := false
  outputStop : Bool := false
  ingest : IngestPc
  engine : EnginePc := .pop
  consumer : OutputPc := .drain 0 false
  main : MainPc := .wait
  eng : MatchingEngine := .new
  /-- messages passed to `MatchingEngine::process` -/
  processed : List EngineMessage := []
  /-- fills given to the logger -/
  logged : List Fill := []
  /-- latency samples recorded -/
  recorded : List LatencySample := []

def Pipeline.synthetic : Pipeline := { ingest := .loadShutdown }

def Pipeline.live : Pipeline := { ingest := .live }

/-! ## Steps -/

def messageTimestamp : EngineMessage → Timestamp
  | .newOrder m => m.timestamp
  | .cancel m => m.timestamp

/-- Samples and fills to send for a message processed between clock readings `t0` and `t1`. -/
def emissions (msg : EngineMessage) (fills : List Fill) (t0 t1 : UInt64) : List Emission :=
  .sample { kind := .match_, ns := t1 - t0 } ::
    ((if messageTimestamp msg ≠ 0 ∧ messageTimestamp msg < t1 then
        [.sample { kind := .order, ns := t1 - messageTimestamp msg }] else []) ++
      fills.map .fill)

/-- `run_synthetic_ingest`, or the message handler of the live feed. -/
inductive RunIngest : Pipeline → Pipeline → Prop where
  | stop {s : Pipeline} : s.ingest = .loadShutdown → s.shutdown = true →
      RunIngest s { s with ingest := .exited }
  | generate {s : Pipeline} (msg : EngineMessage) : s.ingest = .loadShutdown →
      s.shutdown = false → RunIngest s { s with ingest := .push msg }
  | push {s : Pipeline} {msg : EngineMessage} {r : Ring EngineMessage} : s.ingest = .push msg →
      s.input.tryPush feedQueueSize msg = some r →
      RunIngest s { s with input := r, ingest := .loadShutdown }
  | full {s : Pipeline} {msg : EngineMessage} : s.ingest = .push msg →
      s.input.tryPush feedQueueSize msg = none →
      RunIngest s { s with ingest := .reloadShutdown msg }
  | giveUp {s : Pipeline} {msg : EngineMessage} : s.ingest = .reloadShutdown msg →
      s.shutdown = true → RunIngest s { s with ingest := .exited }
  | retry {s : Pipeline} {msg : EngineMessage} : s.ingest = .reloadShutdown msg →
      s.shutdown = false → RunIngest s { s with ingest := .push msg }
  | livePush {s : Pipeline} (msg : EngineMessage) {r : Ring EngineMessage} : s.ingest = .live →
      s.input.tryPush feedQueueSize msg = some r → RunIngest s { s with input := r }
  | liveExit {s : Pipeline} : s.ingest = .live → RunIngest s { s with ingest := .exited }

inductive RunEngine : Pipeline → Pipeline → Prop where
  | pop {s : Pipeline} {msg : EngineMessage} {r : Ring EngineMessage} : s.engine = .pop →
      s.input.tryPop = some (msg, r) → RunEngine s { s with input := r, engine := .process msg }
  | empty {s : Pipeline} : s.engine = .pop → s.input.tryPop = none →
      RunEngine s { s with engine := .loadStop }
  | process {s : Pipeline} {msg : EngineMessage} {e : MatchingEngine} (t0 t1 : UInt64) :
      s.engine = .process msg → s.eng.process msg = some e →
      RunEngine s { s with
        eng := e
        processed := s.processed ++ [msg]
        engine := .emit (emissions msg e.fills t0 t1) }
  | pushSample {s : Pipeline} {x : LatencySample} {work : List Emission}
      {r : Ring LatencySample} : s.engine = .emit (.sample x :: work) →
      s.latency.tryPush latencyQueueSize x = some r →
      RunEngine s { s with latency := r, engine := .emit work }
  | dropSample {s : Pipeline} {x : LatencySample} {work : List Emission} :
      s.engine = .emit (.sample x :: work) → s.latency.tryPush latencyQueueSize x = none →
      RunEngine s { s with engine := .emit work }
  | pushFill {s : Pipeline} {f : Fill} {work : List Emission} {r : Ring Fill} :
      s.engine = .emit (.fill f :: work) → s.output.tryPush feedQueueSize f = some r →
      RunEngine s { s with output := r, engine := .emit work }
  | dropFill {s : Pipeline} {f : Fill} {work : List Emission} :
      s.engine = .emit (.fill f :: work) → s.output.tryPush feedQueueSize f = none →
      RunEngine s { s with engine := .emit work }
  | next {s : Pipeline} : s.engine = .emit [] → RunEngine s { s with engine := .pop }
  | stop {s : Pipeline} : s.engine = .loadStop → s.engineStop = true →
      RunEngine s { s with engine := .exited }
  | relax {s : Pipeline} : s.engine = .loadStop → s.engineStop = false →
      RunEngine s { s with engine := .pop }

inductive RunOutput : Pipeline → Pipeline → Prop where
  | popSample {s : Pipeline} {i : Nat} {w : Bool} {x : LatencySample} {r : Ring LatencySample} :
      s.consumer = .drain i w → i < 4096 → s.latency.tryPop = some (x, r) →
      RunOutput s { s with
        latency := r
        recorded := s.recorded ++ [x]
        consumer := .drain (i + 1) true }
  | noSample {s : Pipeline} {i : Nat} {w : Bool} : s.consumer = .drain i w → i < 4096 →
      s.latency.tryPop = none → RunOutput s { s with consumer := .popFill w }
  | batch {s : Pipeline} {i : Nat} {w : Bool} : s.consumer = .drain i w → 4096 ≤ i →
      RunOutput s { s with consumer := .popFill w }
  | popFill {s : Pipeline} {w : Bool} {f : Fill} {r : Ring Fill} : s.consumer = .popFill w →
      s.output.tryPop = some (f, r) →
      RunOutput s { s with output := r, logged := s.logged ++ [f], consumer := .drain 0 false }
  | again {s : Pipeline} : s.consumer = .popFill true → s.output.tryPop = none →
      RunOutput s { s with consumer := .drain 0 false }
  | idle {s : Pipeline} : s.consumer = .popFill false → s.output.tryPop = none →
      RunOutput s { s with consumer := .loadStop }
  | stop {s : Pipeline} : s.consumer = .loadStop → s.outputStop = true →
      RunOutput s { s with consumer := .exited }
  | sleep {s : Pipeline} : s.consumer = .loadStop → s.outputStop = false →
      RunOutput s { s with consumer := .drain 0 false }

/-- The main thread after start-up: wait for a signal or the deadline, then the staged
shutdown, upstream first. -/
inductive RunMain : Pipeline → Pipeline → Prop where
  | notice {s : Pipeline} : s.main = .wait → s.shutdown = true →
      RunMain s { s with main := .joinIngest }
  | deadline {s : Pipeline} : s.main = .wait →
      RunMain s { s with shutdown := true, main := .joinIngest }
  | joinIngest {s : Pipeline} : s.main = .joinIngest → s.ingest = .exited →
      RunMain s { s with main := .storeEngineStop }
  | storeEngineStop {s : Pipeline} : s.main = .storeEngineStop →
      RunMain s { s with engineStop := true, main := .joinEngine }
  | joinEngine {s : Pipeline} : s.main = .joinEngine → s.engine = .exited →
      RunMain s { s with main := .storeOutputStop }
  | storeOutputStop {s : Pipeline} : s.main = .storeOutputStop →
      RunMain s { s with outputStop := true, main := .joinOutput }
  | joinOutput {s : Pipeline} : s.main = .joinOutput → s.consumer = .exited →
      RunMain s { s with main := .done }

/-- One step of one thread, or the delivery of a signal. -/
inductive PipelineStep : Pipeline → Pipeline → Prop where
  | ingest {s t : Pipeline} : RunIngest s t → PipelineStep s t
  | engine {s t : Pipeline} : RunEngine s t → PipelineStep s t
  | output {s t : Pipeline} : RunOutput s t → PipelineStep s t
  | main {s t : Pipeline} : RunMain s t → PipelineStep s t
  | signal (s : Pipeline) : PipelineStep s { s with shutdown := true }

/-- States reached by any interleaving, in either mode. -/
inductive PipelineRun : Pipeline → Prop where
  | synthetic : PipelineRun .synthetic
  | live : PipelineRun .live
  | step {s t : Pipeline} : PipelineRun s → PipelineStep s t → PipelineRun t

end LockfreeMatching
