import LockfreeMatching.Metrics.MetricsCollector
import LockfreeMatching.Metrics.TradeLogger
import LockfreeMatching.Pipeline.Threads
import LockfreeMatching.Server.Tape

/-!
# What the threads count

The pipeline with everything its threads count, log and publish: the shared counters, the metrics
collector, the trade log and the rows for the dashboard. A step of a thread of `Threads` comes
with its effect here. Where the source updates a shared counter in a statement of its own, the
update is a step of its own too: until then the thread owes it, and others may run.

Statistics lines are counted but not printed. The clock of the output thread shows any values.

The lists `sent`, `sampled`, `tapeEvents` and `logCalls` are history that no thread reads.
-/
namespace LockfreeMatching

open DashboardHub

structure Counters where
  ingested : UInt64 := 0
  processed : UInt64 := 0
  fills : UInt64 := 0
  outDropped : UInt64 := 0
  latDropped : UInt64 := 0
  poolFree : UInt64 := 0

/-- What the engine thread has to do to the counters before its next step. -/
inductive EngineDebt where
  | none
  /-- publish the size of the pool before the first message -/
  | start
  | fill
  | drop
  | processed
  | poolFree
  | exitPool
  | exitSamples
  deriving DecidableEq

/-- What the output thread has to do before its next step. -/
inductive OutputDebt where
  | none
  | timers (didWork : Bool)
  /-- take over the number of dropped samples, after the loop -/
  | note

/-- What the engine thread keeps. -/
structure EngineSide where
  debt : EngineDebt := .start
  sincePublish : UInt64 := 0
  latDropped : UInt64 := 0
  /-- the fills handed to the output ring, and whether it took them -/
  sent : List (Fill × Bool) := []
  /-- the samples handed to the latency ring, and whether it took them -/
  sampled : List (LatencySample × Bool) := []

/-- What the output thread keeps. The timers are in nanoseconds since it started. -/
structure OutputSide where
  debt : OutputDebt := .none
  metrics : MetricsCollector := {}
  logging : Logging := {}
  dashboard : Bool
  out : OutputThread := {}
  iter : UInt64 := 0
  nextPub : Nat := 100000000
  nextStat : Nat := 5000000000
  publishes : Nat := 0
  statLines : Nat := 0
  tapeEvents : List OutputEvent := []
  logCalls : List TradeLogger.Call := []

structure Telemetry where
  pipe : Pipeline
  counters : Counters := {}
  /-- the synthetic ingest has pushed a message and not counted it -/
  ingestDebt : Bool := false
  engine : EngineSide := {}
  output : OutputSide

/-! ## Engine -/

namespace EngineSide

def emitSample (p : Pipeline) (e : EngineSide) (x : LatencySample) : EngineSide :=
  if (p.latency.tryPush latencyQueueSize x).isSome then
    { e with sampled := e.sampled ++ [(x, true)] }
  else { e with latDropped := e.latDropped + 1, sampled := e.sampled ++ [(x, false)] }

def emitFill (p : Pipeline) (e : EngineSide) (f : Fill) : EngineSide :=
  if (p.output.tryPush feedQueueSize f).isSome then
    { e with debt := .fill, sent := e.sent ++ [(f, true)] }
  else { e with debt := .drop, sent := e.sent ++ [(f, false)] }

/-- The effect of the next step of the engine thread. -/
def effect (p : Pipeline) (e : EngineSide) : EngineSide :=
  match p.engine with
  | .emit (.sample x :: _) => e.emitSample p x
  | .emit (.fill f :: _) => e.emitFill p f
  | .emit [] => { e with debt := .processed }
  | .loadStop => if p.engineStop then { e with debt := .exitPool } else e
  | _ => e

/-- Pay one debt. -/
def pay (p : Pipeline) (c : Counters) (e : EngineSide) : Counters × EngineSide :=
  match e.debt with
  | .none => (c, e)
  | .start | .poolFree =>
    ({ c with poolFree := p.eng.poolAvailable }, { e with debt := .none })
  | .fill => ({ c with fills := c.fills + 1 }, { e with debt := .none })
  | .drop => ({ c with outDropped := c.outDropped + 1 }, { e with debt := .none })
  | .processed =>
    ({ c with processed := c.processed + 1 },
      if (1024 : UInt64) ≤ e.sincePublish + 1 then { e with sincePublish := 0, debt := .poolFree }
      else { e with sincePublish := e.sincePublish + 1, debt := .none })
  | .exitPool => ({ c with poolFree := p.eng.poolAvailable }, { e with debt := .exitSamples })
  | .exitSamples => ({ c with latDropped := e.latDropped }, { e with debt := .none })

end EngineSide

/-! ## Output -/

namespace OutputSide

def recordSample (o : OutputSide) (x : LatencySample) : OutputSide :=
  match x.kind with
  | .match_ => { o with metrics := (o.metrics.recordMatchLatency x.ns).incrementOrders }
  | .order => { o with metrics := o.metrics.recordOrderLatency x.ns }

/-- What is done with a fill: `call` is the call of the logger, and the clock shows `nowMs`. -/
def takeFill (o : OutputSide) (f : Fill) (nowMs : UInt64) (call : TradeLogger.Call) :
    OutputSide :=
  { o with
    logging := TradeLogger.step o.logging call
    logCalls := o.logCalls ++ [call]
    metrics := o.metrics.incrementMatches
    out := if o.dashboard then o.out.onFill f nowMs else o.out
    tapeEvents := if o.dashboard then o.tapeEvents ++ [.fill f nowMs] else o.tapeEvents }

/-- The effect of the next step of the output thread. -/
def effect (p : Pipeline) (o : OutputSide) (nowMs : UInt64) (pad : FillMessage.Padding)
    (accepted out : Nat) : OutputSide :=
  match p.consumer with
  | .drain i _ =>
    if i < 4096 then p.latency.tryPop.elim o fun r => o.recordSample r.1 else o
  | .popFill w =>
    p.output.tryPop.elim { o with debt := .timers w } fun r =>
      { o.takeFill r.1 nowMs (.log r.1 pad accepted out) with debt := .timers true }
  | .loadStop => if p.outputStop then { o with debt := .note } else o
  | .exited => o

/-- The statistics `publish_dashboard` collects. -/
def stats (c : Counters) (o : OutputSide) (clients : UInt64) : Stats where
  matchP50 := o.metrics.matchLatency.p50
  matchP95 := o.metrics.matchLatency.p95
  matchP99 := o.metrics.matchLatency.p99
  orderP50 := o.metrics.orderLatency.p50
  orderP99 := o.metrics.orderLatency.p99
  processed := c.processed
  fills := c.fills
  poolFree := c.poolFree
  poolCapacity := .ofNat orderPoolSize
  dropped := c.outDropped
  clients

def publishDashboard (c : Counters) (o : OutputSide) (clients : UInt64) : OutputSide :=
  if o.dashboard then
    { o with
      out := o.out.publishDashboard (o.stats c clients)
      tapeEvents := o.tapeEvents ++ [.publish (o.stats c clients)] }
  else o

def checkPublish (c : Counters) (o : OutputSide) (now : Nat) (clients : UInt64) : OutputSide :=
  if o.nextPub ≤ now then
    { o.publishDashboard c clients with
      -- missed ticks are not replayed
      nextPub := max (o.nextPub + 100000000) now
      publishes := o.publishes + 1 }
  else o

def checkStats (o : OutputSide) (now : Nat) : OutputSide :=
  if o.nextStat ≤ now then
    { o with nextStat := o.nextStat + 5000000000, statLines := o.statLines + 1 }
  else o

/-- The end of an iteration, or what follows the loop. A busy thread looks at the clock in every
256th iteration only. -/
def pay (c : Counters) (o : OutputSide) (now : Nat) (clients : UInt64) : OutputSide :=
  match o.debt with
  | .none => o
  | .timers true =>
    let o := { o with debt := .none, iter := o.iter + 1 }
    if o.iter &&& 255 = 0 then (o.checkPublish c now clients).checkStats now else o
  | .timers false => (checkPublish c { o with debt := .none } now clients).checkStats now
  | .note => { o with debt := .none, metrics := o.metrics.noteDroppedSamples c.latDropped }

def log (o : OutputSide) (call : TradeLogger.Call) : OutputSide :=
  { o with logging := TradeLogger.step o.logging call, logCalls := o.logCalls ++ [call] }

end OutputSide

/-! ## Steps -/

namespace Telemetry

/-- The synthetic ingest counts what it pushes. A live feed keeps its own counter. -/
def ingestPushes (p : Pipeline) : Bool :=
  match p.ingest with
  | .push msg => (p.input.tryPush feedQueueSize msg).isSome
  | _ => false

/-- Main joins a thread when it has nothing left to do. -/
def Joins (s : Telemetry) : Prop :=
  (s.pipe.main = .joinIngest → s.ingestDebt = false) ∧
    (s.pipe.main = .joinEngine → s.engine.debt = .none) ∧
    (s.pipe.main = .joinOutput → s.output.debt = .none)

inductive Step : Telemetry → Telemetry → Prop where
  | ingest {s : Telemetry} {p : Pipeline} : s.ingestDebt = false → RunIngest s.pipe p →
      Step s { s with pipe := p, ingestDebt := ingestPushes s.pipe }
  | countIngested {s : Telemetry} : s.ingestDebt = true →
      Step s { s with
        ingestDebt := false
        counters := { s.counters with ingested := s.counters.ingested + 1 } }
  | engine {s : Telemetry} {p : Pipeline} : s.engine.debt = .none → RunEngine s.pipe p →
      Step s { s with pipe := p, engine := s.engine.effect s.pipe }
  | payEngine (s : Telemetry) :
      Step s { s with
        counters := (s.engine.pay s.pipe s.counters).1
        engine := (s.engine.pay s.pipe s.counters).2 }
  | output {s : Telemetry} {p : Pipeline} (nowMs : UInt64) (pad : FillMessage.Padding)
      (accepted out : Nat) : s.output.debt = .none → RunOutput s.pipe p →
      Step s { s with pipe := p, output := s.output.effect s.pipe nowMs pad accepted out }
  | payOutput (s : Telemetry) (now : Nat) (clients : UInt64) :
      Step s { s with output := s.output.pay s.counters now clients }
  | main {s : Telemetry} {p : Pipeline} : s.Joins → RunMain s.pipe p →
      Step s { s with pipe := p }
  | signal (s : Telemetry) : Step s { s with pipe := { s.pipe with shutdown := true } }
  /-- main closes the log after it has joined all threads -/
  | closeLog {s : Telemetry} : s.pipe.main = .done →
      Step s { s with output := s.output.log .close }

/-- Main has opened the log, or gone on without one. -/
def start (pipe : Pipeline) (dashboard : Bool) (log : Option TradeLogger.Call) : Telemetry where
  pipe
  output := { dashboard, logging := TradeLogger.run log.toList, logCalls := log.toList }

/-- The call that opens the log. -/
inductive Opens : Option TradeLogger.Call → Prop where
  | noLog : Opens none
  | open_ (path : String) (opened : Bool) (out : Nat × Nat × Nat) :
      Opens (some (.open_ path opened out))

/-- States reached by any interleaving, with or without dashboard and log. -/
inductive Run (live : Bool) : Telemetry → Prop where
  | start {log : Option TradeLogger.Call} (dashboard : Bool) : Opens log →
      Run live (start (if live then .live else .synthetic) dashboard log)
  | step {s t : Telemetry} : Run live s → Step s t → Run live t

end Telemetry

end LockfreeMatching
