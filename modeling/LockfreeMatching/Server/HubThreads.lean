import LockfreeMatching.Server.Frame
import LockfreeMatching.Server.Ladder
import LockfreeMatching.Server.Tape

/-!
# Threads at the hub

The engine thread, the output thread and the server thread around the hub. Here the functions of
the hub are not atomic: each works under the lock of the hub, part by part, and the flag
`bookWanted` is read and written without it. The engine only tries the lock. A step is one part of
a function of one thread, and every access to the flag is seen by the next step.

`shown`, `asked`, `batches` and `frames` are history that no thread reads.

## Main results

* `run_frames_whole`: every frame sent is that of one book and of complete batches of fills, the
  frames follow each other in time, and a request that was answered is visible in the next frame.
* `run_engine_free`: the engine always goes on, and a request is answered when it finds the lock
  free.
-/
namespace LockfreeMatching

open DashboardHub Lib

inductive HubThread where
  | engine | output | server
  deriving DecidableEq

/-- The loop of the engine thread, and its `publishBook`. -/
inductive PublishPc where
  | pop | check | tryLock | clear | bids | asks | totals | unlock | exited
  deriving DecidableEq

/-- `publishOutput` of the output thread. -/
inductive StorePc where
  | idle
  | lock (stats : Stats) (rows : List FillRow)
  | stats (stats : Stats) (rows : List FillRow)
  | rows (stats : Stats) (done todo : List FillRow)

/-- A broadcast tick, with the number of messages processed at its request and at the one before,
and whether that one was answered by then. -/
structure Tick where
  since : Nat
  asked : Nat
  answered : Bool

/-- A tick of the server thread. A frame is made of parts that are still to be written. -/
inductive FramePc where
  | idle
  | clock (tick : Tick)
  | lock (tick : Tick) (nowMs : UInt64)
  | read (tick : Tick) (nowMs : UInt64) (out : List Char)
      (todo : List (DashboardHub → List Char))

structure SentFrame where
  tick : Tick
  nowMs : UInt64
  text : List Char
  /-- the messages and the batches of fills in the hub -/
  shown : Nat
  stored : Nat

structure HubThreads where
  hub : DashboardHub
  holder : Option HubThread := none
  eng : MatchingEngine := .new
  engine : PublishPc := .pop
  output : StorePc := .idle
  server : FramePc := .idle
  /-- messages processed -/
  msgs : List EngineMessage := []
  /-- what the output thread has published -/
  batches : List (Stats × List FillRow) := []
  /-- the messages processed when the book was published, and when it was requested -/
  shown : Nat := 0
  asked : Nat := 0
  frames : List SentFrame := []

/-- The parts of a frame in the order in which `snapshotJson` writes them. -/
def frameParts (nowMs : UInt64) : List (DashboardHub → List Char) :=
  [fun hub => snprintf bufSize (hub.headerText nowMs),
    fun hub => rowsText levelText hub.bids,
    fun _ => "],\"asks\":[".toList,
    fun hub => rowsText levelText hub.asks,
    fun _ => "],\"fills\":[".toList,
    fun hub => rowsText fillText hub.fillRows,
    fun hub => snprintf bufSize (latencyText hub.stats),
    fun hub => snprintf bufSize hub.counterText]

theorem frameParts_text (hub : DashboardHub) (nowMs : UInt64) :
    (frameParts nowMs).flatMap (· hub) = hub.snapshotJson nowMs := by
  simp [frameParts, snapshotJson]

namespace HubThreads

/-! ## Steps -/

inductive EngineStep : HubThreads → HubThreads → Prop where
  | process {s : HubThreads} {e : MatchingEngine} (msg : EngineMessage) : s.engine = .pop →
      s.eng.process msg = some e →
      EngineStep s { s with eng := e, msgs := s.msgs ++ [msg], engine := .check }
  | empty {s : HubThreads} : s.engine = .pop → EngineStep s { s with engine := .check }
  | exit {s : HubThreads} : s.engine = .pop → EngineStep s { s with engine := .exited }
  | skip {s : HubThreads} : s.engine = .check → s.hub.bookWanted = false →
      EngineStep s { s with engine := .pop }
  | wanted {s : HubThreads} : s.engine = .check → s.hub.bookWanted = true →
      EngineStep s { s with engine := .tryLock }
  /-- a free lock may be missed too -/
  | miss {s : HubThreads} : s.engine = .tryLock → EngineStep s { s with engine := .pop }
  | lock {s : HubThreads} : s.engine = .tryLock → s.holder = none →
      EngineStep s { s with holder := some .engine, engine := .clear }
  | clear {s : HubThreads} : s.engine = .clear →
      EngineStep s { s with hub := { s.hub with bookWanted := false }, engine := .bids }
  | bids {s : HubThreads} {bids : List DashboardHub.Level} : s.engine = .bids →
      bidLadder s.eng.book = some bids →
      EngineStep s { s with hub := { s.hub with bids }, engine := .asks }
  | asks {s : HubThreads} {asks : List DashboardHub.Level} : s.engine = .asks →
      askLadder s.eng.book = some asks →
      EngineStep s { s with hub := { s.hub with asks }, engine := .totals }
  | totals {s : HubThreads} : s.engine = .totals →
      EngineStep s { s with
        hub := { s.hub with
          totalBids := s.eng.book.bidCount
          totalAsks := s.eng.book.askCount }
        shown := s.msgs.length
        engine := .unlock }
  | unlock {s : HubThreads} : s.engine = .unlock →
      EngineStep s { s with holder := none, engine := .pop }

inductive OutputStep : HubThreads → HubThreads → Prop where
  | publish {s : HubThreads} (stats : Stats) (rows : List FillRow) : s.output = .idle →
      OutputStep s { s with output := .lock stats rows }
  | lock {s : HubThreads} {stats : Stats} {rows : List FillRow} : s.output = .lock stats rows →
      s.holder = none → OutputStep s { s with holder := some .output, output := .stats stats rows }
  | stats {s : HubThreads} {stats : Stats} {rows : List FillRow} :
      s.output = .stats stats rows →
      OutputStep s { s with hub := { s.hub with stats }, output := .rows stats [] rows }
  | row {s : HubThreads} {stats : Stats} {done todo : List FillRow} {row : FillRow} :
      s.output = .rows stats done (row :: todo) →
      OutputStep s { s with
        hub := s.hub.pushFill row
        output := .rows stats (done ++ [row]) todo }
  | unlock {s : HubThreads} {stats : Stats} {done : List FillRow} :
      s.output = .rows stats done [] →
      OutputStep s { s with
        holder := none
        batches := s.batches ++ [(stats, done)]
        output := .idle }

inductive ServerStep : HubThreads → HubThreads → Prop where
  | request {s : HubThreads} : s.server = .idle →
      ServerStep s { s with
        hub := s.hub.requestBook
        asked := s.msgs.length
        server := .clock
          { since := s.asked, asked := s.msgs.length, answered := !s.hub.bookWanted } }
  | clock {s : HubThreads} {tick : Tick} (nowMs : UInt64) : s.server = .clock tick →
      ServerStep s { s with server := .lock tick nowMs }
  | lock {s : HubThreads} {tick : Tick} {nowMs : UInt64} : s.server = .lock tick nowMs →
      s.holder = none →
      ServerStep s { s with
        holder := some .server
        server := .read tick nowMs [] (frameParts nowMs) }
  | read {s : HubThreads} {tick : Tick} {nowMs : UInt64} {out : List Char}
      {part : DashboardHub → List Char} {todo : List (DashboardHub → List Char)} :
      s.server = .read tick nowMs out (part :: todo) →
      ServerStep s { s with server := .read tick nowMs (out ++ part s.hub) todo }
  | unlock {s : HubThreads} {tick : Tick} {nowMs : UInt64} {out : List Char} :
      s.server = .read tick nowMs out [] →
      ServerStep s { s with
        holder := none
        frames := s.frames ++
          [{ tick, nowMs, text := out, shown := s.shown, stored := s.batches.length }]
        server := .idle }

inductive Step (s t : HubThreads) : Prop where
  | engine : EngineStep s t → Step s t
  | output : OutputStep s t → Step s t
  | server : ServerStep s t → Step s t

/-- States reached by any interleaving, after main has configured the hub. -/
inductive Run (mode product : String) : HubThreads → Prop where
  | start : Run mode product { hub := DashboardHub.configure {} mode product }
  | step {s t : HubThreads} : Run mode product s → Step s t → Run mode product t

/-! ## The lock -/

end HubThreads

def PublishPc.holding : PublishPc → Bool
  | .clear | .bids | .asks | .totals | .unlock => true
  | _ => false

/-- The request is taken, and the book not yet complete. -/
def PublishPc.copying : PublishPc → Bool
  | .bids | .asks | .totals => true
  | _ => false

def StorePc.holding : StorePc → Bool
  | .stats _ _ | .rows _ _ _ => true
  | _ => false

def FramePc.holding : FramePc → Bool
  | .read _ _ _ _ => true
  | _ => false

namespace HubThreads

variable {mode product : String} {s t : HubThreads}

/-- A thread inside its critical section holds the lock. -/
structure Exclusive (s : HubThreads) : Prop where
  engine : s.engine.holding = true ↔ s.holder = some .engine
  output : s.output.holding = true ↔ s.holder = some .output
  server : s.server.holding = true ↔ s.holder = some .server

theorem Exclusive.step (h : Exclusive s) (hstep : Step s t) : Exclusive t := by
  obtain ⟨hengine, houtput, hserver⟩ := h
  cases hstep with
  | engine h =>
    cases h <;> constructor <;>
      simp_all [PublishPc.holding, StorePc.holding, FramePc.holding]
  | output h =>
    cases h <;> constructor <;>
      simp_all [PublishPc.holding, StorePc.holding, FramePc.holding]
  | server h =>
    cases h <;> constructor <;>
      simp_all [PublishPc.holding, StorePc.holding, FramePc.holding]

/-! ## The book -/

/-- The messages in the book that the hub has once the lock is free. -/
def current (s : HubThreads) : Nat := if s.engine.copying then s.msgs.length else s.shown

/-- Each part of the book is that of the last publish, or of the one under way. -/
structure BookInv (s : HubThreads) : Prop where
  eng : MatchingEngine.new.run s.msgs = some s.eng
  shown_le : s.shown ≤ s.msgs.length
  asked_le : s.asked ≤ s.msgs.length
  book : ∃ e, MatchingEngine.new.run (s.msgs.take s.shown) = some e ∧
    bidLadder (if s.engine = .asks ∨ s.engine = .totals then s.eng else e).book =
      some s.hub.bids ∧
    askLadder (if s.engine = .totals then s.eng else e).book = some s.hub.asks ∧
    s.hub.totalBids = e.book.bidCount ∧ s.hub.totalAsks = e.book.askCount
  fresh : s.hub.bookWanted = false → s.asked ≤ s.current

theorem run_concat (e : MatchingEngine) (msgs : List EngineMessage) (msg : EngineMessage) :
    e.run (msgs ++ [msg]) = (e.run msgs).bind (·.process msg) := by
  induction msgs generalizing e with
  | nil => cases h : e.process msg <;> simp [MatchingEngine.run, h]
  | cons m msgs ih =>
    cases h : e.process m <;> simp [MatchingEngine.run, h, ih]

theorem BookInv.start : BookInv { hub := DashboardHub.configure {} mode product } where
  eng := rfl
  shown_le := le_rfl
  asked_le := le_rfl
  book := ⟨.new, rfl, rfl, rfl, rfl, rfl⟩
  fresh _ := le_rfl

theorem BookInv.engine (h : BookInv s) (hstep : EngineStep s t) : BookInv t := by
  obtain ⟨heng, hshown, hasked, ⟨e, he, hbids, hasks, htotals⟩, hfresh⟩ := h
  cases hstep with
  | process msg hpc hproc =>
    simp only [hpc, reduceCtorEq, or_self, if_false] at hbids hasks
    have htake : (s.msgs ++ [msg]).take s.shown = s.msgs.take s.shown :=
      List.take_append_of_le_length hshown
    refine ⟨by simp [run_concat, heng, hproc], by simp; omega, by simp; omega,
      ⟨e, htake ▸ he, by simpa using hbids, by simpa using hasks, htotals⟩, ?_⟩
    simpa [current, hpc, PublishPc.copying] using hfresh
  | bids hpc hladder =>
    simp only [hpc, reduceCtorEq, or_self, if_false] at hbids hasks
    refine ⟨heng, hshown, hasked,
      ⟨e, he, by simpa using hladder, by simpa using hasks, htotals⟩, ?_⟩
    simpa [current, hpc, PublishPc.copying] using hfresh
  | asks hpc hladder =>
    simp only [hpc, reduceCtorEq, true_or, if_true, if_false] at hbids hasks
    refine ⟨heng, hshown, hasked,
      ⟨e, he, by simpa using hbids, by simpa using hladder, htotals⟩, ?_⟩
    simpa [current, hpc, PublishPc.copying] using hfresh
  | totals hpc =>
    simp only [hpc, or_true, if_true] at hbids hasks
    exact ⟨heng, le_rfl, hasked, ⟨s.eng, by simpa using heng, by simpa using hbids,
      by simpa using hasks, rfl, rfl⟩, fun _ => by simpa [current, PublishPc.copying] using hasked⟩
  | clear hpc =>
    simp only [hpc, reduceCtorEq, or_self, if_false] at hbids hasks
    exact ⟨heng, hshown, hasked, ⟨e, he, by simpa using hbids, by simpa using hasks, htotals⟩,
      fun _ => by simpa [current, PublishPc.copying] using hasked⟩
  | empty hpc | exit hpc | skip hpc _ | wanted hpc _ | miss hpc | lock hpc _ | unlock hpc =>
    simp only [hpc, reduceCtorEq, or_self, if_false] at hbids hasks
    refine ⟨heng, hshown, hasked, ⟨e, he, by simpa using hbids, by simpa using hasks, htotals⟩, ?_⟩
    simpa [current, hpc, PublishPc.copying] using hfresh

theorem BookInv.step (h : BookInv s) (hstep : Step s t) : BookInv t := by
  cases hstep with
  | engine hstep => exact h.engine hstep
  | output hstep => cases hstep <;> exact ⟨h.eng, h.shown_le, h.asked_le, h.book, h.fresh⟩
  | server hstep =>
    cases hstep with
    | request _ =>
      exact ⟨h.eng, h.shown_le, le_rfl, h.book, fun hdown => by cases hdown⟩
    | _ => exact ⟨h.eng, h.shown_le, h.asked_le, h.book, h.fresh⟩

/-! ## The tape -/

end HubThreads

/-- The rows stored so far, under the lock. -/
def StorePc.done : StorePc → List FillRow
  | .rows _ done _ => done
  | _ => []

def StorePc.stored : StorePc → Option Stats
  | .rows s _ _ => some s
  | _ => none

namespace HubThreads

variable {mode product : String} {s t : HubThreads}

def lastStats (batches : List (Stats × List FillRow)) : Stats :=
  (batches.getLast?.map (·.1)).getD {}

structure TapeInv (s : HubThreads) : Prop where
  ok : s.hub.TapeOk
  rows : s.hub.fillRows = (s.batches.flatMap (·.2) ++ s.output.done).rtake fillKeep
  stats : s.hub.stats = s.output.stored.getD (lastStats s.batches)

theorem TapeInv.start : TapeInv { hub := DashboardHub.configure {} mode product } where
  ok := ⟨TapeOk.new.size, TapeOk.new.head, TapeOk.new.count⟩
  rows := rfl
  stats := rfl

theorem TapeInv.output (h : TapeInv s) (hstep : OutputStep s t) : TapeInv t := by
  obtain ⟨hok, hrows, hstats⟩ := h
  cases hstep with
  | publish stats rows hpc | lock hpc _ =>
    simp only [hpc, StorePc.done, StorePc.stored] at hrows hstats
    exact ⟨hok, hrows, hstats⟩
  | stats hpc =>
    simp only [hpc, StorePc.done] at hrows
    exact ⟨⟨hok.size, hok.head, hok.count⟩, hrows, rfl⟩
  | row hpc =>
    simp only [hpc, StorePc.done, StorePc.stored] at hrows hstats
    refine ⟨hok.pushFill _, ?_, hstats⟩
    simp only [StorePc.done]
    rw [hok.rows_pushFill, hrows, ← List.append_assoc, rtake_rtake_append]
  | unlock hpc =>
    simp only [hpc, StorePc.done, StorePc.stored] at hrows hstats
    exact ⟨hok, by simpa [StorePc.done] using hrows,
      by simpa [StorePc.stored, lastStats] using hstats⟩

theorem TapeInv.step (h : TapeInv s) (hstep : Step s t) : TapeInv t := by
  cases hstep with
  | engine hstep =>
    cases hstep <;> exact ⟨⟨h.ok.size, h.ok.head, h.ok.count⟩, h.rows, h.stats⟩
  | output hstep => exact h.output hstep
  | server hstep =>
    cases hstep <;> exact ⟨⟨h.ok.size, h.ok.head, h.ok.count⟩, h.rows, h.stats⟩

/-! ## Frames -/

end HubThreads

def FramePc.tick : FramePc → Option Tick
  | .idle => none
  | .clock tick | .lock tick _ | .read tick _ _ _ => some tick

namespace HubThreads

variable {mode product : String} {s t : HubThreads}

/-- A frame of one state of the hub: the book after the first `f.shown` messages and the first
`f.stored` batches of fills. If the last request was answered, the book is not older than that
request. -/
def Whole (mode product : String) (msgs : List EngineMessage)
    (batches : List (Stats × List FillRow)) (f : SentFrame) : Prop :=
  f.shown ≤ msgs.length ∧ f.stored ≤ batches.length ∧
    (f.tick.answered = true → f.tick.since ≤ f.shown) ∧
    ∃ (hub : DashboardHub) (e : MatchingEngine), f.text = hub.snapshotJson f.nowMs ∧
      hub.mode = mode ∧ hub.product = product ∧
      MatchingEngine.new.run (msgs.take f.shown) = some e ∧
      TopOfBook e .bid hub.bids ∧ TopOfBook e .ask hub.asks ∧
      hub.totalBids = e.book.bidCount ∧ hub.totalAsks = e.book.askCount ∧
      hub.fillRows = ((batches.take f.stored).flatMap (·.2)).rtake fillKeep ∧
      hub.stats = lastStats (batches.take f.stored)

/-- A later frame: its tick comes next, and nothing in it is older. -/
def Follows (f g : SentFrame) : Prop :=
  g.tick.since = f.tick.asked ∧ f.shown ≤ g.shown ∧ f.stored ≤ g.stored

def lastAsked (frames : List SentFrame) : Nat := (frames.getLast?.map (·.tick.asked)).getD 0

theorem Whole.message {msgs : List EngineMessage} {batches : List (Stats × List FillRow)}
    {f : SentFrame} (h : Whole mode product msgs batches f) (msg : EngineMessage) :
    Whole mode product (msgs ++ [msg]) batches f := by
  obtain ⟨hshown, hstored, hanswered, hub, e, hframe⟩ := h
  refine ⟨by simp; omega, hstored, hanswered, hub, e, ?_⟩
  rwa [List.take_append_of_le_length hshown]

theorem Whole.batch {msgs : List EngineMessage} {batches : List (Stats × List FillRow)}
    {f : SentFrame} (h : Whole mode product msgs batches f) (batch : Stats × List FillRow) :
    Whole mode product msgs (batches ++ [batch]) f := by
  obtain ⟨hshown, hstored, hanswered, hub, e, hframe⟩ := h
  refine ⟨hshown, by simp; omega, hanswered, hub, e, ?_⟩
  rwa [List.take_append_of_le_length hstored]

structure FrameInv (mode product : String) (s : HubThreads) : Prop where
  config : s.hub.mode = mode ∧ s.hub.product = product
  /-- nobody writes while the server reads -/
  reading : ∀ tick nowMs out todo, s.server = .read tick nowMs out todo →
    out ++ todo.flatMap (· s.hub) = s.hub.snapshotJson nowMs
  idle : s.server = .idle → s.asked = lastAsked s.frames
  tick : ∀ tick, s.server.tick = some tick → tick.asked = s.asked ∧
    tick.since = lastAsked s.frames ∧ (tick.answered = true → tick.since ≤ s.current)
  whole : ∀ f ∈ s.frames, Whole mode product s.msgs s.batches f
  latest : ∀ f ∈ s.frames.getLast?, f.shown ≤ s.current ∧ f.stored ≤ s.batches.length
  chain : s.frames.IsChain Follows

/-- What the hub has to show never gets older. -/
theorem BookInv.current_le (h : BookInv s) (hstep : Step s t) : s.current ≤ t.current := by
  have hshown := h.shown_le
  rcases hstep with hstep | hstep | hstep <;> cases hstep <;>
    simp_all [current, PublishPc.copying]

theorem FrameInv.start :
    FrameInv mode product { hub := DashboardHub.configure {} mode product } where
  config := ⟨rfl, rfl⟩
  reading := by simp
  idle _ := rfl
  tick := by simp [FramePc.tick]
  whole := by simp
  latest := by simp
  chain := .nil

/-- Steps of the other threads. -/
theorem FrameInv.other (h : FrameInv mode product s) (hserver : t.server = s.server)
    (hframes : t.frames = s.frames) (hasked : t.asked = s.asked)
    (hconfig : t.hub.mode = s.hub.mode ∧ t.hub.product = s.hub.product)
    (hhub : s.server.holding = true → t.hub = s.hub) (hcurrent : s.current ≤ t.current)
    (hbatches : s.batches.length ≤ t.batches.length)
    (hwhole : ∀ f, Whole mode product s.msgs s.batches f →
      Whole mode product t.msgs t.batches f) : FrameInv mode product t where
  config := by simpa only [hconfig] using h.config
  reading tick nowMs out todo hread := by
    rw [hserver] at hread
    rw [hhub (by simp [hread, FramePc.holding])]
    exact h.reading tick nowMs out todo hread
  idle hidle := by simpa only [hframes, hasked] using h.idle (hserver ▸ hidle)
  tick tick htick := by
    obtain ⟨hask, hsince, hanswered⟩ := h.tick tick (hserver ▸ htick)
    exact ⟨hask.trans hasked.symm, by rwa [hframes], fun ha => (hanswered ha).trans hcurrent⟩
  whole f hf := hwhole f (h.whole f (hframes ▸ hf))
  latest f hf := by
    obtain ⟨hshown, hstored⟩ := h.latest f (hframes ▸ hf)
    exact ⟨hshown.trans hcurrent, hstored.trans hbatches⟩
  chain := hframes ▸ h.chain

theorem FrameInv.engine (h : FrameInv mode product s) (hlock : Exclusive s)
    (hcurrent : s.current ≤ t.current) (hstep : EngineStep s t) : FrameInv mode product t := by
  have hapart : s.engine.holding = true → s.server.holding ≠ true := fun he hs => by
    have := (hlock.engine.1 he).symm.trans (hlock.server.1 hs)
    cases this
  cases hstep with
  | process msg hpc hproc =>
    exact h.other rfl rfl rfl ⟨rfl, rfl⟩ (fun _ => rfl) hcurrent le_rfl fun f hf => hf.message msg
  | empty hpc | exit hpc | skip hpc _ | wanted hpc _ | miss hpc | lock hpc _ | unlock hpc =>
    exact h.other rfl rfl rfl ⟨rfl, rfl⟩ (fun _ => rfl) hcurrent le_rfl fun f hf => hf
  | clear hpc | bids hpc _ | asks hpc _ | totals hpc =>
    have hs := hapart (by simp [hpc, PublishPc.holding])
    exact h.other rfl rfl rfl ⟨rfl, rfl⟩ (fun hr => absurd hr hs) hcurrent le_rfl fun f hf => hf

theorem FrameInv.output (h : FrameInv mode product s) (hlock : Exclusive s)
    (hcurrent : s.current ≤ t.current) (hstep : OutputStep s t) : FrameInv mode product t := by
  have hapart : s.output.holding = true → s.server.holding ≠ true := fun ho hs => by
    have := (hlock.output.1 ho).symm.trans (hlock.server.1 hs)
    cases this
  cases hstep with
  | publish stats rows hpc | lock hpc _ =>
    exact h.other rfl rfl rfl ⟨rfl, rfl⟩ (fun _ => rfl) hcurrent le_rfl fun f hf => hf
  | stats hpc | row hpc =>
    have hs := hapart (by simp [hpc, StorePc.holding])
    exact h.other rfl rfl rfl ⟨rfl, rfl⟩ (fun hr => absurd hr hs) hcurrent le_rfl fun f hf => hf
  | unlock hpc =>
    exact h.other rfl rfl rfl ⟨rfl, rfl⟩ (fun _ => rfl) hcurrent (by simp) fun f hf => hf.batch _

/-- What a thread that holds the lock finds in the hub. -/
theorem BookInv.settled (h : BookInv s) (hengine : s.engine.holding = false) :
    s.current = s.shown ∧ ∃ e, MatchingEngine.new.run (s.msgs.take s.shown) = some e ∧
      TopOfBook e .bid s.hub.bids ∧ TopOfBook e .ask s.hub.asks ∧
      s.hub.totalBids = e.book.bidCount ∧ s.hub.totalAsks = e.book.askCount := by
  have hcopying : s.engine.copying = false := by
    cases hpc : s.engine <;> simp_all [PublishPc.holding, PublishPc.copying]
  have hpc : s.engine ≠ .asks ∧ s.engine ≠ .totals := by
    constructor <;> rintro hpc <;> simp [hpc, PublishPc.holding] at hengine
  refine ⟨by simp [current, hcopying], ?_⟩
  obtain ⟨e, hrun, hbids, hasks, htotals⟩ := h.book
  simp only [hpc.1, hpc.2, or_self, if_false] at hbids hasks
  obtain ⟨e', hrun', q, free, he, -⟩ := Simulates.new.run (s.msgs.take s.shown)
  obtain rfl : e' = e := Option.some.inj (hrun'.symm.trans hrun)
  obtain ⟨rows, hrows, htop⟩ := he.bidLadder
  obtain ⟨rows', hrows', htop'⟩ := he.askLadder
  obtain rfl : rows = s.hub.bids := Option.some.inj (hrows.symm.trans hbids)
  obtain rfl : rows' = s.hub.asks := Option.some.inj (hrows'.symm.trans hasks)
  exact ⟨e', hrun, htop, htop', htotals⟩

theorem TapeInv.settled (h : TapeInv s) (houtput : s.output.holding = false) :
    s.hub.fillRows = (s.batches.flatMap (·.2)).rtake fillKeep ∧
      s.hub.stats = lastStats s.batches := by
  obtain ⟨-, hrows, hstats⟩ := h
  cases hpc : s.output <;> simp_all [StorePc.holding, StorePc.done, StorePc.stored]

theorem FrameInv.sent (h : FrameInv mode product s) (hlock : Exclusive s) (hbook : BookInv s)
    (htape : TapeInv s) {tick : Tick} {nowMs : UInt64} {out : List Char}
    (hread : s.server = .read tick nowMs out []) :
    Whole mode product s.msgs s.batches
      { tick, nowMs, text := out, shown := s.shown, stored := s.batches.length } ∧
    s.current = s.shown := by
  have hholder := hlock.server.1 (by simp [hread, FramePc.holding])
  have hengine : s.engine.holding = false := by
    simpa [hholder] using hlock.engine
  have houtput : s.output.holding = false := by
    simpa [hholder] using hlock.output
  obtain ⟨hcurrent, e, hrun, hbids, hasks, hcounts⟩ := hbook.settled hengine
  obtain ⟨hrows, hstats⟩ := htape.settled houtput
  obtain ⟨-, -, hanswered⟩ := h.tick tick (by simp [hread, FramePc.tick])
  refine ⟨⟨hbook.shown_le, le_rfl, fun ha => hcurrent ▸ hanswered ha, s.hub, e, ?_, h.config.1,
    h.config.2, hrun, hbids, hasks, hcounts.1, hcounts.2, by simpa using hrows,
    by simpa using hstats⟩, hcurrent⟩
  simpa using h.reading _ _ _ _ hread

theorem FrameInv.server (h : FrameInv mode product s) (hlock : Exclusive s) (hbook : BookInv s)
    (htape : TapeInv s) (hstep : ServerStep s t) : FrameInv mode product t := by
  cases hstep with
  | request hpc =>
    refine ⟨h.config, by simp, by simp, fun tick htick => ?_, h.whole, h.latest, h.chain⟩
    obtain rfl := Option.some.inj htick
    refine ⟨rfl, h.idle hpc, fun hanswered => hbook.fresh ?_⟩
    simpa using hanswered
  | clock nowMs hpc =>
    refine ⟨h.config, by simp, by simp, fun tick htick => h.tick tick ?_, h.whole, h.latest,
      h.chain⟩
    rwa [hpc]
  | lock hpc hfree =>
    refine ⟨h.config, ?_, by simp, fun tick htick => h.tick tick ?_, h.whole, h.latest, h.chain⟩
    · rintro tick nowMs out todo ⟨⟩
      exact frameParts_text s.hub _
    · rwa [hpc]
  | read hpc =>
    refine ⟨h.config, ?_, by simp, fun tick htick => h.tick tick ?_, h.whole, h.latest, h.chain⟩
    · rintro tick nowMs out todo ⟨⟩
      simpa using h.reading _ _ _ _ hpc
    · rwa [hpc]
  | unlock hpc =>
    obtain ⟨hwhole, hcurrent⟩ := h.sent hlock hbook htape hpc
    obtain ⟨hasked, hsince, -⟩ := h.tick _ (congrArg FramePc.tick hpc)
    refine ⟨h.config, by simp, fun _ => by simpa [lastAsked] using hasked.symm,
      by simp [FramePc.tick], ?_, ?_, ?_⟩
    · simp only [List.mem_append, List.mem_singleton]
      rintro f (hf | rfl)
      exacts [h.whole f hf, hwhole]
    · simp only [List.getLast?_concat, Option.mem_some_iff]
      rintro f rfl
      exact ⟨hcurrent.ge, le_rfl⟩
    · refine List.isChain_append.2 ⟨h.chain, .singleton _, ?_⟩
      rintro f hf g ⟨⟩
      obtain ⟨hshown, hstored⟩ := h.latest f hf
      have hlast : lastAsked s.frames = f.tick.asked := by
        rw [lastAsked, Option.mem_def.1 hf]
        rfl
      exact ⟨hsince.trans hlast, hcurrent ▸ hshown, hstored⟩

/-- The engine can process any message, and both ladders can be read. -/
theorem BookInv.able (h : BookInv s) : (∀ msg, ∃ e, s.eng.process msg = some e) ∧
    (∃ bids, bidLadder s.eng.book = some bids) ∧ ∃ asks, askLadder s.eng.book = some asks := by
  obtain ⟨e, hrun, hsim⟩ := Simulates.new.run s.msgs
  obtain rfl : e = s.eng := Option.some.inj (hrun.symm.trans h.eng)
  obtain ⟨q, free, he, -⟩ := id hsim
  obtain ⟨bids, hbids, -⟩ := he.bidLadder
  obtain ⟨asks, hasks, -⟩ := he.askLadder
  refine ⟨fun msg => ?_, ⟨bids, hbids⟩, asks, hasks⟩
  obtain ⟨e', hproc, -⟩ := process_simulates hsim msg
  exact ⟨e', hproc⟩

/-! ## Every run -/

structure Inv (mode product : String) (s : HubThreads) : Prop where
  lock : Exclusive s
  book : BookInv s
  tape : TapeInv s
  frame : FrameInv mode product s

theorem Inv.step (h : Inv mode product s) (hstep : Step s t) : Inv mode product t := by
  obtain ⟨hlock, hbook, htape, hframe⟩ := h
  refine ⟨hlock.step hstep, hbook.step hstep, htape.step hstep, ?_⟩
  have hcurrent := hbook.current_le hstep
  cases hstep with
  | engine hstep => exact hframe.engine hlock hcurrent hstep
  | output hstep => exact hframe.output hlock hcurrent hstep
  | server hstep => exact hframe.server hlock hbook htape hstep

theorem run_inv (h : Run mode product s) : Inv mode product s := by
  induction h with
  | start =>
    refine ⟨?_, .start, .start, .start⟩
    constructor <;> simp [PublishPc.holding, StorePc.holding, FramePc.holding]
  | step _ hstep ih => exact ih.step hstep

/-- Every frame was made from one state of the hub, though it was read part by part while other
threads ran: one book, complete batches of fills, and the statistics of the last of them. A later
frame shows nothing older. If the request of the tick before was answered by now, the book is at
least as new as that request. -/
theorem run_frames_whole (h : Run mode product s) :
    (∀ f ∈ s.frames, Whole mode product s.msgs s.batches f) ∧ s.frames.IsChain Follows :=
  ⟨(run_inv h).frame.whole, (run_inv h).frame.chain⟩

theorem Run.reads {tick : Tick} {nowMs : UInt64} {out : List Char}
    {todo : List (DashboardHub → List Char)}
    (h : Run mode product { s with server := .read tick nowMs out todo }) :
    Run mode product { s with server := .read tick nowMs (out ++ todo.flatMap (· s.hub)) [] } := by
  induction todo generalizing out with
  | nil => simpa using h
  | cons part todo ih => simpa using ih (h.step (.server (.read rfl)))

/-- A frame is made while no other thread runs. -/
theorem Run.frame (h : Run mode product s) {tick : Tick} {nowMs : UInt64}
    (hserver : s.server = .lock tick nowMs) (hfree : s.holder = none) :
    Run mode product { s with
      frames := s.frames ++
        [{ tick, nowMs, text := s.hub.snapshotJson nowMs, shown := s.shown
           stored := s.batches.length }]
      server := .idle } := by
  have hlock := h.step (.server (.lock hserver hfree))
  have hread := Run.reads (s := { s with holder := some .server }) hlock
  have hsent := hread.step (.server (.unlock rfl))
  simpa [← hfree, frameParts_text] using hsent

def restingBid : EngineMessage :=
  .newOrder { id := 1, side := .bid, type := .limit, price := 100, quantity := 2, timestamp := 1 }

def firstRow : FillRow := { seq := 1, tsMs := 5, price := 10050, qty := 3, takerIsBid := true }

/-- The engine answers the first request while it takes an order. A fill is published before the
second frame. -/
theorem run_frames_whole_two : ∃ s f g, Run "live" "BTC-USD" s ∧ s.msgs = [restingBid] ∧
    s.batches = [({ fills := 1 }, [firstRow])] ∧ s.frames = [f, g] ∧
    f.shown = 1 ∧ f.stored = 0 ∧ g.tick.answered = true ∧ g.stored = 1 ∧
    Whole "live" "BTC-USD" s.msgs s.batches f ∧ Whole "live" "BTC-USD" s.msgs s.batches g ∧
    Follows f g := by
  have h : Run "live" "BTC-USD" _ := .start
  replace h := h.step (.server (.request rfl))
  obtain ⟨e, hprocess⟩ := (run_inv h).book.able.1 restingBid
  replace h := h.step (.engine (.process restingBid rfl hprocess))
  replace h := h.step (.engine (.wanted rfl rfl))
  replace h := h.step (.engine (.lock rfl rfl))
  replace h := h.step (.engine (.clear rfl))
  replace h := h.step (.server (.clock 7 rfl))
  obtain ⟨-, ⟨bids, hbids⟩, asks, hasks⟩ := (run_inv h).book.able
  replace h := h.step (.engine (.bids rfl hbids))
  replace h := h.step (.engine (.asks rfl hasks))
  replace h := h.step (.engine (.totals rfl))
  replace h := h.step (.engine (.unlock rfl))
  replace h := h.frame rfl rfl
  replace h := h.step (.output (.publish { fills := 1 } [firstRow] rfl))
  replace h := h.step (.server (.request rfl))
  replace h := h.step (.output (.lock rfl rfl))
  replace h := h.step (.output (.stats rfl))
  replace h := h.step (.output (.row rfl))
  replace h := h.step (.server (.clock 8 rfl))
  replace h := h.step (.output (.unlock rfl))
  replace h := h.frame rfl rfl
  obtain ⟨hwhole, hchain⟩ := run_frames_whole h
  exact ⟨_, _, _, h, rfl, rfl, rfl, rfl, rfl, rfl, rfl, hwhole _ (.head _),
    hwhole _ (.tail _ (.head _)), List.isChain_pair.1 hchain⟩

/-! ## Progress -/

/-- One step of one of the threads. -/
def StepOf : HubThread → HubThreads → HubThreads → Prop
  | .engine => EngineStep
  | .output => OutputStep
  | .server => ServerStep

theorem BookInv.engine_steps (h : BookInv s) (hpc : s.engine ≠ .exited) :
    ∃ t, EngineStep s t := by
  obtain ⟨-, ⟨bids, hbids⟩, asks, hasks⟩ := h.able
  cases he : s.engine with
  | pop => exact ⟨_, .empty he⟩
  | check =>
    cases hflag : s.hub.bookWanted with
    | false => exact ⟨_, .skip he hflag⟩
    | true => exact ⟨_, .wanted he hflag⟩
  | tryLock => exact ⟨_, .miss he⟩
  | clear => exact ⟨_, .clear he⟩
  | bids => exact ⟨_, .bids he hbids⟩
  | asks => exact ⟨_, .asks he hasks⟩
  | totals => exact ⟨_, .totals he⟩
  | unlock => exact ⟨_, .unlock he⟩
  | exited => exact absurd he hpc

theorem Inv.holder_steps (h : Inv mode product s) {thread : HubThread}
    (hholder : s.holder = some thread) : ∃ t, StepOf thread s t := by
  cases thread with
  | engine =>
    have hpc := h.lock.engine.2 hholder
    exact h.book.engine_steps fun he => by simp [he, PublishPc.holding] at hpc
  | output =>
    have hpc := h.lock.output.2 hholder
    cases ho : s.output with
    | idle => simp [ho, StorePc.holding] at hpc
    | lock stats rows => simp [ho, StorePc.holding] at hpc
    | stats stats rows => exact ⟨_, OutputStep.stats ho⟩
    | rows stats done todo =>
      cases todo with
      | nil => exact ⟨_, OutputStep.unlock ho⟩
      | cons row todo => exact ⟨_, OutputStep.row ho⟩
  | server =>
    have hpc := h.lock.server.2 hholder
    cases hs : s.server with
    | idle => simp [hs, FramePc.holding] at hpc
    | clock tick => simp [hs, FramePc.holding] at hpc
    | lock tick nowMs => simp [hs, FramePc.holding] at hpc
    | read tick nowMs out todo =>
      cases todo with
      | nil => exact ⟨_, ServerStep.unlock hs⟩
      | cons part todo => exact ⟨_, ServerStep.read hs⟩

/-- The engine never waits: it can go on with any message and whoever has the lock. The holder of
the lock can go on too. If the engine looks for a request, there is one and the lock is free, it
can publish the book of now. -/
theorem run_engine_free (h : Run mode product s) :
    (s.engine ≠ .exited → ∃ t, EngineStep s t) ∧
      (s.engine = .pop → ∀ msg, ∃ t, EngineStep s t ∧ t.msgs = s.msgs ++ [msg]) ∧
      (∀ thread, s.holder = some thread → ∃ t, StepOf thread s t) ∧
      (s.engine = .check → s.hub.bookWanted = true → s.holder = none →
        ∃ t, Relation.ReflTransGen EngineStep s t ∧ t.engine = .pop ∧ t.holder = none ∧
          t.hub.bookWanted = false ∧ t.shown = s.msgs.length ∧ t.msgs = s.msgs) := by
  have hinv := run_inv h
  obtain ⟨hprocess, ⟨bids, hbids⟩, asks, hasks⟩ := hinv.book.able
  refine ⟨hinv.book.engine_steps, fun hpc msg => ?_, fun _ => hinv.holder_steps,
    fun hpc hwanted hfree => ?_⟩
  · obtain ⟨e, hproc⟩ := hprocess msg
    exact ⟨_, .process msg hpc hproc, rfl⟩
  · have hlock := Relation.ReflTransGen.single (EngineStep.wanted hpc hwanted)
    have hclear := (hlock.tail (.lock rfl hfree)).tail (.clear rfl)
    have hcopied := (hclear.tail (.bids rfl hbids)).tail (.asks rfl hasks)
    exact ⟨_, (hcopied.tail (.totals rfl)).tail (.unlock rfl), rfl, rfl, rfl, rfl, rfl⟩

theorem run_engine_free_requested : ∃ s t, Run "live" "BTC-USD" s ∧ s.hub.bookWanted = true ∧
    Relation.ReflTransGen EngineStep s t ∧ t.hub.bookWanted = false := by
  have h : Run "live" "BTC-USD" _ := .start
  replace h := h.step (.server (.request rfl))
  replace h := h.step (.engine (.empty rfl))
  obtain ⟨t, hsteps, -, -, hflag, -⟩ := (run_engine_free h).2.2.2 rfl rfl rfl
  exact ⟨_, t, h, rfl, hsteps, hflag⟩

end HubThreads

end LockfreeMatching
