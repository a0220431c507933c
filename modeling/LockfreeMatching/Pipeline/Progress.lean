import LockfreeMatching.Core.Refinement
import LockfreeMatching.Lib.Fairness
import LockfreeMatching.Pipeline.Shutdown
import Mathlib.Data.Prod.Lex

/-!
# Progress of the pipeline

Runs of the pipeline in which the scheduler is fair: no thread that could go on is left out
forever. The threads that poll a ring or a flag go on polling. Main waits in its joins, and before
the shutdown until the flag is set. Of a live feed nothing is assumed but that it returns.

## Main results

* `FairPipeline.run_shuts_down`: once the flag is set all threads exit, whatever the rings hold.
* `FairPipeline.run_delivers`: what a ring has taken reaches the thread that empties it, if main
  stores no stop flag inside a window.
-/
namespace LockfreeMatching

open Lib

inductive PipelineThread where
  | ingest
  | engine
  | output
  | main
  /-- the delivery of a signal -/
  | signal
  deriving DecidableEq

namespace PipelineThread

def step : PipelineThread → Pipeline → Pipeline → Prop
  | ingest => RunIngest
  | engine => RunEngine
  | output => RunOutput
  | main => RunMain
  | signal => fun s t => t = { s with shutdown := true }

/-- What main waits for. -/
def waitsFor : MainPc → Pipeline → Prop
  | .wait, s => s.shutdown = true
  | .joinIngest, s => s.ingest = .exited
  | .storeEngineStop, _ => True
  | .joinEngine, s => s.engine = .exited
  | .storeOutputStop, _ => True
  | .joinOutput, s => s.consumer = .exited
  | .done, _ => False

/-- The thread can go on without an event from outside. -/
def ready : PipelineThread → Pipeline → Prop
  | ingest, s => s.ingest ≠ .exited ∧ s.ingest ≠ .live
  | engine, s => s.engine ≠ .exited
  | output, s => s.consumer ≠ .exited
  | main, s => waitsFor s.main s
  | signal, _ => False

theorem step_iff {s t : Pipeline} : PipelineStep s t ↔ ∃ th, step th s t := by
  constructor
  · intro h
    cases h with
    | ingest h => exact ⟨ingest, h⟩
    | engine h => exact ⟨engine, h⟩
    | output h => exact ⟨output, h⟩
    | main h => exact ⟨main, h⟩
    | signal => exact ⟨signal, rfl⟩
  · rintro ⟨th, h⟩
    cases th with
    | ingest => exact .ingest h
    | engine => exact .engine h
    | output => exact .output h
    | main => exact .main h
    | signal =>
      obtain rfl : t = _ := h
      exact .signal s

end PipelineThread

open PipelineThread

/-! ## What main knows -/

/-- Main has stored `engine_stop`. -/
def MainPc.engineStopped : MainPc → Prop
  | .wait | .joinIngest | .storeEngineStop => False
  | _ => True

/-- Main has stored `output_stop`. -/
def MainPc.outputStopped : MainPc → Prop
  | .joinOutput | .done => True
  | _ => False

/-- Main has joined every thread it is past, and the engine can process any message. -/
structure Staged (s : Pipeline) : Prop where
  simulated : ∃ ref, Simulates s.eng ref
  shutdown : s.main ≠ .wait → s.shutdown = true
  ingestJoined : s.main.ingestJoined → s.ingest = .exited
  engineStop : s.main.engineStopped → s.engineStop = true
  engineJoined : s.main.engineJoined → s.engine = .exited
  outputStop : s.main.outputStopped → s.outputStop = true
  outputJoined : s.main = .done → s.consumer = .exited

namespace Staged

variable {s t : Pipeline}

theorem synthetic : Staged .synthetic := by
  refine ⟨⟨_, .new⟩, ?_, ?_, ?_, ?_, ?_, ?_⟩ <;>
    simp [Pipeline.synthetic, MainPc.ingestJoined, MainPc.engineStopped, MainPc.engineJoined,
      MainPc.outputStopped]

theorem live : Staged .live := by
  refine ⟨⟨_, .new⟩, ?_, ?_, ?_, ?_, ?_, ?_⟩ <;>
    simp [Pipeline.live, MainPc.ingestJoined, MainPc.engineStopped, MainPc.engineJoined,
      MainPc.outputStopped]

/-- A thread that is still running was not joined. -/
theorem runIngest (h : Staged s) (hstep : RunIngest s t) : Staged t := by
  have hrunning : s.ingest ≠ .exited := by cases hstep <;> simp_all
  have hjoined : ¬ s.main.ingestJoined := fun hj => hrunning (h.ingestJoined hj)
  obtain ⟨hsim, hshut, -, hes, hej, hos, hoj⟩ := h
  cases hstep <;> exact ⟨hsim, hshut, fun hj => absurd hj hjoined, hes, hej, hos, hoj⟩

theorem runEngine (h : Staged s) (hstep : RunEngine s t) : Staged t := by
  have hrunning : s.engine ≠ .exited := by cases hstep <;> simp_all
  have hjoined : ¬ s.main.engineJoined := fun hj => hrunning (h.engineJoined hj)
  obtain ⟨hsim, hshut, hij, hes, -, hos, hoj⟩ := h
  cases hstep with
  | process _ _ _ hproc =>
    obtain ⟨ref, hsim⟩ := hsim
    obtain ⟨e, he, -, hsim'⟩ := process_simulates hsim ‹_›
    obtain rfl := Option.some.inj (he.symm.trans hproc)
    exact ⟨⟨_, hsim'⟩, hshut, hij, hes, fun hj => absurd hj hjoined, hos, hoj⟩
  | _ => exact ⟨hsim, hshut, hij, hes, fun hj => absurd hj hjoined, hos, hoj⟩

theorem runOutput (h : Staged s) (hstep : RunOutput s t) : Staged t := by
  have hrunning : s.consumer ≠ .exited := by cases hstep <;> simp_all
  have hjoined : s.main ≠ .done := fun hj => hrunning (h.outputJoined hj)
  obtain ⟨hsim, hshut, hij, hes, hej, hos, -⟩ := h
  cases hstep <;> exact ⟨hsim, hshut, hij, hes, hej, hos, fun hj => absurd hj hjoined⟩

theorem runMain (h : Staged s) (hstep : RunMain s t) : Staged t := by
  obtain ⟨hsim, hshut, hij, hes, hej, hos, -⟩ := h
  cases hstep <;> refine ⟨hsim, ?_, ?_, ?_, ?_, ?_, ?_⟩ <;>
    simp_all [MainPc.ingestJoined, MainPc.engineStopped, MainPc.engineJoined,
      MainPc.outputStopped]

theorem step (h : Staged s) (th : PipelineThread) (hstep : th.step s t) : Staged t := by
  cases th with
  | ingest => exact h.runIngest hstep
  | engine => exact h.runEngine hstep
  | output => exact h.runOutput hstep
  | main => exact h.runMain hstep
  | signal =>
    obtain rfl : t = _ := hstep
    exact ⟨h.simulated, fun _ => rfl, h.ingestJoined, h.engineStop, h.engineJoined, h.outputStop,
      h.outputJoined⟩

theorem ingest_ready (s : Pipeline) (hready : ready ingest s) : ∃ t, RunIngest s t := by
  obtain ⟨hexited, hlive⟩ := hready
  cases hpc : s.ingest with
  | loadShutdown =>
    cases hshut : s.shutdown with
    | false => exact ⟨_, .generate (.cancel { id := 0 }) hpc hshut⟩
    | true => exact ⟨_, .stop hpc hshut⟩
  | push msg =>
    cases hpush : s.input.tryPush feedQueueSize msg with
    | none => exact ⟨_, .full hpc hpush⟩
    | some r => exact ⟨_, .push hpc hpush⟩
  | reloadShutdown msg =>
    cases hshut : s.shutdown with
    | false => exact ⟨_, .retry hpc hshut⟩
    | true => exact ⟨_, .giveUp hpc hshut⟩
  | live => exact absurd hpc hlive
  | exited => exact absurd hpc hexited

theorem engine_ready (h : Staged s) (hready : ready engine s) : ∃ t, RunEngine s t := by
  cases hpc : s.engine with
  | pop =>
    cases hpop : s.input.tryPop with
    | none => exact ⟨_, .empty hpc hpop⟩
    | some r => exact ⟨_, .pop hpc hpop⟩
  | process msg =>
    obtain ⟨ref, hsim⟩ := h.simulated
    obtain ⟨e, hproc, -, -⟩ := process_simulates hsim msg
    exact ⟨_, .process 0 0 hpc hproc⟩
  | emit work =>
    match work with
    | [] => exact ⟨_, .next hpc⟩
    | .sample x :: work =>
      cases hpush : s.latency.tryPush latencyQueueSize x with
      | none => exact ⟨_, .dropSample hpc hpush⟩
      | some r => exact ⟨_, .pushSample hpc hpush⟩
    | .fill f :: work =>
      cases hpush : s.output.tryPush feedQueueSize f with
      | none => exact ⟨_, .dropFill hpc hpush⟩
      | some r => exact ⟨_, .pushFill hpc hpush⟩
  | loadStop =>
    cases hstop : s.engineStop with
    | false => exact ⟨_, .relax hpc hstop⟩
    | true => exact ⟨_, .stop hpc hstop⟩
  | exited => exact absurd hpc hready

theorem output_ready (s : Pipeline) (hready : ready output s) : ∃ t, RunOutput s t := by
  cases hpc : s.consumer with
  | drain i w =>
    rcases Nat.lt_or_ge i 4096 with hi | hi
    · cases hpop : s.latency.tryPop with
      | none => exact ⟨_, .noSample hpc hi hpop⟩
      | some r => exact ⟨_, .popSample hpc hi hpop⟩
    · exact ⟨_, .batch hpc hi⟩
  | popFill w =>
    cases hpop : s.output.tryPop with
    | some r => exact ⟨_, .popFill hpc hpop⟩
    | none =>
      cases w with
      | false => exact ⟨_, .idle hpc hpop⟩
      | true => exact ⟨_, .again hpc hpop⟩
  | loadStop =>
    cases hstop : s.outputStop with
    | false => exact ⟨_, .sleep hpc hstop⟩
    | true => exact ⟨_, .stop hpc hstop⟩
  | exited => exact absurd hpc hready

theorem main_ready (s : Pipeline) (hready : ready main s) : ∃ t, RunMain s t := by
  have hmain : waitsFor s.main s := hready
  cases hpc : s.main <;> rw [hpc] at hmain
  case wait => exact ⟨_, .notice hpc hmain⟩
  case joinIngest => exact ⟨_, .joinIngest hpc hmain⟩
  case storeEngineStop => exact ⟨_, .storeEngineStop hpc⟩
  case joinEngine => exact ⟨_, .joinEngine hpc hmain⟩
  case storeOutputStop => exact ⟨_, .storeOutputStop hpc⟩
  case joinOutput => exact ⟨_, .joinOutput hpc hmain⟩
  case done => exact hmain.elim

/-- A thread that is ready can take a step. -/
theorem ready_step (h : Staged s) {th : PipelineThread} (hready : th.ready s) :
    ∃ t, th.step s t := by
  cases th with
  | ingest => exact ingest_ready s hready
  | engine => exact h.engine_ready hready
  | output => exact output_ready s hready
  | main => exact main_ready s hready
  | signal => exact hready.elim

end Staged

/-! ## What the other threads leave alone -/

section Frame

variable {s t : Pipeline} {th : PipelineThread}

theorem ingest_frame (hth : th ≠ ingest) (hstep : th.step s t) : t.ingest = s.ingest := by
  cases th with
  | ingest => exact absurd rfl hth
  | signal => rw [show t = _ from hstep]
  | engine | output | main => cases hstep <;> rfl

theorem engine_frame (hth : th ≠ engine) (hstep : th.step s t) :
    t.engine = s.engine ∧ t.processed = s.processed := by
  cases th with
  | engine => exact absurd rfl hth
  | signal => simp [show t = _ from hstep]
  | ingest | output | main => cases hstep <;> exact ⟨rfl, rfl⟩

theorem output_frame (hth : th ≠ output) (hstep : th.step s t) :
    t.consumer = s.consumer ∧ t.logged = s.logged ∧ t.recorded = s.recorded := by
  cases th with
  | output => exact absurd rfl hth
  | signal => simp [show t = _ from hstep]
  | ingest | engine | main => cases hstep <;> exact ⟨rfl, rfl, rfl⟩

theorem main_frame (hth : th ≠ main) (hstep : th.step s t) : t.main = s.main := by
  cases th with
  | main => exact absurd rfl hth
  | signal => rw [show t = _ from hstep]
  | ingest | engine | output => cases hstep <;> rfl

theorem shutdown_stable (th : PipelineThread) (hstep : th.step s t) (h : s.shutdown = true) :
    t.shutdown = true := by
  cases th with
  | signal => rw [show t = _ from hstep]
  | ingest | engine | output | main => cases hstep <;> first | exact h | rfl

theorem ingest_exited_stable (th : PipelineThread) (hstep : th.step s t)
    (h : s.ingest = .exited) : t.ingest = .exited := by
  by_cases hth : th = ingest
  · subst hth
    cases hstep <;> simp_all
  · exact (ingest_frame hth hstep).trans h

theorem engine_exited_stable (th : PipelineThread) (hstep : th.step s t)
    (h : s.engine = .exited) : t.engine = .exited := by
  by_cases hth : th = engine
  · subst hth
    cases hstep <;> simp_all
  · exact (engine_frame hth hstep).1.trans h

theorem output_exited_stable (th : PipelineThread) (hstep : th.step s t)
    (h : s.consumer = .exited) : t.consumer = .exited := by
  by_cases hth : th = output
  · subst hth
    cases hstep <;> simp_all
  · exact (output_frame hth hstep).1.trans h

theorem not_live_stable (th : PipelineThread) (hstep : th.step s t) (h : s.ingest ≠ .live) :
    t.ingest ≠ .live := by
  by_cases hth : th = ingest
  · subst hth
    cases hstep <;> simp_all
  · exact fun hlive => h ((ingest_frame hth hstep).symm.trans hlive)

end Frame

/-! ## A run -/

namespace FairPipeline

/-- A step that stores no stop flag inside a window. -/
def clearStep (th : PipelineThread) (s t : Pipeline) : Prop :=
  th.step s t ∧ (th = main → StopsClear s)

theorem stopsClear_of_polling {s : Pipeline} (he : s.engine = .pop ∨ s.engine = .exited)
    (ho : s.consumer = .drain 0 false ∨ s.consumer = .exited) : StopsClear s := by
  constructor
  · rintro - ⟨hw, -⟩
    rcases he with he | he <;> simp [he] at hw
  · rintro - (⟨hw, -⟩ | ⟨hw, -⟩) <;> rcases ho with ho | ho <;> simp [ho] at hw

/-- One message goes through all stages. The signal comes when its sample is still queued. -/
def strayCancelSchedule : Schedule clearStep :=
  let p := Schedule.start clearStep signal .synthetic
  let p := p.snoc ingest ⟨RunIngest.generate strayCancel rfl rfl, nofun⟩
  let p := p.snoc ingest ⟨RunIngest.push rfl rfl, nofun⟩
  let p := p.snoc engine ⟨RunEngine.pop rfl rfl, nofun⟩
  let p := p.snoc engine ⟨RunEngine.process (e := .new) 0 5 rfl rfl, nofun⟩
  let p := p.snoc engine ⟨RunEngine.pushSample rfl rfl, nofun⟩
  let p := p.snoc engine ⟨RunEngine.next rfl, nofun⟩
  let p := p.snoc signal ⟨rfl, nofun⟩
  let p := p.snoc ingest ⟨RunIngest.stop rfl rfl, nofun⟩
  let p := p.snoc main ⟨RunMain.notice rfl rfl,
    fun _ => stopsClear_of_polling (.inl rfl) (.inl rfl)⟩
  let p := p.snoc main ⟨RunMain.joinIngest rfl rfl,
    fun _ => stopsClear_of_polling (.inl rfl) (.inl rfl)⟩
  let p := p.snoc main ⟨RunMain.storeEngineStop rfl,
    fun _ => stopsClear_of_polling (.inl rfl) (.inl rfl)⟩
  let p := p.snoc engine ⟨RunEngine.empty rfl rfl, nofun⟩
  let p := p.snoc engine ⟨RunEngine.stop rfl rfl, nofun⟩
  let p := p.snoc main ⟨RunMain.joinEngine rfl rfl,
    fun _ => stopsClear_of_polling (.inr rfl) (.inl rfl)⟩
  let p := p.snoc main ⟨RunMain.storeOutputStop rfl,
    fun _ => stopsClear_of_polling (.inr rfl) (.inl rfl)⟩
  let p := p.snoc output ⟨RunOutput.popSample rfl (by decide) rfl, nofun⟩
  let p := p.snoc output ⟨RunOutput.noSample rfl (by decide) rfl, nofun⟩
  let p := p.snoc output ⟨RunOutput.again rfl rfl, nofun⟩
  let p := p.snoc output ⟨RunOutput.noSample rfl (by decide) rfl, nofun⟩
  let p := p.snoc output ⟨RunOutput.idle rfl rfl, nofun⟩
  let p := p.snoc output ⟨RunOutput.stop rfl rfl, nofun⟩
  p.snoc main ⟨RunMain.joinOutput rfl rfl, fun _ => stopsClear_of_polling (.inr rfl) (.inr rfl)⟩

def strayCancelRun (n : Nat) : Pipeline :=
  strayCancelSchedule.run (min n strayCancelSchedule.length)

/-- After the end there are only signals. -/
def strayCancelThread (n : Nat) : PipelineThread :=
  if n < strayCancelSchedule.length then strayCancelSchedule.who n else signal

theorem strayCancel_clear : FairRun clearStep ready strayCancelRun strayCancelThread := by
  refine strayCancelSchedule.fairRun ⟨rfl, nofun⟩ fun th hready => ?_
  cases th with
  | ingest => exact hready.1 rfl
  | engine | output => exact hready rfl
  | main | signal => exact hready

theorem strayCancel_fairRun :
    FairRun PipelineThread.step ready strayCancelRun strayCancelThread :=
  ⟨fun n => (strayCancel_clear.step n).1, strayCancel_clear.fair⟩

end FairPipeline

/-! ## Shutdown -/

/-- The steps of main in their order. -/
def MainPc.stage : MainPc → Nat
  | .wait => 0
  | .joinIngest => 1
  | .storeEngineStop => 2
  | .joinEngine => 3
  | .storeOutputStop => 4
  | .joinOutput => 5
  | .done => 6

theorem MainPc.stage_inj {p q : MainPc} (h : p.stage = q.stage) : p = q := by
  cases p <;> cases q <;> first | rfl | cases h

theorem main_stage {s t : Pipeline} (hstep : RunMain s t) : t.main.stage = s.main.stage + 1 := by
  cases hstep <;> simp_all [MainPc.stage]

theorem stage_stable {s t : Pipeline} {k : Nat} (th : PipelineThread) (h : k ≤ s.main.stage)
    (hstep : th.step s t) : k ≤ t.main.stage := by
  by_cases hth : th = main
  · subst hth
    rw [main_stage hstep]
    omega
  · rwa [main_frame hth hstep]

def IngestPc.left : IngestPc → Nat
  | .push _ => 2
  | .loadShutdown | .reloadShutdown _ => 1
  | .live | .exited => 0

/-- Once `engine_stop` is set an empty ring leads out of the loop. -/
def EnginePc.left : EnginePc → Nat
  | .emit work => work.length + 3
  | .pop => 2
  | .loadStop => 1
  | .process _ | .exited => 0

/-- Once `output_stop` is set an iteration without work leads out of the loop. -/
def OutputPc.left : OutputPc → Nat
  | .drain _ true => 5
  | .popFill true => 4
  | .drain _ false => 3
  | .popFill false => 2
  | .loadStop => 1
  | .exited => 0

/-- What the engine has to do before it can exit. -/
def engineRank (s : Pipeline) : Nat ×ₗ Nat :=
  toLex (2 * s.input.queue.length + s.engine.held.length, s.engine.left)

def outputRank (s : Pipeline) : Nat ×ₗ Nat :=
  toLex (s.latency.queue.length + s.output.queue.length, s.consumer.left)

theorem engineRank_lt {s t : Pipeline} (hstop : s.engineStop = true) (hstep : RunEngine s t) :
    t.engine = .exited ∨ engineRank t < engineRank s := by
  unfold engineRank
  rw [Prod.Lex.toLex_lt_toLex]
  cases hstep with
  | pop hpc hr =>
    obtain ⟨hq, -, -⟩ := Ring.tryPop_eq hr
    right; left
    simp only [hq, List.length_cons, hpc, EnginePc.held, List.length_nil]
    omega
  | process _ _ hpc _ =>
    right; left
    simp [hpc, EnginePc.held]
  | stop => exact .inl rfl
  | relax _ hrun => rw [hstop] at hrun; cases hrun
  | empty hpc _ | pushSample hpc _ | dropSample hpc _ | pushFill hpc _ | dropFill hpc _
  | next hpc =>
    right; right
    simp [hpc, EnginePc.held, EnginePc.left]

theorem outputRank_lt {s t : Pipeline} (hstop : s.outputStop = true) (hstep : RunOutput s t) :
    t.consumer = .exited ∨ outputRank t < outputRank s := by
  unfold outputRank
  rw [Prod.Lex.toLex_lt_toLex]
  cases hstep with
  | popSample hpc _ hr =>
    obtain ⟨hq, -, -⟩ := Ring.tryPop_eq hr
    right; left
    simp only [hq, List.length_cons]
    omega
  | popFill hpc hr =>
    obtain ⟨hq, -, -⟩ := Ring.tryPop_eq hr
    right; left
    simp only [hq, List.length_cons]
    omega
  | @noSample _ w hpc | @batch _ w hpc =>
    right; right
    cases w <;> simp [hpc, OutputPc.left]
  | again hpc _ | idle hpc _ =>
    right; right
    simp [hpc, OutputPc.left]
  | stop => exact .inl rfl
  | sleep _ hrun => rw [hstop] at hrun; cases hrun

namespace FairPipeline

variable {run : Nat → Pipeline} {who : Nat → PipelineThread} {n : Nat}

theorem staged (h : FairRun PipelineThread.step ready run who)
    (hstart : run 0 = .synthetic ∨ run 0 = .live) (n : Nat) : Staged (run n) := by
  refine h.stable Staged (fun th s t hs hstep => hs.step th hstep) ?_ n (Nat.zero_le n)
  rcases hstart with h0 | h0 <;> rw [h0]
  · exact .synthetic
  · exact .live

theorem stage_le (h : FairRun PipelineThread.step ready run who) {k : Nat}
    (hk : k ≤ (run n).main.stage) : ∀ m, n ≤ m → k ≤ (run m).main.stage :=
  h.stable (fun s => k ≤ s.main.stage) (fun th _ _ hs hstep => stage_stable th hs hstep) hk

/-- Main leaves a step if what it waits for there stays true. -/
theorem main_advances (h : FairRun PipelineThread.step ready run who) (pc : MainPc)
    (hstage : pc.stage ≤ (run n).main.stage) (hwait : ∀ m, n ≤ m → waitsFor pc (run m)) :
    ∃ m, n ≤ m ∧ pc.stage + 1 ≤ (run m).main.stage := by
  refine h.eventually (fun _ => 0) main (fun s => pc.stage ≤ s.main.stage ∧ waitsFor pc s)
    (fun s => pc.stage + 1 ≤ s.main.stage)
    (fun m hm => ⟨stage_le h hstage m hm, hwait m hm⟩) ?_ ?_ ?_
  · rintro s ⟨hk, hs⟩ hgoal
    have hpc : s.main = pc := MainPc.stage_inj (by omega)
    show waitsFor s.main s
    rwa [hpc]
  · rintro s t ⟨hk, -⟩ - hstep
    left
    rw [main_stage hstep]
    omega
  · intro th s t hth _ _ hstep
    exact .inr le_rfl

theorem ingest_exits (h : FairRun PipelineThread.step ready run who)
    (hshutdown : (run n).shutdown = true) (hlive : (run n).ingest ≠ .live) :
    ∃ m, n ≤ m ∧ (run m).ingest = .exited := by
  have hkept := h.stable (fun s => s.shutdown = true ∧ s.ingest ≠ .live)
    (fun th _ _ hs hstep => ⟨shutdown_stable th hstep hs.1, not_live_stable th hstep hs.2⟩)
    ⟨hshutdown, hlive⟩
  refine h.eventually (fun s => s.ingest.left) ingest
    (fun s => s.shutdown = true ∧ s.ingest ≠ .live) (fun s => s.ingest = .exited) hkept ?_ ?_ ?_
  · rintro s ⟨-, hl⟩ hgoal
    exact ⟨hgoal, hl⟩
  · rintro s t ⟨hs, hl⟩ - hstep
    cases hstep <;> simp_all [IngestPc.left]
  · intro th s t hth _ _ hstep
    rw [ingest_frame hth hstep]
    exact .inr le_rfl

theorem engine_exits (h : FairRun PipelineThread.step ready run who)
    (hstop : ∀ m, n ≤ m → (run m).engineStop = true ∧ (run m).ingest = .exited) :
    ∃ m, n ≤ m ∧ (run m).engine = .exited := by
  refine h.eventually engineRank engine (fun s => s.engineStop = true ∧ s.ingest = .exited)
    (fun s => s.engine = .exited) hstop (fun s _ hgoal => hgoal) ?_ ?_
  · rintro s t ⟨hs, -⟩ - hstep
    exact engineRank_lt hs hstep
  · rintro th s t hth ⟨-, hi⟩ - hstep
    right
    -- nobody pushes into the ring any more
    cases th with
    | engine => exact absurd rfl hth
    | signal => rw [show t = _ from hstep]; exact le_rfl
    | ingest => cases hstep <;> simp_all
    | output | main => cases hstep <;> exact le_rfl

theorem output_exits (h : FairRun PipelineThread.step ready run who)
    (hstop : ∀ m, n ≤ m → (run m).outputStop = true ∧ (run m).engine = .exited) :
    ∃ m, n ≤ m ∧ (run m).consumer = .exited := by
  refine h.eventually outputRank output (fun s => s.outputStop = true ∧ s.engine = .exited)
    (fun s => s.consumer = .exited) hstop (fun s _ hgoal => hgoal) ?_ ?_
  · rintro s t ⟨hs, -⟩ - hstep
    exact outputRank_lt hs hstep
  · rintro th s t hth ⟨-, he⟩ - hstep
    right
    cases th with
    | output => exact absurd rfl hth
    | signal => rw [show t = _ from hstep]; exact le_rfl
    | engine => cases hstep <;> simp_all
    | ingest | main => cases hstep <;> exact le_rfl

/-- From the stage at which main has stored a flag on, the flag is set. -/
theorem engineStop_of_stage {s : Pipeline} (h : Staged s) (hs : 3 ≤ s.main.stage) :
    s.engineStop = true ∧ s.ingest = .exited := by
  have hpast : s.main.engineStopped ∧ s.main.ingestJoined := by
    cases hpc : s.main <;> simp_all [MainPc.stage, MainPc.engineStopped, MainPc.ingestJoined]
  exact ⟨h.engineStop hpast.1, h.ingestJoined hpast.2⟩

theorem outputStop_of_stage {s : Pipeline} (h : Staged s) (hs : 5 ≤ s.main.stage) :
    s.outputStop = true ∧ s.engine = .exited := by
  have hpast : s.main.outputStopped ∧ s.main.engineJoined := by
    cases hpc : s.main <;> simp_all [MainPc.stage, MainPc.outputStopped, MainPc.engineJoined]
  exact ⟨h.outputStop hpast.1, h.engineJoined hpast.2⟩

/-- Once the shutdown flag is set the program ends: whatever is in the rings then and however the
threads are scheduled, if none is left out forever they all exit and are joined. A live feed has
to return. No thread is ever ready without a step it can take. -/
theorem run_shuts_down (h : FairRun PipelineThread.step ready run who)
    (hstart : run 0 = .synthetic ∨ run 0 = .live)
    (hshutdown : ∃ n, (run n).shutdown = true)
    (hfeed : run 0 = .live → ∃ n, (run n).ingest = .exited) :
    (∀ n th, ready th (run n) → ∃ s, th.step (run n) s) ∧
      ∃ n, ∀ m, n ≤ m → (run m).main = .done ∧ (run m).ingest = .exited ∧
        (run m).engine = .exited ∧ (run m).consumer = .exited := by
  have hstaged := staged h hstart
  refine ⟨fun n th hready => (hstaged n).ready_step hready, ?_⟩
  obtain ⟨n₀, hn₀⟩ := hshutdown
  have hset := h.stable _ (fun th _ _ hs hstep => shutdown_stable th hstep hs) hn₀
  -- ingest exits, and main notices the flag and joins it
  obtain ⟨n₁, hn₁⟩ : ∃ n, (run n).ingest = .exited := by
    rcases hstart with h0 | h0
    · have hnot := h.stable (fun s => s.ingest ≠ .live)
        (fun th _ _ hs hstep => not_live_stable th hstep hs) (n := 0)
        (by simp [h0, Pipeline.synthetic])
      obtain ⟨m, -, hm⟩ := ingest_exits h hn₀ (hnot n₀ (Nat.zero_le _))
      exact ⟨m, hm⟩
    · exact hfeed h0
  have hingest := h.stable _ (fun th _ _ hs hstep => ingest_exited_stable th hstep hs) hn₁
  obtain ⟨n₂, -, hn₂⟩ := main_advances h .wait (Nat.zero_le _) hset
  obtain ⟨n₃, hn, hn₃⟩ := main_advances h .joinIngest (n := max n₁ n₂)
    (stage_le h hn₂ _ (le_max_right _ _)) fun m hm => hingest m (by omega)
  obtain ⟨n₄, -, hn₄⟩ := main_advances h .storeEngineStop hn₃ fun _ _ => trivial
  -- the engine drains its ring and exits
  obtain ⟨n₅, hle, hn₅⟩ := engine_exits h fun m hm =>
    engineStop_of_stage (hstaged m) (stage_le h hn₄ m hm)
  have hengine := h.stable _ (fun th _ _ hs hstep => engine_exited_stable th hstep hs) hn₅
  obtain ⟨n₆, -, hn₆⟩ := main_advances h .joinEngine (stage_le h hn₄ n₅ hle) hengine
  obtain ⟨n₇, -, hn₇⟩ := main_advances h .storeOutputStop hn₆ fun _ _ => trivial
  -- then the output thread
  obtain ⟨n₈, hle, hn₈⟩ := output_exits h fun m hm =>
    outputStop_of_stage (hstaged m) (stage_le h hn₇ m hm)
  have houtput := h.stable _ (fun th _ _ hs hstep => output_exited_stable th hstep hs) hn₈
  obtain ⟨n₉, -, hn₉⟩ := main_advances h .joinOutput (stage_le h hn₇ n₈ hle) houtput
  refine ⟨n₉, fun m hm => ?_⟩
  have hdone : (run m).main = .done := by
    have hlast := stage_le h hn₉ m hm
    cases hpc : (run m).main <;> simp_all [MainPc.stage]
  obtain ⟨-, hi⟩ := engineStop_of_stage (hstaged m) (by simp [hdone, MainPc.stage])
  obtain ⟨-, he⟩ := outputStop_of_stage (hstaged m) (by simp [hdone, MainPc.stage])
  exact ⟨hdone, hi, he, (hstaged m).outputJoined hdone⟩

theorem run_shuts_down_strayCancel : ∃ n, ∀ m, n ≤ m → (strayCancelRun m).main = .done ∧
    (strayCancelRun m).ingest = .exited ∧ (strayCancelRun m).engine = .exited ∧
    (strayCancelRun m).consumer = .exited :=
  (run_shuts_down strayCancel_fairRun (.inl rfl) ⟨7, rfl⟩
    fun h => nomatch (congrArg Pipeline.ingest h : IngestPc.loadShutdown = .live)).2

end FairPipeline

/-! ## Delivery -/

/-- What was pushed, processed, logged and recorded is never taken back. -/
structure Grows (s t : Pipeline) : Prop where
  input : s.input.pushed <+: t.input.pushed
  processed : s.processed <+: t.processed
  output : s.output.pushed <+: t.output.pushed
  logged : s.logged <+: t.logged
  latency : s.latency.pushed <+: t.latency.pushed
  recorded : s.recorded <+: t.recorded

theorem Grows.trans {s t u : Pipeline} (h : Grows s t) (h' : Grows t u) : Grows s u :=
  ⟨h.input.trans h'.input, h.processed.trans h'.processed, h.output.trans h'.output,
    h.logged.trans h'.logged, h.latency.trans h'.latency, h.recorded.trans h'.recorded⟩

theorem grows_step {s t : Pipeline} (th : PipelineThread) (hstep : th.step s t) : Grows s t := by
  have hpush : ∀ {α : Type} {c : Nat} {r r' : Ring α} {x : α}, r.tryPush c x = some r' →
      r.pushed <+: r'.pushed := by
    intro α c r r' x hr
    obtain ⟨rfl, -⟩ := Ring.tryPush_eq hr
    exact List.prefix_append _ _
  have hpop : ∀ {α : Type} {r r' : Ring α} {x : α}, r.tryPop = some (x, r') →
      r.pushed <+: r'.pushed := by
    intro α r r' x hr
    rw [(Ring.tryPop_eq hr).2.1]
  cases th with
  | signal =>
    rw [show t = _ from hstep]
    constructor <;> exact List.prefix_rfl
  | ingest | engine | output | main =>
    cases hstep <;> constructor <;>
      first
      | exact List.prefix_rfl
      | exact hpush ‹_›
      | exact hpop ‹_›
      | exact List.prefix_append _ _

/-- The way of the engine to the next message, while its ring is not empty. -/
def EnginePc.toProcess : EnginePc → Nat
  | .emit work => work.length + 3
  | .loadStop => 3
  | .pop => 2
  | .process _ => 1
  | .exited => 0

/-- The way to the next fill: the samples of a batch come first. -/
def OutputPc.toFill : OutputPc → Nat
  | .loadStop => 4098
  | .drain i _ => 4096 - i + 1
  | .popFill _ | .exited => 0

/-- The way to the next sample: after a full batch one fill may come in between. -/
def OutputPc.toSample : OutputPc → Nat
  | .drain i _ => if i < 4096 then 0 else 3
  | .popFill _ => 2
  | .loadStop => 1
  | .exited => 0

namespace Draining

variable {s t : Pipeline}

theorem queue_ne_nil {α : Type} {pushed did queue : List α} (h : pushed = did ++ queue)
    (hlt : did.length < pushed.length) : queue ≠ [] := by
  rintro rfl
  simp [h] at hlt

theorem engine_left (h : Draining s) (hlt : s.processed.length < s.input.pushed.length) :
    s.engine ≠ .exited ∧ (s.engine.held = [] → s.input.queue ≠ []) := by
  have hqueue : s.engine.held = [] → s.input.queue ≠ [] := by
    intro hheld
    have hinput := h.input
    rw [hheld, List.append_nil] at hinput
    exact queue_ne_nil hinput hlt
  exact ⟨fun he => hqueue (by simp [he, EnginePc.held]) (h.engineExit he).2, hqueue⟩

theorem processed_step (h : Draining s) (hlt : s.processed.length < s.input.pushed.length)
    (hstep : RunEngine s t) : s.processed.length < t.processed.length ∨
      t.processed = s.processed ∧ t.engine.toProcess < s.engine.toProcess := by
  obtain ⟨-, hqueue⟩ := h.engine_left hlt
  cases hstep with
  | process _ _ hpc _ => simp
  | empty hpc hr => exact absurd (Ring.tryPop_none hr) (hqueue (by simp [hpc, EnginePc.held]))
  | stop hpc hstop =>
    exact absurd ⟨hpc, hqueue (by simp [hpc, EnginePc.held])⟩ (h.engineWindow hstop)
  | pop hpc _ | pushSample hpc _ | dropSample hpc _ | pushFill hpc _ | dropFill hpc _ | next hpc
  | relax hpc _ => simp [hpc, EnginePc.toProcess]

theorem output_left (h : Draining s) (hlt : s.logged.length < s.output.pushed.length) :
    s.consumer ≠ .exited ∧ s.output.queue ≠ [] := by
  have hqueue := queue_ne_nil h.output hlt
  exact ⟨fun ho => hqueue (h.outputExit ho).2.1, hqueue⟩

theorem logged_step (h : Draining s) (hlt : s.logged.length < s.output.pushed.length)
    (hstep : RunOutput s t) : s.logged.length < t.logged.length ∨
      t.logged = s.logged ∧ t.consumer.toFill < s.consumer.toFill := by
  obtain ⟨-, hqueue⟩ := h.output_left hlt
  cases hstep with
  | popFill hpc _ => simp
  | again hpc hr | idle hpc hr => exact absurd (Ring.tryPop_none hr) hqueue
  | stop hpc hstop => exact absurd (.inr ⟨hpc, .inl hqueue⟩) (h.outputWindow hstop)
  | popSample hpc hi _ | noSample hpc hi _ | batch hpc hi | sleep hpc _ =>
    right
    simp only [hpc, OutputPc.toFill, true_and]
    omega

theorem latency_left (h : Draining s) (hlt : s.recorded.length < s.latency.pushed.length) :
    s.consumer ≠ .exited ∧ s.latency.queue ≠ [] := by
  have hqueue := queue_ne_nil h.latency hlt
  exact ⟨fun ho => hqueue (h.outputExit ho).2.2, hqueue⟩

theorem recorded_step (h : Draining s) (hlt : s.recorded.length < s.latency.pushed.length)
    (hstep : RunOutput s t) : s.recorded.length < t.recorded.length ∨
      t.recorded = s.recorded ∧ t.consumer.toSample < s.consumer.toSample := by
  obtain ⟨-, hqueue⟩ := h.latency_left hlt
  cases hstep with
  | popSample hpc _ _ => simp
  | noSample hpc _ hr => exact absurd (Ring.tryPop_none hr) hqueue
  | stop hpc hstop => exact absurd (.inr ⟨hpc, .inr hqueue⟩) (h.outputWindow hstop)
  | batch hpc hi => simp [hpc, OutputPc.toSample, Nat.not_lt.2 hi]
  | popFill hpc _ | again hpc _ | idle hpc _ | sleep hpc _ => simp [hpc, OutputPc.toSample]

end Draining

namespace FairPipeline

variable {run : Nat → Pipeline} {who : Nat → PipelineThread}

/-- The states of a fair run are reached by interleaving. -/
theorem clearRun (h : FairRun PipelineThread.step ready run who)
    (hstart : run 0 = .synthetic ∨ run 0 = .live)
    (hclear : ∀ n, who n = main → StopsClear (run n)) (n : Nat) : ClearRun (run n) := by
  induction n with
  | zero =>
    rcases hstart with h0 | h0 <;> rw [h0]
    · exact .synthetic
    · exact .live
  | succ n ih =>
    refine ih.step (step_iff.2 ⟨_, h.step n⟩) fun hmain => hclear n ?_
    -- only main moves main
    by_contra hwho
    have hnext := main_stage hmain
    rw [main_frame hwho (h.step n)] at hnext
    omega

/-- What a ring has taken by now is what its consumer `th` has done later. `left` counts the steps
of `th` to the next item. -/
theorem reaches {α : Type} (h : FairRun PipelineThread.step ready run who)
    (hdrain : ∀ n, Draining (run n)) (th : PipelineThread) (pushed did : Pipeline → List α)
    (left : Pipeline → Nat) (hgrows : ∀ s t, Grows s t → pushed s <+: pushed t)
    (hdid : ∀ s, Draining s → did s <+: pushed s)
    (hready : ∀ s, Draining s → (did s).length < (pushed s).length → ready th s)
    (hstep : ∀ s t, Draining s → (did s).length < (pushed s).length → th.step s t →
      (did s).length < (did t).length ∨ did t = did s ∧ left t < left s)
    (hothers : ∀ u s t, u ≠ th → u.step s t → did t = did s ∧ left t = left s) (n : Nat) :
    ∃ m, n ≤ m ∧ pushed (run n) <+: did (run m) := by
  have hkept : ∀ m, n ≤ m → Draining (run m) ∧ pushed (run n) <+: pushed (run m) := fun m hm =>
    ⟨hdrain m, h.stable (fun s => pushed (run n) <+: pushed s)
      (fun u s t hs hu => hs.trans (hgrows s t (grows_step u hu))) List.prefix_rfl m hm⟩
  have hbehind : ∀ s, Draining s → pushed (run n) <+: pushed s → ¬ pushed (run n) <+: did s →
      (did s).length < (pushed (run n)).length := by
    intro s hs hpushed hnot
    by_contra hge
    exact hnot (List.prefix_of_prefix_length_le hpushed (hdid s hs) (by omega))
  refine h.eventually
    (fun s => (toLex ((pushed (run n)).length - (did s).length, left s) : Nat ×ₗ Nat)) th
    (fun s => Draining s ∧ pushed (run n) <+: pushed s) (fun s => pushed (run n) <+: did s)
    hkept ?_ ?_ ?_
  · rintro s ⟨hs, hpushed⟩ hnot
    exact hready s hs ((hbehind s hs hpushed hnot).trans_le hpushed.length_le)
  · rintro s t ⟨hs, hpushed⟩ hnot hth
    right
    have hlt := hbehind s hs hpushed hnot
    rw [Prod.Lex.toLex_lt_toLex]
    rcases hstep s t hs (hlt.trans_le hpushed.length_le) hth with hmore | ⟨hsame, hless⟩
    · left
      show _ - _ < _ - _
      omega
    · exact .inr ⟨by rw [hsame], hless⟩
  · intro u s t hu _ _ hother
    obtain ⟨hsame, hleft⟩ := hothers u s t hu hother
    right
    rw [hsame, hleft]

/-- Whatever a ring holds at some time, its consumer gets it, in order: the engine processes the
messages, the output thread logs the fills and records the samples. No thread is left out forever,
and main stores its stop flags outside the windows. -/
theorem run_delivers (h : FairRun PipelineThread.step ready run who)
    (hstart : run 0 = .synthetic ∨ run 0 = .live)
    (hclear : ∀ n, who n = main → StopsClear (run n)) (n : Nat) :
    ∃ m, n ≤ m ∧ (run n).input.pushed <+: (run m).processed ∧
      (run n).output.pushed <+: (run m).logged ∧
      (run n).latency.pushed <+: (run m).recorded := by
  have hdrain := fun n => (clearRun h hstart hclear n).draining
  obtain ⟨m₁, hm₁, hprocessed⟩ := reaches h hdrain engine (·.input.pushed) (·.processed)
    (·.engine.toProcess) (fun _ _ hg => hg.input)
    (fun s hs => by
      rw [hs.input, List.append_assoc]
      exact List.prefix_append _ _)
    (fun s hs hlt => (hs.engine_left hlt).1) (fun _ _ hs hlt => hs.processed_step hlt)
    (fun u s t hu hstep => by
      obtain ⟨hpc, hsame⟩ := engine_frame hu hstep
      exact ⟨hsame, by rw [hpc]⟩) n
  obtain ⟨m₂, hm₂, hlogged⟩ := reaches h hdrain output (·.output.pushed) (·.logged)
    (·.consumer.toFill) (fun _ _ hg => hg.output)
    (fun s hs => by
      rw [hs.output]
      exact List.prefix_append _ _)
    (fun s hs hlt => (hs.output_left hlt).1) (fun _ _ hs hlt => hs.logged_step hlt)
    (fun u s t hu hstep => by
      obtain ⟨hpc, hsame, -⟩ := output_frame hu hstep
      exact ⟨hsame, by rw [hpc]⟩) n
  obtain ⟨m₃, hm₃, hrecorded⟩ := reaches h hdrain output (·.latency.pushed) (·.recorded)
    (·.consumer.toSample) (fun _ _ hg => hg.latency)
    (fun s hs => by
      rw [hs.latency]
      exact List.prefix_append _ _)
    (fun s hs hlt => (hs.latency_left hlt).1) (fun _ _ hs hlt => hs.recorded_step hlt)
    (fun u s t hu hstep => by
      obtain ⟨hpc, -, hsame⟩ := output_frame hu hstep
      exact ⟨hsame, by rw [hpc]⟩) n
  -- nothing is taken back until all three are there
  have hlater : ∀ {a b : Nat}, a ≤ b → Grows (run a) (run b) := by
    intro a b hab
    induction b, hab using Nat.le_induction with
    | base => constructor <;> exact List.prefix_rfl
    | succ b _ ih => exact ih.trans (grows_step _ (h.step b))
  refine ⟨max m₁ (max m₂ m₃), by omega, ?_, ?_, ?_⟩
  · exact hprocessed.trans (hlater (le_max_left _ _)).processed
  · exact hlogged.trans (hlater (by omega)).logged
  · exact hrecorded.trans (hlater (by omega)).recorded

/-- After two steps the message is queued, after five its sample. -/
theorem run_delivers_strayCancel :
    (strayCancelRun 2).processed = [] ∧
      (∃ m, 2 ≤ m ∧ [strayCancel] <+: (strayCancelRun m).processed) ∧
      (strayCancelRun 5).recorded = [] ∧
      ∃ m, 5 ≤ m ∧ [{ kind := .match_, ns := 5 }] <+: (strayCancelRun m).recorded := by
  have hdelivers := run_delivers strayCancel_fairRun (.inl rfl)
    fun n => (strayCancel_clear.step n).2
  obtain ⟨m, hm, hprocessed, -⟩ := hdelivers 2
  obtain ⟨m', hm', -, -, hrecorded⟩ := hdelivers 5
  exact ⟨rfl, ⟨m, hm, hprocessed⟩, rfl, m', hm', hrecorded⟩

end FairPipeline

end LockfreeMatching
