import LockfreeMatching.Core.Conservation
import LockfreeMatching.Lib.Offers
import LockfreeMatching.Pipeline.Telemetry

/-!
# Accounting

What the counters, the metrics and the log show, in every state the threads can reach. The
reference matching of the messages processed so far decides which fills there are; the engine
hands them to the output ring in this order, which takes or drops each of them.
-/
namespace LockfreeMatching

open Lib

/-- The fills the engine has not handed on yet. -/
def EnginePc.fillsLeft : EnginePc → List Fill
  | .emit work => work.filterMap fun
    | .sample _ => none
    | .fill f => some f
  | _ => []

def EnginePc.samplesLeft : EnginePc → List LatencySample
  | .emit work => work.filterMap fun
    | .sample x => some x
    | .fill _ => none
  | _ => []

def isMatch (x : LatencySample) : Bool := x.kind = .match_

/-- Where the engine can be while it owes something. -/
def EngineDebt.Fits : EngineDebt → EnginePc → Prop
  | .none, _ => True
  | .fill, pc | .drop, pc => ∃ work, pc = .emit work
  | .start, pc | .processed, pc | .poolFree, pc => pc = .pop
  | .exitPool, pc | .exitSamples, pc => pc = .exited

/-! ## What the engine hands on -/

/-- The engine works on the reference book of the messages processed, whose fills are those
handed on and those left; every message has one sample of its matching time. -/
structure Sends (p : Pipeline) (e : EngineSide) : Prop where
  simulates : Simulates p.eng (RefBook.trace .empty p.processed).1
  fills : (RefBook.trace .empty p.processed).2 = e.sent.map (·.1) ++ p.engine.fillsLeft
  output : p.output.pushed = taken e.sent
  samples : (e.sampled.map (·.1) ++ p.engine.samplesLeft).countP isMatch = p.processed.length
  latency : p.latency.pushed = taken e.sampled

@[simp] theorem fillsLeft_emissions (msg : EngineMessage) (fills : List Fill) (t0 t1 : UInt64) :
    EnginePc.fillsLeft (.emit (emissions msg fills t0 t1)) = fills := by
  unfold emissions
  split_ifs <;> simp [EnginePc.fillsLeft, List.filterMap_map]

theorem samplesLeft_emissions (msg : EngineMessage) (fills : List Fill) (t0 t1 : UInt64) :
    (EnginePc.samplesLeft (.emit (emissions msg fills t0 t1))).countP isMatch = 1 := by
  unfold emissions
  split_ifs <;> simp [EnginePc.samplesLeft, List.filterMap_map, isMatch]

namespace Sends

variable {s p : Pipeline} {e e' : EngineSide}

theorem synthetic : Sends .synthetic {} := ⟨.new, rfl, rfl, rfl, rfl⟩

theorem live : Sends .live {} := ⟨.new, rfl, rfl, rfl, rfl⟩

theorem congr (h : Sends s e) (hengine : p.engine = s.engine) (heng : p.eng = s.eng)
    (hprocessed : p.processed = s.processed) (houtput : p.output.pushed = s.output.pushed)
    (hlatency : p.latency.pushed = s.latency.pushed) : Sends p e := by
  obtain ⟨hsim, hfills, hout, hsamples, hlat⟩ := h
  constructor <;> simpa only [hengine, heng, hprocessed, houtput, hlatency]

/-- Only what was handed on counts. -/
theorem debts (h : Sends p e) (hsent : e'.sent = e.sent) (hsampled : e'.sampled = e.sampled) :
    Sends p e' := by
  obtain ⟨hsim, hfills, hout, hsamples, hlat⟩ := h
  constructor <;> simpa only [hsent, hsampled]

theorem runIngest (h : Sends s e) (hstep : RunIngest s p) : Sends p e := by
  cases hstep <;> exact h.congr rfl rfl rfl rfl rfl

theorem runMain (h : Sends s e) (hstep : RunMain s p) : Sends p e := by
  cases hstep <;> exact h.congr rfl rfl rfl rfl rfl

theorem runOutput (h : Sends s e) (hstep : RunOutput s p) : Sends p e := by
  cases hstep with
  | popSample _ _ hr =>
    obtain ⟨-, hpushed, -⟩ := Ring.tryPop_eq hr
    exact h.congr rfl rfl rfl rfl hpushed
  | popFill _ hr =>
    obtain ⟨-, hpushed, -⟩ := Ring.tryPop_eq hr
    exact h.congr rfl rfl rfl hpushed rfl
  | _ => exact h.congr rfl rfl rfl rfl rfl

/-- A message is processed when nothing is left of the one before. -/
theorem process (h : Sends s e) {msg : EngineMessage} {m : MatchingEngine}
    (hpc : s.engine = .process msg) (hproc : s.eng.process msg = some m) (t0 t1 : UInt64) :
    Sends
      { s with
        eng := m
        processed := s.processed ++ [msg]
        engine := .emit (emissions msg m.fills t0 t1) } e := by
  obtain ⟨m', hproc', hfills, hsim⟩ := process_simulates h.simulates msg
  obtain rfl : m' = m := Option.some.inj (hproc'.symm.trans hproc)
  have hdone : s.engine.fillsLeft = [] := by simp [hpc, EnginePc.fillsLeft]
  have hsampled : s.engine.samplesLeft = [] := by simp [hpc, EnginePc.samplesLeft]
  constructor
  · simpa [RefBook.trace_append, RefBook.trace] using hsim
  · simp [RefBook.trace_append, RefBook.trace, h.fills, hdone, hfills]
  · exact h.output
  · have hsamples := h.samples
    rw [hsampled, List.append_nil] at hsamples
    simp [hsamples, samplesLeft_emissions]
  · exact h.latency

theorem runEngine (h : Sends s e) (hstep : RunEngine s p) : Sends p (e.effect s) := by
  cases hstep with
  | process t0 t1 hpc hproc =>
    simpa only [EngineSide.effect, hpc] using h.process hpc hproc t0 t1
  | pushSample hpc hr =>
    obtain ⟨hsim, hfills, hout, hsamples, hlat⟩ := h
    obtain ⟨rfl, -⟩ := Ring.tryPush_eq hr
    rw [hpc] at hfills hsamples
    simp only [EngineSide.effect, EngineSide.emitSample, hpc, hr, Option.isSome_some, if_true]
    refine ⟨hsim, hfills, hout, ?_, by simp [hlat]⟩
    simpa [EnginePc.samplesLeft] using hsamples
  | dropSample hpc hr =>
    obtain ⟨hsim, hfills, hout, hsamples, hlat⟩ := h
    rw [hpc] at hfills hsamples
    simp only [EngineSide.effect, EngineSide.emitSample, hpc, hr]
    refine ⟨hsim, hfills, hout, ?_, by simp [hlat]⟩
    simpa [EnginePc.samplesLeft] using hsamples
  | pushFill hpc hr =>
    obtain ⟨hsim, hfills, hout, hsamples, hlat⟩ := h
    obtain ⟨rfl, -⟩ := Ring.tryPush_eq hr
    rw [hpc] at hfills hsamples
    simp only [EngineSide.effect, EngineSide.emitFill, hpc, hr, Option.isSome_some, if_true]
    refine ⟨hsim, ?_, by simp [hout], hsamples, hlat⟩
    simpa [EnginePc.fillsLeft] using hfills
  | dropFill hpc hr =>
    obtain ⟨hsim, hfills, hout, hsamples, hlat⟩ := h
    rw [hpc] at hfills hsamples
    simp only [EngineSide.effect, EngineSide.emitFill, hpc, hr]
    refine ⟨hsim, ?_, by simp [hout], hsamples, hlat⟩
    simpa [EnginePc.fillsLeft] using hfills
  | pop hpc _ | empty hpc _ | next hpc =>
    obtain ⟨hsim, hfills, hout, hsamples, hlat⟩ := h
    rw [hpc] at hfills hsamples
    simp only [EngineSide.effect, hpc]
    exact ⟨hsim, hfills, hout, hsamples, hlat⟩
  | stop hpc hflag | relax hpc hflag =>
    obtain ⟨hsim, hfills, hout, hsamples, hlat⟩ := h
    rw [hpc] at hfills hsamples
    simp only [EngineSide.effect, hpc, hflag]
    exact ⟨hsim, hfills, hout, hsamples, hlat⟩

theorem pay (h : Sends p e) (c : Counters) : Sends p (e.pay p c).2 := by
  refine h.debts ?_ ?_ <;> unfold EngineSide.pay <;> split <;> try split
  all_goals rfl

end Sends

/-! ## What the engine counts -/

/-- The engine has processed a message and not counted it. -/
def EngineSide.busy (e : EngineSide) (pc : EnginePc) : Bool :=
  match pc with
  | .emit _ => true
  | _ => e.debt = .processed

/-- One for the counter update the engine is about to make. -/
def EngineSide.owes (e : EngineSide) (debt : EngineDebt) : UInt64 := if e.debt = debt then 1 else 0

structure Counted (p : Pipeline) (c : Counters) (e : EngineSide) : Prop where
  fits : e.debt.Fits p.engine
  fills : c.fills + e.owes .fill = .ofNat (taken e.sent).length
  drops : c.outDropped + e.owes .drop = .ofNat (refused e.sent).length
  processed : c.processed + (if e.busy p.engine then 1 else 0) = .ofNat p.processed.length
  samples : e.latDropped = .ofNat (refused e.sampled).length
  exited : p.engine = .exited → e.debt = .none → c.latDropped = e.latDropped

namespace Counted

variable {s p : Pipeline} {c : Counters} {e : EngineSide}

theorem congr (h : Counted s c e) (hengine : p.engine = s.engine)
    (hprocessed : p.processed = s.processed) : Counted p c e := by
  obtain ⟨hfits, hf, hd, hp, hs, he⟩ := h
  constructor <;> simpa only [hengine, hprocessed]

theorem ingested (h : Counted p c e) (n : UInt64) : Counted p { c with ingested := n } e :=
  ⟨h.fits, h.fills, h.drops, h.processed, h.samples, h.exited⟩

theorem runEngine (h : Counted s c e) (hnone : e.debt = .none) (hstep : RunEngine s p) :
    Counted p c (e.effect s) := by
  obtain ⟨hfits, hf, hd, hp, hs, he⟩ := h
  cases hstep with
  | pop hpc _ | empty hpc _ | process t0 t1 hpc _ | next hpc | stop hpc hflag | relax hpc hflag
    | pushSample hpc hr | dropSample hpc hr | pushFill hpc hr | dropFill hpc hr =>
    constructor <;>
      simp_all [EngineSide.effect, EngineSide.emitSample, EngineSide.emitFill, EngineDebt.Fits,
        EngineSide.owes, EngineSide.busy, UInt64.ofNat_add]

theorem pay (h : Counted p c e) : Counted p (e.pay p c).1 (e.pay p c).2 := by
  obtain ⟨hfits, hf, hd, hp, hs, he⟩ := h
  unfold EngineSide.pay
  cases hdebt : e.debt with
  | processed =>
    simp only
    split_ifs <;> constructor <;> simp_all [EngineDebt.Fits, EngineSide.owes, EngineSide.busy]
  | fill | drop =>
    obtain ⟨work, hwork⟩ : ∃ work, p.engine = .emit work := by
      simpa [hdebt, EngineDebt.Fits] using hfits
    constructor <;> simp_all [EngineDebt.Fits, EngineSide.owes, EngineSide.busy]
  | none | start | poolFree | exitPool | exitSamples =>
    constructor <;> simp_all [EngineDebt.Fits, EngineSide.owes, EngineSide.busy]

end Counted

/-! ## What the engine shows of its pool -/

/-- The number of orders resting after these messages. -/
def restingCount (msgs : List EngineMessage) : Nat :=
  ((RefBook.trace .empty msgs).1 .bid).length + ((RefBook.trace .empty msgs).1 .ask).length

theorem Simulates.poolAvailable {m : MatchingEngine} {ref : RefBook} (h : Simulates m ref) :
    m.poolAvailable.toNat + ((ref .bid).length + (ref .ask).length) = orderPoolSize := by
  have hbid := h.shows.count .bid
  have hask := h.shows.count .ask
  obtain ⟨q, free, hinv, -⟩ := h
  have htotal := hinv.poolExact.total
  simp only [OrderBook.count] at hbid hask
  omega

/-- The pool size published is that after the first `k` messages. -/
structure PoolShown (p : Pipeline) (c : Counters) (e : EngineSide) (k : Nat) : Prop where
  shown : c.poolFree.toNat + restingCount (p.processed.take k) = orderPoolSize
  le : k ≤ p.processed.length
  lag : p.engine ≠ .exited ∨ e.debt = .exitPool → p.processed.length =
    k + e.sincePublish.toNat + (if e.debt = .poolFree then 1024 else 0) +
      if e.busy p.engine then 1 else 0
  final : p.engine = .exited → e.debt ≠ .exitPool → k = p.processed.length

structure PoolCounted (p : Pipeline) (c : Counters) (e : EngineSide) : Prop where
  since : e.sincePublish.toNat < 1024
  start : e.debt = .start → p.processed = [] ∧ e.sincePublish = 0
  due : e.debt = .poolFree → e.sincePublish = 0
  shown : e.debt ≠ .start → ∃ k, PoolShown p c e k

namespace PoolCounted

variable {s p : Pipeline} {c : Counters} {e : EngineSide}

theorem congr (h : PoolCounted s c e) (hengine : p.engine = s.engine)
    (hprocessed : p.processed = s.processed) : PoolCounted p c e := by
  obtain ⟨hsince, hstart, hdue, hshown⟩ := h
  refine ⟨hsince, hprocessed ▸ hstart, hdue, fun hne => ?_⟩
  obtain ⟨k, hk, hle, hlag, hfinal⟩ := hshown hne
  exact ⟨k, by constructor <;> simpa only [hengine, hprocessed]⟩

theorem ingested (h : PoolCounted p c e) (n : UInt64) :
    PoolCounted p { c with ingested := n } e := by
  refine ⟨h.since, h.start, h.due, fun hne => ?_⟩
  obtain ⟨k, hk⟩ := h.shown hne
  exact ⟨k, hk.shown, hk.le, hk.lag, hk.final⟩

theorem runEngine (h : PoolCounted s c e) (hnone : e.debt = .none) (hstep : RunEngine s p) :
    PoolCounted p c (e.effect s) := by
  obtain ⟨hsince, -, -, hshown⟩ := h
  obtain ⟨k, hk, hle, hlag, hfinal⟩ := hshown (by simp [hnone])
  cases hstep with
  | process t0 t1 hpc _ =>
    refine ⟨?_, ?_, ?_, fun _ => ⟨k, ?_, ?_, ?_, ?_⟩⟩ <;>
      simp_all [EngineSide.effect, EngineSide.busy, List.take_append_of_le_length]
    omega
  | pop hpc _ | empty hpc _ | next hpc | stop hpc hflag | relax hpc hflag
    | pushSample hpc hr | dropSample hpc hr | pushFill hpc hr | dropFill hpc hr =>
    refine ⟨?_, ?_, ?_, fun _ => ⟨k, ?_, ?_, ?_, ?_⟩⟩ <;>
      simp_all [EngineSide.effect, EngineSide.emitSample, EngineSide.emitFill, EngineSide.busy]

/-- The size is published, and is that of now. -/
theorem PoolShown.now (hsim : Simulates p.eng (RefBook.trace .empty p.processed).1)
    (hlag : p.engine ≠ .exited ∨ e.debt = .exitPool → e.sincePublish = 0 ∧
      e.debt ≠ .poolFree ∧ e.busy p.engine = false) :
    PoolShown p { c with poolFree := p.eng.poolAvailable } e p.processed.length where
  shown := by simpa [restingCount] using hsim.poolAvailable
  le := le_refl _
  lag h := by simp [hlag h]
  final _ _ := rfl

theorem pay (h : PoolCounted p c e) (hfits : e.debt.Fits p.engine)
    (hsim : Simulates p.eng (RefBook.trace .empty p.processed).1) :
    PoolCounted p (e.pay p c).1 (e.pay p c).2 := by
  unfold EngineSide.pay
  cases hdebt : e.debt with
  | none => simpa using h
  | start | poolFree =>
    obtain ⟨hsince, hstart, hdue, -⟩ := h
    refine ⟨hsince, nofun, nofun, fun _ => ⟨_, PoolShown.now hsim fun _ => ?_⟩⟩
    simp_all [EngineDebt.Fits, EngineSide.busy]
  | exitPool =>
    obtain ⟨hsince, hstart, hdue, -⟩ := h
    refine ⟨hsince, nofun, nofun, fun _ => ⟨_, PoolShown.now hsim ?_⟩⟩
    simp_all [EngineDebt.Fits]
  | fill | drop =>
    obtain ⟨hsince, -, -, hshown⟩ := h
    obtain ⟨k, hk, hle, hlag, hfinal⟩ := hshown (by simp [hdebt])
    obtain ⟨work, hwork⟩ : ∃ work, p.engine = .emit work := by
      simpa [hdebt, EngineDebt.Fits] using hfits
    refine ⟨hsince, nofun, nofun, fun _ => ⟨k, hk, hle, ?_, ?_⟩⟩ <;>
      simp_all [EngineSide.busy]
  | exitSamples =>
    obtain ⟨hsince, -, -, hshown⟩ := h
    obtain ⟨k, hk, hle, hlag, hfinal⟩ := hshown (by simp [hdebt])
    refine ⟨hsince, nofun, nofun, fun _ => ⟨k, hk, hle, ?_, ?_⟩⟩ <;>
      simp_all [EngineDebt.Fits]
  | processed =>
    obtain ⟨hsince, -, -, hshown⟩ := h
    obtain ⟨k, hk, hle, hlag, hfinal⟩ := hshown (by simp [hdebt])
    have hpop : p.engine = .pop := by simpa [hdebt, EngineDebt.Fits] using hfits
    have hcount : p.processed.length = k + e.sincePublish.toNat + 1 := by
      simpa [hpop, hdebt, EngineSide.busy] using hlag (.inl (by simp [hpop]))
    have hsucc : (e.sincePublish + 1).toNat = e.sincePublish.toNat + 1 := by
      rw [UInt64.toNat_add, UInt64.toNat_one, Nat.mod_eq_of_lt (by omega)]
    have hbound : ((1024 : UInt64) ≤ e.sincePublish + 1) ↔ 1024 ≤ e.sincePublish.toNat + 1 := by
      rw [UInt64.le_iff_toNat_le, hsucc]
      rfl
    simp only
    split_ifs with hfull
    · rw [hbound] at hfull
      refine ⟨by simp, nofun, fun _ => rfl, fun _ => ⟨k, hk, hle, fun _ => ?_, ?_⟩⟩
      · simp [hpop, EngineSide.busy]
        omega
      · simp [hpop]
    · rw [hbound] at hfull
      refine ⟨by simp only [hsucc]; omega, nofun, nofun, fun _ => ⟨k, hk, hle, fun _ => ?_, ?_⟩⟩
      · simp [hpop, EngineSide.busy, -UInt64.toNat_add, hsucc]
        omega
      · simp [hpop]

end PoolCounted

end LockfreeMatching
