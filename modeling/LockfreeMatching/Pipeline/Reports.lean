import LockfreeMatching.Pipeline.Accounting
import LockfreeMatching.Pipeline.Shutdown

/-!
# Reports

What the output thread makes of the fills and samples it takes, and what main relies on when it
joins the threads. Each invariant here belongs to one thread; a step of another thread does not
touch what it is about.
-/
namespace LockfreeMatching

open Lib

/-! ## Rings -/

/-- What was pushed into a ring was taken out or is queued. -/
structure Flows (p : Pipeline) : Prop where
  input : p.input.pushed = p.processed ++ p.engine.held ++ p.input.queue
  output : p.output.pushed = p.logged ++ p.output.queue
  latency : p.latency.pushed = p.recorded ++ p.latency.queue

namespace Flows

variable {s p : Pipeline}

theorem runIngest (h : Flows s) (hstep : RunIngest s p) : Flows p := by
  cases hstep with
  | push _ hr | livePush _ _ hr =>
    obtain ⟨rfl, -⟩ := Ring.tryPush_eq hr
    exact ⟨by simp [h.input], h.output, h.latency⟩
  | _ => exact ⟨h.input, h.output, h.latency⟩

theorem runMain (h : Flows s) (hstep : RunMain s p) : Flows p := by
  cases hstep <;> exact ⟨h.input, h.output, h.latency⟩

theorem runEngine (h : Flows s) (hstep : RunEngine s p) : Flows p := by
  obtain ⟨hin, hout, hlat⟩ := h
  cases hstep with
  | pop hpc hr =>
    obtain ⟨hq, hp, -⟩ := Ring.tryPop_eq hr
    exact ⟨by simp_all [EnginePc.held], hout, hlat⟩
  | pushSample hpc hr =>
    obtain ⟨rfl, -⟩ := Ring.tryPush_eq hr
    exact ⟨by simp_all [EnginePc.held], hout, by simp [hlat]⟩
  | pushFill hpc hr =>
    obtain ⟨rfl, -⟩ := Ring.tryPush_eq hr
    exact ⟨by simp_all [EnginePc.held], by simp [hout], hlat⟩
  | process _ _ hpc _ | empty hpc _ | dropSample hpc _ | dropFill hpc _ | next hpc | stop hpc _
    | relax hpc _ => exact ⟨by simp_all [EnginePc.held], hout, hlat⟩

theorem runOutput (h : Flows s) (hstep : RunOutput s p) : Flows p := by
  obtain ⟨hin, hout, hlat⟩ := h
  cases hstep with
  | popSample _ _ hr =>
    obtain ⟨hq, hp, -⟩ := Ring.tryPop_eq hr
    exact ⟨hin, hout, by simp [hp, hlat, hq]⟩
  | popFill _ hr =>
    obtain ⟨hq, hp, -⟩ := Ring.tryPop_eq hr
    exact ⟨hin, by simp [hp, hout, hq], hlat⟩
  | _ => exact ⟨hin, hout, hlat⟩

end Flows

/-! ## Joins -/

/-- The engine has left when main stops the output thread, with nothing left to do. -/
structure Joined (p : Pipeline) (e : EngineSide) : Prop where
  engine : p.main.engineJoined ∨ p.outputStop = true → p.engine = .exited ∧ e.debt = .none
  output : p.consumer = .exited → p.outputStop = true
  done : p.main = .done → p.consumer = .exited

namespace Joined

variable {s p : Pipeline} {e : EngineSide}

theorem runIngest (h : Joined s e) (hstep : RunIngest s p) : Joined p e := by
  cases hstep <;> exact ⟨h.engine, h.output, h.done⟩

theorem runEngine (h : Joined s e) (hstep : RunEngine s p) : Joined p (e.effect s) := by
  obtain ⟨hengine, houtput, hdone⟩ := h
  have halive : s.engine ≠ .exited := by cases hstep <;> simp_all
  have hrunning : ¬ (s.main.engineJoined ∨ s.outputStop = true) := fun hj => halive (hengine hj).1
  cases hstep <;> exact ⟨fun hj => absurd hj hrunning, houtput, hdone⟩

theorem runOutput (h : Joined s e) (hstep : RunOutput s p) : Joined p e := by
  obtain ⟨hengine, houtput, hdone⟩ := h
  cases hstep with
  | stop _ hstop => exact ⟨hengine, fun _ => hstop, fun _ => rfl⟩
  | popSample hpc _ _ | noSample hpc _ _ | batch hpc _ | popFill hpc _ | again hpc _ | idle hpc _
    | sleep hpc _ => exact ⟨hengine, nofun, fun hd => by simp [hdone hd] at hpc⟩

theorem runMain (h : Joined s e) (hjoins : s.main = .joinEngine → e.debt = .none)
    (hstep : RunMain s p) : Joined p e := by
  obtain ⟨hengine, houtput, hdone⟩ := h
  cases hstep <;> constructor <;> simp_all [MainPc.engineJoined]

theorem pay (h : Joined p e) (c : Counters) : Joined p (e.pay p c).2 := by
  refine ⟨fun hj => ?_, h.output, h.done⟩
  obtain ⟨hexit, hnone⟩ := h.engine hj
  exact ⟨hexit, by simp [EngineSide.pay, hnone]⟩

end Joined

/-! ## What the output thread reports -/

/-- The fill of a call of the logger. -/
def loggedFill : TradeLogger.Call → Option FillMessage
  | .log fill _ _ _ => some fill
  | _ => none

open OutputThread in
/-- The metrics are those of the fills and samples taken, and so are the log and the rows for the
dashboard. -/
structure Reports (p : Pipeline) (o : OutputSide) : Prop where
  orders : o.metrics.totalOrders = .ofNat (p.recorded.countP isMatch)
  matchLatency :
    LatencyTracker.Represents o.metrics.matchLatency ((p.recorded.filter isMatch).map (·.ns))
  orderLatency :
    LatencyTracker.Represents o.metrics.orderLatency ((p.recorded.filter (!isMatch ·)).map (·.ns))
  fills : o.metrics.totalMatches = .ofNat p.logged.length
  logging : o.logging = TradeLogger.run o.logCalls
  logged : o.logCalls.filterMap loggedFill = p.logged
  tape : o.dashboard = true →
    o.out = OutputThread.run {} o.tapeEvents ∧ (popped o.tapeEvents).map (·.1) = p.logged

namespace Reports

variable {s p : Pipeline} {c : Counters} {o : OutputSide}

theorem congr (h : Reports s o) (hlogged : p.logged = s.logged)
    (hrecorded : p.recorded = s.recorded) : Reports p o := by
  obtain ⟨horders, hmatch, horder, hfills, hlogging, hcalls, htape⟩ := h
  constructor <;> simpa only [hlogged, hrecorded]

/-- Nothing is taken in a step that changes the debt only. -/
theorem debt (h : Reports p o) (d : OutputDebt) : Reports p { o with debt := d } :=
  ⟨h.orders, h.matchLatency, h.orderLatency, h.fills, h.logging, h.logged, h.tape⟩

theorem recordSample (h : Reports s o) (x : LatencySample) :
    Reports { s with recorded := s.recorded ++ [x] } (o.recordSample x) := by
  obtain ⟨horders, hmatch, horder, hfills, hlogging, hcalls, htape⟩ := h
  unfold OutputSide.recordSample
  cases hkind : x.kind with
  | match_ =>
    have hx : isMatch x = true := by simp [isMatch, hkind]
    simp only [MetricsCollector.recordMatchLatency, MetricsCollector.incrementOrders]
    refine ⟨?_, ?_, ?_, hfills, hlogging, hcalls, htape⟩
    · simp [horders, hx, UInt64.ofNat_add]
    · simpa [hx] using hmatch.record x.ns
    · simpa [hx] using horder
  | order =>
    have hx : isMatch x = false := by simp [isMatch, hkind]
    simp only [MetricsCollector.recordOrderLatency]
    refine ⟨?_, ?_, ?_, hfills, hlogging, hcalls, htape⟩
    · simpa [hx] using horders
    · simpa [hx] using hmatch
    · simpa [hx] using horder.record x.ns

theorem takeFill (h : Reports s o) (f : Fill) (nowMs : UInt64) (pad : FillMessage.Padding)
    (accepted out : Nat) :
    Reports { s with logged := s.logged ++ [f] }
      (o.takeFill f nowMs (.log f pad accepted out)) := by
  obtain ⟨horders, hmatch, horder, hfills, hlogging, hcalls, htape⟩ := h
  refine ⟨horders, hmatch, horder, ?_, ?_, ?_, fun hon => ?_⟩
  · simp [OutputSide.takeFill, MetricsCollector.incrementMatches, hfills, UInt64.ofNat_add]
  · simp [OutputSide.takeFill, hlogging, TradeLogger.run]
  · simp [OutputSide.takeFill, hcalls, loggedFill]
  · have hon' : o.dashboard = true := hon
    obtain ⟨hout, hpopped⟩ := htape hon'
    simp only [OutputSide.takeFill, hon', if_true, hout]
    exact ⟨by simp [OutputThread.run, OutputThread.step], by simp [OutputThread.popped, ← hpopped]⟩

theorem runOutput (h : Reports s o) (nowMs : UInt64) (pad : FillMessage.Padding)
    (accepted out : Nat) (hstep : RunOutput s p) :
    Reports p (o.effect s nowMs pad accepted out) := by
  cases hstep with
  | popSample hpc hi hr =>
    simp only [OutputSide.effect, hpc, hi, if_true, hr, Option.elim_some]
    exact (h.recordSample _).congr rfl rfl
  | noSample hpc hi hr =>
    simp only [OutputSide.effect, hpc, hi, if_true, hr, Option.elim_none]
    exact h.congr rfl rfl
  | batch hpc hi =>
    simp only [OutputSide.effect, hpc, Nat.not_lt.2 hi, if_false]
    exact h.congr rfl rfl
  | popFill hpc hr =>
    simp only [OutputSide.effect, hpc, hr, Option.elim_some]
    exact ((h.takeFill _ nowMs pad accepted out).debt _).congr rfl rfl
  | again hpc hr | idle hpc hr =>
    simp only [OutputSide.effect, hpc, hr, Option.elim_none]
    exact (h.debt _).congr rfl rfl
  | stop hpc hflag | sleep hpc hflag =>
    simp only [OutputSide.effect, hpc, hflag]
    exact (h.debt _).congr rfl rfl

theorem checkPublish (h : Reports p o) (now : Nat) (clients : UInt64) :
    Reports p (o.checkPublish c now clients) := by
  unfold OutputSide.checkPublish OutputSide.publishDashboard
  obtain ⟨horders, hmatch, horder, hfills, hlogging, hcalls, htape⟩ := h
  split_ifs with hdue hon
  · refine ⟨horders, hmatch, horder, hfills, hlogging, hcalls, fun _ => ?_⟩
    obtain ⟨hout, hpopped⟩ := htape hon
    exact ⟨by simp [hout, OutputThread.run, OutputThread.step],
      by simpa [OutputThread.popped] using hpopped⟩
  · exact ⟨horders, hmatch, horder, hfills, hlogging, hcalls, htape⟩
  · exact ⟨horders, hmatch, horder, hfills, hlogging, hcalls, htape⟩

theorem checkStats (h : Reports p o) (now : Nat) : Reports p (o.checkStats now) := by
  unfold OutputSide.checkStats
  split_ifs
  · exact ⟨h.orders, h.matchLatency, h.orderLatency, h.fills, h.logging, h.logged, h.tape⟩
  · exact h

theorem pay (h : Reports p o) (c : Counters) (now : Nat) (clients : UInt64) :
    Reports p (o.pay c now clients) := by
  have hiter : Reports p { o with debt := .none, iter := o.iter + 1 } :=
    ⟨h.orders, h.matchLatency, h.orderLatency, h.fills, h.logging, h.logged, h.tape⟩
  unfold OutputSide.pay
  split
  · exact h
  · simp only
    split_ifs
    · exact (hiter.checkPublish now clients).checkStats now
    · exact hiter
  · exact ((h.debt .none).checkPublish now clients).checkStats now
  · exact ⟨h.orders, h.matchLatency, h.orderLatency, h.fills, h.logging, h.logged, h.tape⟩

theorem close (h : Reports p o) : Reports p (o.log .close) := by
  refine ⟨h.orders, h.matchLatency, h.orderLatency, h.fills, ?_, ?_, h.tape⟩
  · simp [OutputSide.log, h.logging, TradeLogger.run]
  · simp [OutputSide.log, h.logged, loggedFill]

end Reports

/-! ## Dropped samples -/

/-- The output thread takes over the number of dropped samples once, after its loop. -/
structure Noted (p : Pipeline) (c : Counters) (o : OutputSide) : Prop where
  debt : p.consumer = .exited → o.debt = .none ∨ o.debt = .note
  exited : o.debt = .note → p.consumer = .exited
  before : p.consumer ≠ .exited ∨ o.debt = .note → o.metrics.droppedSamples = 0
  after : p.consumer = .exited → o.debt = .none → o.metrics.droppedSamples = c.latDropped
  joined : p.main = .done → o.debt = .none

/-- Taking a fill or a sample leaves these alone. -/
structure OutputSide.SameTimers (o o' : OutputSide) : Prop where
  droppedSamples : o'.metrics.droppedSamples = o.metrics.droppedSamples
  nextPub : o'.nextPub = o.nextPub
  nextStat : o'.nextStat = o.nextStat
  publishes : o'.publishes = o.publishes
  statLines : o'.statLines = o.statLines

theorem OutputSide.effect_timers (p : Pipeline) (o : OutputSide) (nowMs : UInt64)
    (pad : FillMessage.Padding) (accepted out : Nat) :
    o.SameTimers (o.effect p nowMs pad accepted out) := by
  unfold OutputSide.effect
  split
  · split_ifs
    · cases p.latency.tryPop with
      | none => constructor <;> rfl
      | some r =>
        simp only [Option.elim_some, OutputSide.recordSample]
        split <;> constructor <;> rfl
    · constructor <;> rfl
  · cases p.output.tryPop <;> constructor <;> rfl
  · split_ifs <;> constructor <;> rfl
  · constructor <;> rfl

theorem OutputSide.recordSample_debt (o : OutputSide) (x : LatencySample) :
    (o.recordSample x).debt = o.debt := by
  unfold OutputSide.recordSample
  split <;> rfl

/-- Only a thread that leaves its loop owes the note. -/
theorem OutputSide.effect_note {p : Pipeline} {o : OutputSide} (hnone : o.debt = .none)
    {nowMs : UInt64} {pad : FillMessage.Padding} {accepted out : Nat}
    (h : (o.effect p nowMs pad accepted out).debt = .note) :
    p.consumer = .loadStop ∧ p.outputStop = true := by
  unfold OutputSide.effect at h
  split at h
  · split_ifs at h
    · cases hpop : p.latency.tryPop <;> simp [hpop, OutputSide.recordSample_debt, hnone] at h
    · simp [hnone] at h
  · cases hpop : p.output.tryPop <;> simp [hpop] at h
  · rename_i hpc
    refine ⟨hpc, ?_⟩
    by_contra hflag
    simp [hflag, hnone] at h
  · simp [hnone] at h

theorem OutputSide.checkPublish_frame (c : Counters) (o : OutputSide) (now : Nat)
    (clients : UInt64) : (o.checkPublish c now clients).metrics = o.metrics ∧
      (o.checkPublish c now clients).debt = o.debt := by
  unfold OutputSide.checkPublish OutputSide.publishDashboard
  split_ifs <;> exact ⟨rfl, rfl⟩

theorem OutputSide.checkStats_frame (o : OutputSide) (now : Nat) :
    (o.checkStats now).metrics = o.metrics ∧ (o.checkStats now).debt = o.debt := by
  unfold OutputSide.checkStats
  split_ifs <;> exact ⟨rfl, rfl⟩

/-- The timers leave the metrics alone. -/
theorem OutputSide.pay_timers {o : OutputSide} {w : Bool} (h : o.debt = .timers w) (c : Counters)
    (now : Nat) (clients : UInt64) :
    (o.pay c now clients).metrics = o.metrics ∧ (o.pay c now clients).debt = .none := by
  unfold OutputSide.pay
  cases w with
  | false =>
    simp [h, checkStats_frame, checkPublish_frame]
  | true =>
    simp only [h]
    split_ifs
    · simp [checkStats_frame, checkPublish_frame]
    · exact ⟨rfl, rfl⟩

namespace Noted

variable {s p : Pipeline} {c c' : Counters} {o : OutputSide}

theorem congr (h : Noted s c o) (hconsumer : p.consumer = s.consumer)
    (hcount : c'.latDropped = c.latDropped) (hmain : p.main = .done → o.debt = .none) :
    Noted p c' o := by
  obtain ⟨hdebt, hexited, hbefore, hafter, -⟩ := h
  refine ⟨?_, ?_, ?_, ?_, hmain⟩ <;> simpa only [hconsumer, hcount]

theorem log (h : Noted p c o) (call : TradeLogger.Call) : Noted p c (o.log call) :=
  ⟨h.debt, h.exited, h.before, h.after, h.joined⟩

/-- The engine has nothing left to publish when the output thread leaves. -/
theorem payEngine {e : EngineSide} (h : Noted p c o)
    (hexit : p.consumer = .exited → e.debt = .none) : Noted p (e.pay p c).1 o := by
  refine ⟨h.debt, h.exited, h.before, fun he hd => ?_, h.joined⟩
  simpa [EngineSide.pay, hexit he] using h.after he hd

theorem runOutput (h : Noted s c o) (hnone : o.debt = .none)
    (hjoined : s.main = .done → s.consumer = .exited) (nowMs : UInt64)
    (pad : FillMessage.Padding) (accepted out : Nat) (hstep : RunOutput s p) :
    Noted p c (o.effect s nowMs pad accepted out) := by
  have halive : s.consumer ≠ .exited := by cases hstep <;> simp_all
  have hmain : s.main ≠ .done := fun hd => halive (hjoined hd)
  have hzero := (o.effect_timers s nowMs pad accepted out).droppedSamples.trans
    (h.before (.inl halive))
  cases hstep with
  | stop hpc hflag =>
    have hdebt : (o.effect s nowMs pad accepted out).debt = .note := by
      simp [OutputSide.effect, hpc, hflag]
    exact ⟨fun _ => .inr hdebt, fun _ => rfl, fun _ => hzero, fun _ hd => by simp [hdebt] at hd,
      fun hd => absurd hd hmain⟩
  | popSample hpc hi hr | noSample hpc hi hr | batch hpc hi | popFill hpc hr | again hpc hr
    | idle hpc hr | sleep hpc hflag =>
    refine ⟨nofun, fun hd => ?_, fun _ => hzero, nofun, fun hd => absurd hd hmain⟩
    have hleaves := OutputSide.effect_note hnone hd
    simp_all

theorem pay (h : Noted p c o) (now : Nat) (clients : UInt64) : Noted p c (o.pay c now clients) := by
  cases hdebt : o.debt with
  | none => simpa [OutputSide.pay, hdebt] using h
  | timers w =>
    obtain ⟨hmetrics, hnone⟩ := OutputSide.pay_timers hdebt c now clients
    have hpc : p.consumer ≠ .exited := fun he => by simpa [hdebt] using h.debt he
    exact ⟨fun he => absurd he hpc, fun hd => by simp [hnone] at hd,
      fun _ => hmetrics ▸ h.before (.inl hpc), fun he => absurd he hpc, fun _ => hnone⟩
  | note =>
    have hpc := h.exited hdebt
    have hzero := h.before (.inr hdebt)
    simp only [OutputSide.pay, hdebt, MetricsCollector.noteDroppedSamples, hzero]
    exact ⟨fun _ => .inl rfl, nofun, fun he => he.elim (absurd hpc) nofun, fun _ _ => by simp,
      fun _ => rfl⟩

end Noted

/-! ## Timers -/

/-- Both timers keep the pace of their interval. -/
structure Paced (o : OutputSide) : Prop where
  publish : 100000000 * (o.publishes + 1) ≤ o.nextPub
  stat : o.nextStat = 5000000000 * (o.statLines + 1)

namespace Paced

variable {o : OutputSide}

theorem checkPublish (h : Paced o) (c : Counters) (now : Nat) (clients : UInt64) :
    Paced (o.checkPublish c now clients) := by
  obtain ⟨hpub, hstat⟩ := h
  unfold OutputSide.checkPublish OutputSide.publishDashboard
  split_ifs <;> constructor <;> first | exact hstat | exact hpub | (simp only; omega)

theorem checkStats (h : Paced o) (now : Nat) : Paced (o.checkStats now) := by
  obtain ⟨hpub, hstat⟩ := h
  unfold OutputSide.checkStats
  split_ifs
  · exact ⟨hpub, by simp only; omega⟩
  · exact ⟨hpub, hstat⟩

theorem effect (h : Paced o) (p : Pipeline) (nowMs : UInt64) (pad : FillMessage.Padding)
    (accepted out : Nat) : Paced (o.effect p nowMs pad accepted out) := by
  have hsame := o.effect_timers p nowMs pad accepted out
  exact ⟨by rw [hsame.publishes, hsame.nextPub]; exact h.publish,
    by rw [hsame.statLines, hsame.nextStat]; exact h.stat⟩

theorem pay (h : Paced o) (c : Counters) (now : Nat) (clients : UInt64) :
    Paced (o.pay c now clients) := by
  have hiter : Paced { o with debt := .none, iter := o.iter + 1 } := ⟨h.publish, h.stat⟩
  have hnone : Paced { o with debt := .none } := ⟨h.publish, h.stat⟩
  unfold OutputSide.pay
  split
  · exact h
  · simp only
    split_ifs
    · exact (hiter.checkPublish c now clients).checkStats now
    · exact hiter
  · exact (hnone.checkPublish c now clients).checkStats now
  · exact ⟨h.publish, h.stat⟩

end Paced

end LockfreeMatching
