import LockfreeMatching.Core.Outcome
import LockfreeMatching.Pipeline.Reports

/-!
# Totals

What a whole run adds up to. All results hold in every state that the threads can reach, whatever
the interleaving and whatever the rings had to refuse.

## Main results

* `run_fills_accounted`: the fills logged are fills of the reference in their order, and the
  others are queued, counted as dropped or still in the hands of the engine.
* `run_samples_accounted`: the same for the samples, and what the final report says of them.
* `run_pool_shown`: how old the pool size on display is.
* `run_log_complete`: what the log holds after main has closed it.
* `run_tape_published`: what the dashboard was handed, and how often.
-/
namespace LockfreeMatching

open Lib

/-- The synthetic ingest counts its messages; a live feed does not use this counter. -/
structure Ingested (live : Bool) (p : Pipeline) (c : Counters) (debt : Bool) : Prop where
  synthetic : live = false → p.ingest ≠ .live ∧
    c.ingested + (if debt then 1 else 0) = .ofNat p.input.pushed.length
  live : live = true → (p.ingest = .live ∨ p.ingest = .exited) ∧ c.ingested = 0 ∧ debt = false

/-- The calls of the logger: the log is opened first, and closed after the last fill. -/
def LogShape (p : Pipeline) (calls : List TradeLogger.Call) : Prop :=
  ∃ log logs n, Telemetry.Opens log ∧ calls = log.toList ++ (logs ++ List.replicate n .close) ∧
    (∀ call ∈ logs, ∃ fill pad accepted out, call = .log fill pad accepted out) ∧
    (0 < n → p.main = .done)

structure Books (live : Bool) (s : Telemetry) : Prop where
  sends : Sends s.pipe s.engine
  counted : Counted s.pipe s.counters s.engine
  pool : PoolCounted s.pipe s.counters s.engine
  flows : Flows s.pipe
  joined : Joined s.pipe s.engine
  reports : Reports s.pipe s.output
  noted : Noted s.pipe s.counters s.output
  paced : Paced s.output
  ingested : Ingested live s.pipe s.counters s.ingestDebt
  shape : LogShape s.pipe s.output.logCalls

namespace Ingested

variable {live debt : Bool} {s p : Pipeline} {c c' : Counters}

theorem congr (h : Ingested live s c debt) (hingest : p.ingest = s.ingest)
    (hpushed : p.input.pushed = s.input.pushed) (hcount : c'.ingested = c.ingested) :
    Ingested live p c' debt := by
  obtain ⟨hsynthetic, hlive⟩ := h
  constructor <;> simpa only [hingest, hpushed, hcount]

theorem count (h : Ingested live p c true) :
    Ingested live p { c with ingested := c.ingested + 1 } false := by
  obtain ⟨hsynthetic, hlive⟩ := h
  constructor <;> simp_all

theorem runIngest (h : Ingested live s c false) (hstep : RunIngest s p) :
    Ingested live p c (Telemetry.ingestPushes s) := by
  obtain ⟨hsynthetic, hlive⟩ := h
  cases hstep with
  | push hpc hr =>
    have hpushed := (Ring.tryPush_eq hr).1
    constructor <;> simp_all [Telemetry.ingestPushes, UInt64.ofNat_add]
  | livePush msg hpc hr | full hpc hr =>
    constructor <;> simp_all [Telemetry.ingestPushes]
  | stop hpc _ | generate msg hpc _ | giveUp hpc _ | retry hpc _ | liveExit hpc =>
    constructor <;> simp_all [Telemetry.ingestPushes]

end Ingested

/-! ## What the steps of a thread leave alone -/

section Frame

variable {s p : Pipeline}

theorem RunIngest.frame (h : RunIngest s p) : p.engine = s.engine ∧ p.processed = s.processed ∧
    p.consumer = s.consumer ∧ p.logged = s.logged ∧ p.recorded = s.recorded ∧ p.main = s.main := by
  cases h <;> simp

theorem RunEngine.frame (h : RunEngine s p) : p.ingest = s.ingest ∧
    p.input.pushed = s.input.pushed ∧ p.consumer = s.consumer ∧ p.logged = s.logged ∧
    p.recorded = s.recorded ∧ p.main = s.main := by
  cases h with
  | pop _ hr => simpa using (Ring.tryPop_eq hr).2.1
  | _ => simp

theorem RunOutput.frame (h : RunOutput s p) : p.ingest = s.ingest ∧ p.input = s.input ∧
    p.engine = s.engine ∧ p.processed = s.processed ∧ p.main = s.main := by
  cases h <;> simp

theorem RunMain.frame (h : RunMain s p) : p.ingest = s.ingest ∧ p.input = s.input ∧
    p.engine = s.engine ∧ p.processed = s.processed ∧ p.consumer = s.consumer ∧
    p.logged = s.logged ∧ p.recorded = s.recorded := by
  cases h <;> simp

/-- Main does nothing after it has joined all threads. -/
theorem RunMain.not_done (h : RunMain s p) : s.main ≠ .done := by
  cases h <;> simp_all

/-- The last thread it joins is the output thread. -/
theorem RunMain.joins_output (h : RunMain s p) (hdone : p.main = .done) : s.main = .joinOutput := by
  cases h <;> simp_all

end Frame

namespace LogShape

variable {s p : Pipeline} {calls : List TradeLogger.Call}

theorem congr (h : LogShape s calls) (hmain : s.main = .done → p.main = .done) :
    LogShape p calls := by
  obtain ⟨log, logs, n, hopens, hcalls, hlogs, hdone⟩ := h
  exact ⟨log, logs, n, hopens, hcalls, hlogs, fun hn => hmain (hdone hn)⟩

theorem log (h : LogShape s calls) (hmain : s.main ≠ .done) (fill : FillMessage)
    (pad : FillMessage.Padding) (accepted out : Nat) :
    LogShape p (calls ++ [.log fill pad accepted out]) := by
  obtain ⟨log, logs, n, hopens, rfl, hlogs, hdone⟩ := h
  obtain rfl : n = 0 := by
    by_contra hn
    exact hmain (hdone (Nat.pos_of_ne_zero hn))
  refine ⟨log, logs ++ [.log fill pad accepted out], 0, hopens, by simp, ?_, by simp⟩
  simp only [List.mem_append, List.mem_singleton]
  rintro call (hcall | rfl)
  · exact hlogs call hcall
  · exact ⟨fill, pad, accepted, out, rfl⟩

theorem close (h : LogShape p calls) (hmain : p.main = .done) : LogShape p (calls ++ [.close]) := by
  obtain ⟨log, logs, n, hopens, rfl, hlogs, -⟩ := h
  exact ⟨log, logs, n + 1, hopens, by simp [List.replicate_succ'], hlogs, fun _ => hmain⟩

/-- The calls of a log that was opened and closed. -/
theorem closed {path : String} {out : Nat × Nat × Nat} {rest : List TradeLogger.Call}
    (h : LogShape p (.open_ path true out :: rest)) (hclosed : .close ∈ rest) :
    ∃ logs n, rest = logs ++ List.replicate (n + 1) .close ∧
      (∀ call ∈ logs, ∃ fill pad accepted out, call = .log fill pad accepted out) ∧
      p.main = .done := by
  obtain ⟨log, logs, n, hopens, hcalls, hlogs, hdone⟩ := h
  have hrest : rest = logs ++ List.replicate n .close := by
    cases hopens with
    | open_ path opened out => exact (List.cons.inj hcalls).2
    | noLog =>
      cases logs with
      | nil => cases n <;> simp [List.replicate_succ] at hcalls
      | cons call logs =>
        obtain ⟨fill, pad, accepted, m, rfl⟩ := hlogs call List.mem_cons_self
        simp at hcalls
  cases n with
  | zero =>
    rw [hrest, List.replicate_zero, List.append_nil] at hclosed
    obtain ⟨fill, pad, accepted, m, he⟩ := hlogs _ hclosed
    cases he
  | succ n => exact ⟨logs, n, hrest, hlogs, hdone (Nat.succ_pos n)⟩

theorem runOutput (h : LogShape s calls) (hdone : s.main = .done → s.consumer = .exited)
    {o : OutputSide} (hcalls : o.logCalls = calls) (nowMs : UInt64) (pad : FillMessage.Padding)
    (accepted out : Nat) (hstep : RunOutput s p) :
    LogShape p (o.effect s nowMs pad accepted out).logCalls := by
  have halive : s.main ≠ .done := fun hd => by
    have := hdone hd
    cases hstep <;> simp_all
  have hkeep : LogShape p o.logCalls := hcalls ▸ h.congr fun hd => absurd hd halive
  cases hstep with
  | popSample hpc hi hr =>
    simp only [OutputSide.effect, hpc, hi, if_true, hr, Option.elim_some, OutputSide.recordSample]
    split <;> exact hkeep
  | popFill hpc hr =>
    simp only [OutputSide.effect, hpc, hr, Option.elim_some, OutputSide.takeFill, hcalls]
    exact h.log halive _ pad accepted out
  | noSample hpc hi hr => simpa [OutputSide.effect, hpc, hi, hr] using hkeep
  | batch hpc hi => simpa [OutputSide.effect, hpc, Nat.not_lt.2 hi] using hkeep
  | again hpc hr | idle hpc hr => simpa [OutputSide.effect, hpc, hr] using hkeep
  | stop hpc hflag | sleep hpc hflag => simpa [OutputSide.effect, hpc, hflag] using hkeep

end LogShape

theorem OutputSide.pay_logCalls (c : Counters) (o : OutputSide) (now : Nat) (clients : UInt64) :
    (o.pay c now clients).logCalls = o.logCalls := by
  unfold OutputSide.pay OutputSide.checkStats OutputSide.checkPublish OutputSide.publishDashboard
  split <;> try rfl
  all_goals simp only; split_ifs <;> rfl

theorem EngineSide.pay_ingested (p : Pipeline) (c : Counters) (e : EngineSide) :
    (e.pay p c).1.ingested = c.ingested := by
  unfold EngineSide.pay
  split <;> rfl

/-! ## Every run -/

namespace Books

variable {live : Bool} {s t : Telemetry}

theorem start (live dashboard : Bool) {log : Option TradeLogger.Call}
    (hlog : Telemetry.Opens log) :
    Books live (Telemetry.start (if live then .live else .synthetic) dashboard log) where
  sends := by cases live <;> first | exact .synthetic | exact .live
  counted := by cases live <;> constructor <;> first | rfl | (intro h; cases h)
  pool := by
    cases live <;>
      exact ⟨Nat.zero_lt_succ _, fun _ => ⟨rfl, rfl⟩, fun h => (by cases h), fun h => absurd rfl h⟩
  flows := by cases live <;> constructor <;> rfl
  joined := by
    cases live <;>
      constructor <;> simp [Telemetry.start, Pipeline.synthetic, Pipeline.live, MainPc.engineJoined]
  reports := by
    have hempty : LatencyTracker.Represents {} [] := LatencyTracker.Represents.empty {}
    cases live <;> cases hlog <;> exact ⟨rfl, hempty, hempty, rfl, rfl, rfl, fun _ => ⟨rfl, rfl⟩⟩
  noted := by
    cases live <;>
      exact ⟨fun _ => .inl rfl, fun h => (by cases h), fun _ => rfl, fun h => (by cases h),
        fun _ => rfl⟩
  paced := ⟨le_refl _, rfl⟩
  ingested := by
    cases live <;> constructor <;> simp [Telemetry.start, Pipeline.synthetic, Pipeline.live]
  shape := ⟨log, [], 0, hlog, by simp [Telemetry.start], by simp, by simp⟩

theorem step (h : Books live s) (hstep : Telemetry.Step s t) : Books live t := by
  obtain ⟨hsends, hcounted, hpool, hflows, hjoined, hreports, hnoted, hpaced, hingested, hshape⟩ :=
    h
  cases hstep with
  | ingest hdebt hrun =>
    obtain ⟨he, hp, hc, hl, hr, hm⟩ := hrun.frame
    exact ⟨hsends.runIngest hrun, hcounted.congr he hp, hpool.congr he hp, hflows.runIngest hrun,
      hjoined.runIngest hrun, hreports.congr hl hr,
      hnoted.congr hc rfl fun hd => hnoted.joined (hm.symm.trans hd), hpaced,
      (hdebt ▸ hingested).runIngest hrun, hshape.congr fun hd => hm.trans hd⟩
  | countIngested hdebt =>
    exact ⟨hsends, hcounted.ingested _, hpool.ingested _, hflows, hjoined, hreports,
      hnoted.congr rfl rfl hnoted.joined, hpaced, (hdebt ▸ hingested).count, hshape⟩
  | engine hdebt hrun =>
    obtain ⟨hi, hpushed, hc, hl, hr, hm⟩ := hrun.frame
    exact ⟨hsends.runEngine hrun, hcounted.runEngine hdebt hrun, hpool.runEngine hdebt hrun,
      hflows.runEngine hrun, hjoined.runEngine hrun, hreports.congr hl hr,
      hnoted.congr hc rfl fun hd => hnoted.joined (hm.symm.trans hd), hpaced,
      hingested.congr hi hpushed rfl, hshape.congr fun hd => hm.trans hd⟩
  | payEngine =>
    refine ⟨hsends.pay _, hcounted.pay, hpool.pay hcounted.fits hsends.simulates, hflows,
      hjoined.pay _, hreports, ?_, hpaced, hingested.congr rfl rfl (EngineSide.pay_ingested ..),
      hshape⟩
    exact hnoted.payEngine fun hexit => (hjoined.engine (.inr (hjoined.output hexit))).2
  | output nowMs pad accepted out hdebt hrun =>
    obtain ⟨hi, hin, he, hp, hm⟩ := hrun.frame
    exact ⟨hsends.runOutput hrun, hcounted.congr he hp, hpool.congr he hp, hflows.runOutput hrun,
      hjoined.runOutput hrun, hreports.runOutput nowMs pad accepted out hrun,
      hnoted.runOutput hdebt hjoined.done nowMs pad accepted out hrun,
      hpaced.effect _ nowMs pad accepted out,
      hingested.congr hi (by rw [hin]) rfl,
      hshape.runOutput hjoined.done rfl nowMs pad accepted out hrun⟩
  | payOutput now clients =>
    exact ⟨hsends, hcounted, hpool, hflows, hjoined, hreports.pay _ now clients,
      hnoted.pay now clients, hpaced.pay _ now clients, hingested,
      by rw [OutputSide.pay_logCalls]; exact hshape⟩
  | main hjoins hrun =>
    obtain ⟨hi, hin, he, hp, hc, hl, hr⟩ := hrun.frame
    exact ⟨hsends.runMain hrun, hcounted.congr he hp, hpool.congr he hp, hflows.runMain hrun,
      hjoined.runMain hjoins.2.1 hrun, hreports.congr hl hr,
      hnoted.congr hc rfl fun hd => hjoins.2.2 (hrun.joins_output hd), hpaced,
      hingested.congr hi (by rw [hin]) rfl, hshape.congr fun hd => absurd hd hrun.not_done⟩
  | signal =>
    exact ⟨hsends.congr rfl rfl rfl rfl rfl, hcounted.congr rfl rfl, hpool.congr rfl rfl,
      ⟨hflows.input, hflows.output, hflows.latency⟩,
      ⟨hjoined.engine, hjoined.output, hjoined.done⟩, hreports.congr rfl rfl,
      hnoted.congr rfl rfl hnoted.joined, hpaced, hingested.congr rfl rfl rfl, hshape.congr id⟩
  | closeLog hdone =>
    exact ⟨hsends, hcounted, hpool, hflows, hjoined, hreports.close, hnoted.log _,
      ⟨hpaced.publish, hpaced.stat⟩, hingested,
      hshape.close hdone⟩

/-- The fills handed on, in the order of the reference. -/
theorem in_order (h : Books live s) :
    (s.pipe.logged ++ s.pipe.output.queue).Sublist
      (RefBook.trace .empty s.pipe.processed).2 := by
  rw [← h.flows.output, h.sends.output, h.sends.fills]
  exact (taken_sublist _).trans (List.sublist_append_left _ _)

end Books

/-! ## The log of a run -/

section Prices

/-- All resting orders are inside the level array. -/
def InRange (ref : RefBook) : Prop := ∀ s, ∀ r ∈ ref s, 0 ≤ r.price ∧ r.price < maxPriceTicks

theorem settle_prices (side : List Resting) (takes : List (Resting × Quantity)) :
    ∀ r ∈ settle side takes, ∃ a ∈ side, a.price = r.price := by
  induction takes generalizing side with
  | nil => exact fun r hr => ⟨r, hr, rfl⟩
  | cons t takes ih =>
    intro r hr
    obtain ⟨a, ha, hprice⟩ := ih _ r hr
    rcases mem_execute ha with ⟨ha, -⟩ | ⟨b, hb, -, -, rfl⟩
    exacts [⟨a, ha, hprice⟩, ⟨b, hb, hprice⟩]

theorem inRange_empty : InRange .empty := nofun

theorem InRange.rest {ref : RefBook} (h : InRange ref) {msg : NewOrderMessage} {left : Quantity}
    (hprice : msg.type = .limit → 0 ≤ msg.price ∧ msg.price < maxPriceTicks) :
    InRange (ref.rest msg left) := by
  unfold RefBook.rest
  split_ifs with hrest
  · intro s r hr
    by_cases hs : s = msg.side
    · subst hs
      rw [Function.update_self, List.mem_append, List.mem_singleton] at hr
      rcases hr with hr | rfl
      · exact h _ r hr
      · exact hprice hrest.1
    · rw [Function.update_of_ne hs] at hr
      exact h s r hr
  · exact h

theorem InRange.process {ref : RefBook} (h : InRange ref) (msg : EngineMessage) :
    InRange (ref.process msg).1 ∧
      ∀ f ∈ (ref.process msg).2, 0 ≤ f.price ∧ f.price < maxPriceTicks := by
  cases msg with
  | cancel msg =>
    refine ⟨fun s r hr => h s r ?_, fun f hf => (by cases hf)⟩
    exact (List.mem_filter.1 hr).1
  | newOrder msg =>
    simp only [RefBook.process, RefBook.newOrder]
    split_ifs with hign
    · exact ⟨h, by simp⟩
    have hmatched : InRange (Function.update ref msg.side.opposite
        (matchSide msg.side.opposite (beyondLimit msg) (ref msg.side.opposite)
          msg.quantity).side) := by
      intro s r hr
      by_cases hs : s = msg.side.opposite
      · subst hs
        rw [Function.update_self] at hr
        obtain ⟨a, ha, hprice⟩ := settle_prices _ _ r hr
        exact hprice ▸ h _ a ha
      · rw [Function.update_of_ne hs] at hr
        exact h s r hr
    refine ⟨hmatched.rest fun hkind => ?_, ?_⟩
    · by_contra hout
      exact hign (.inr ⟨hkind, hout⟩)
    · intro f hf
      obtain ⟨t, ht, rfl⟩ := List.mem_map.1 hf
      exact h _ t.1 (mem_takes ht).1

theorem InRange.trace {ref : RefBook} (h : InRange ref) (msgs : List EngineMessage) :
    ∀ f ∈ (ref.trace msgs).2, 0 ≤ f.price ∧ f.price < maxPriceTicks := by
  induction msgs generalizing ref with
  | nil => exact nofun
  | cons msg msgs ih =>
    obtain ⟨hnext, hfills⟩ := h.process msg
    intro f hf
    rcases List.mem_append.1 hf with hf | hf
    exacts [hfills f hf, ih hnext f hf]

end Prices

namespace TradeLogger

variable (path : String) (fills : List FillMessage) (synced : Option Nat)

/-- Fills logged while the log is open. -/
theorem session_logs {logs : List Call}
    (h : ∀ call ∈ logs, ∃ fill pad accepted out, call = .log fill pad accepted out) :
    logs.foldl Session.step (some { path, fills, synced }) =
      some { path, fills := fills ++ logs.filterMap loggedFill, synced } := by
  induction logs generalizing fills with
  | nil => simp
  | cons call logs ih =>
    obtain ⟨fill, pad, accepted, out, rfl⟩ := h call List.mem_cons_self
    have hrest := ih (fills ++ [fill]) fun c hc => h c (List.mem_cons_of_mem _ hc)
    simpa [Session.step, loggedFill] using hrest

/-- Closing again changes nothing. -/
theorem session_close (n : Nat) :
    (List.replicate (n + 1) Call.close).foldl Session.step (some { path, fills, synced }) =
      some { path, fills, synced := some fills.length, isOpen := false } := by
  induction n with
  | zero => rfl
  | succ n ih =>
    rw [List.replicate_succ', List.foldl_concat, ih]
    rfl

/-- The session of a log that was closed after the last fill. -/
theorem lastSession_closed (out : Nat × Nat × Nat) {logs : List Call}
    (h : ∀ call ∈ logs, ∃ fill pad accepted out, call = .log fill pad accepted out) (n : Nat) :
    lastSession (.open_ path true out :: (logs ++ List.replicate (n + 1) .close)) =
      some { path, fills := logs.filterMap loggedFill,
             synced := some (logs.filterMap loggedFill).length, isOpen := false } := by
  have hopen : Session.step none (.open_ path true out) = some { path } := rfl
  rw [lastSession, List.foldl_cons, List.foldl_append, hopen, session_logs path [] none h,
    session_close, List.nil_append]

end TradeLogger

namespace Telemetry

variable {live : Bool} {s : Telemetry}

theorem run_books (h : Run live s) : Books live s := by
  induction h with
  | start dashboard hlog => exact Books.start live dashboard hlog
  | step _ hstep ih => exact ih.step hstep

/-- An iteration that had work to do and does not look at the clock. -/
theorem Run.busy (h : Run live s) (hdebt : s.output.debt = .timers true)
    (hiter : (s.output.iter + 1) &&& 255 ≠ 0) :
    Run live { s with output := { s.output with debt := .none, iter := s.output.iter + 1 } } := by
  have hpay := h.step (.payOutput s 0 0)
  simpa [OutputSide.pay, hdebt, hiter] using hpay

def restingAsk : EngineMessage :=
  .newOrder { id := 1, side := .ask, price := 100, quantity := 5 }

def crossingBid : EngineMessage :=
  .newOrder { id := 2, side := .bid, price := 100, quantity := 3 }

def crossingFill : Fill where
  aggressiveId := 2
  passiveId := 1
  price := 100
  quantity := 3
  timestamp := 0
  aggressorSide := .bid

def noPadding : FillMessage.Padding where
  afterQuantity := .replicate 4 0
  afterSide := .replicate 7 0

/-- A run to completion: two orders trade, and the fill is logged. -/
theorem crossing_run (pad : FillMessage.Padding) : ∃ s, Run false s ∧ s.pipe.main = .done ∧
    s.pipe.logged = [crossingFill] ∧ s.pipe.processed = [restingAsk, crossingBid] ∧
    s.engine.debt = .none ∧ s.output.dashboard = true ∧ s.output.logCalls =
      [.open_ "trades.bin" true (12, 0, 0), .log crossingFill pad 48 0, .close] := by
  have hfill : (RefBook.process (RefBook.process .empty restingAsk).1 crossingBid).2 =
      [crossingFill] := by decide +kernel
  obtain ⟨⟨_, _, fills₁⟩, hproc₁, rfl, hsim⟩ := process_simulates .new restingAsk
  obtain ⟨⟨_, _, fills₂⟩, hproc₂, hfills₂, -⟩ := process_simulates hsim crossingBid
  obtain rfl : fills₂ = [crossingFill] := hfills₂.trans hfill
  have h : Run false _ := .start true (.open_ "trades.bin" true (12, 0, 0))
  -- the first order
  replace h := h.step (.payEngine _)
  replace h := h.step (.ingest rfl (.generate restingAsk rfl rfl))
  replace h := h.step (.ingest rfl (.push rfl rfl))
  replace h := h.step (.countIngested rfl)
  replace h := h.step (.engine rfl (.pop rfl rfl))
  replace h := h.step (.engine rfl (.process 0 5 rfl hproc₁))
  replace h := h.step (.engine rfl (.pushSample rfl rfl))
  replace h := h.step (.engine rfl (.next rfl))
  replace h := h.step (.payEngine _)
  -- the second one
  replace h := h.step (.ingest rfl (.generate crossingBid rfl rfl))
  replace h := h.step (.ingest rfl (.push rfl rfl))
  replace h := h.step (.countIngested rfl)
  replace h := h.step (.engine rfl (.pop rfl rfl))
  replace h := h.step (.engine rfl (.process 0 5 rfl hproc₂))
  replace h := h.step (.engine rfl (.pushSample rfl rfl))
  replace h := h.step (.engine rfl (.pushFill rfl rfl))
  replace h := h.step (.payEngine _)
  replace h := h.step (.engine rfl (.next rfl))
  replace h := h.step (.payEngine _)
  -- shutdown
  replace h := h.step (.signal _)
  replace h := h.step (.ingest rfl (.stop rfl rfl))
  replace h := h.step (.main ⟨nofun, nofun, nofun⟩ (.notice rfl rfl))
  replace h := h.step (.main ⟨fun _ => rfl, nofun, nofun⟩ (.joinIngest rfl rfl))
  replace h := h.step (.main ⟨nofun, nofun, nofun⟩ (.storeEngineStop rfl))
  replace h := h.step (.engine rfl (.empty rfl rfl))
  replace h := h.step (.engine rfl (.stop rfl rfl))
  replace h := h.step (.payEngine _)
  replace h := h.step (.payEngine _)
  replace h := h.step (.main ⟨nofun, fun _ => rfl, nofun⟩ (.joinEngine rfl rfl))
  replace h := h.step (.main ⟨nofun, nofun, nofun⟩ (.storeOutputStop rfl))
  -- the output thread drains its rings
  replace h := h.step (.output 0 pad 48 0 rfl (.popSample rfl (by decide) rfl))
  replace h := h.step (.output 0 pad 48 0 rfl (.popSample rfl (by decide) rfl))
  replace h := h.step (.output 0 pad 48 0 rfl (.noSample rfl (by decide) rfl))
  replace h := h.step (.output 0 pad 48 0 rfl (.popFill rfl rfl))
  replace h := h.busy rfl (show (0 + 1 : UInt64) &&& 255 ≠ 0 by decide)
  replace h := h.step (.output 0 pad 48 0 rfl (.noSample rfl (by decide) rfl))
  replace h := h.step (.output 0 pad 48 0 rfl (.idle rfl rfl))
  replace h := h.step (.payOutput _ 100000000 0)
  replace h := h.step (.output 0 pad 48 0 rfl (.stop rfl rfl))
  replace h := h.step (.payOutput _ 100000000 0)
  replace h := h.step (.main ⟨nofun, nofun, fun _ => rfl⟩ (.joinOutput rfl rfl))
  replace h := h.step (.closeLog rfl)
  exact ⟨_, h, rfl, rfl, rfl, rfl, rfl, rfl⟩

/-- The engine processes the messages in the order of the ring. Every fill of the reference is
logged, queued, dropped or not handed on yet, and those logged come in its order. The counters
show this, up to the update the engine is about to make. -/
theorem run_fills_accounted (h : Run live s) :
    s.pipe.processed <+: s.pipe.input.pushed ∧
      (s.pipe.logged ++ s.pipe.output.queue).Sublist (RefBook.trace .empty s.pipe.processed).2 ∧
      (RefBook.trace .empty s.pipe.processed).2.length =
        s.pipe.logged.length + s.pipe.output.queue.length + (refused s.engine.sent).length +
          s.pipe.engine.fillsLeft.length ∧
      s.counters.processed + (if s.engine.busy s.pipe.engine then 1 else 0) =
        .ofNat s.pipe.processed.length ∧
      s.counters.fills + s.engine.owes .fill =
        .ofNat (s.pipe.logged.length + s.pipe.output.queue.length) ∧
      s.counters.outDropped + s.engine.owes .drop = .ofNat (refused s.engine.sent).length ∧
      s.output.metrics.totalMatches = .ofNat s.pipe.logged.length ∧
      (live = false → s.counters.ingested + (if s.ingestDebt then 1 else 0) =
        .ofNat s.pipe.input.pushed.length) := by
  have hb := run_books h
  have htaken : taken s.engine.sent = s.pipe.logged ++ s.pipe.output.queue :=
    hb.sends.output.symm.trans hb.flows.output
  have hsplit := length_taken_add_refused s.engine.sent
  refine ⟨⟨_, (List.append_assoc ..).symm.trans hb.flows.input.symm⟩, hb.in_order, ?_,
    hb.counted.processed, ?_, hb.counted.drops, hb.reports.fills, fun hl =>
      (hb.ingested.synthetic hl).2⟩
  · rw [htaken, List.length_append] at hsplit
    simp only [hb.sends.fills, List.length_append, List.length_map]
    omega
  · rw [hb.counted.fills, htaken, List.length_append]

theorem run_fills_accounted_crossing : ∃ s, Run false s ∧ s.pipe.main = .done ∧
    s.pipe.logged = [crossingFill] ∧
    (s.pipe.logged ++ s.pipe.output.queue).Sublist (RefBook.trace .empty s.pipe.processed).2 ∧
    s.output.metrics.totalMatches = 1 := by
  obtain ⟨s, h, hdone, hlogged, -⟩ := crossing_run noPadding
  obtain ⟨-, hsublist, -, -, -, -, hmatches, -⟩ := run_fills_accounted h
  exact ⟨s, h, hdone, hlogged, hsublist, by simpa [hlogged] using hmatches⟩

/-- Every message processed has one match sample, which is recorded, queued, dropped or not
handed on yet, and the recorded ones are what the report counts as orders. In the end the report
has the number of all samples dropped. -/
theorem run_samples_accounted (h : Run live s) :
    s.pipe.processed.length = s.pipe.recorded.countP isMatch + s.pipe.latency.queue.countP isMatch +
        (refused s.engine.sampled).countP isMatch + s.pipe.engine.samplesLeft.countP isMatch ∧
      s.output.metrics.totalOrders = .ofNat (s.pipe.recorded.countP isMatch) ∧
      LatencyTracker.Represents s.output.metrics.matchLatency
        ((s.pipe.recorded.filter isMatch).map (·.ns)) ∧
      LatencyTracker.Represents s.output.metrics.orderLatency
        ((s.pipe.recorded.filter (!isMatch ·)).map (·.ns)) ∧
      (s.pipe.main = .done →
        s.output.metrics.droppedSamples = .ofNat (refused s.engine.sampled).length) := by
  have hb := run_books h
  refine ⟨?_, hb.reports.orders, hb.reports.matchLatency, hb.reports.orderLatency, fun hdone => ?_⟩
  · have htaken : taken s.engine.sampled = s.pipe.recorded ++ s.pipe.latency.queue :=
      hb.sends.latency.symm.trans hb.flows.latency
    have hsplit := countP_taken_add_refused s.engine.sampled isMatch
    rw [htaken, List.countP_append] at hsplit
    have hsamples := hb.sends.samples
    rw [List.countP_append] at hsamples
    omega
  · obtain ⟨hexit, hnone⟩ := hb.joined.engine (.inl (by simp [hdone, MainPc.engineJoined]))
    rw [hb.noted.after (hb.joined.done hdone) (hb.noted.joined hdone),
      hb.counted.exited hexit hnone, hb.counted.samples]

theorem run_samples_accounted_crossing : ∃ s, Run false s ∧ s.pipe.main = .done ∧
    s.pipe.processed.length = s.pipe.recorded.countP isMatch + s.pipe.latency.queue.countP isMatch +
      (refused s.engine.sampled).countP isMatch + s.pipe.engine.samplesLeft.countP isMatch ∧
    s.pipe.processed.length = 2 := by
  obtain ⟨s, h, hdone, -, hprocessed, -⟩ := crossing_run noPadding
  exact ⟨s, h, hdone, (run_samples_accounted h).1, by simp [hprocessed]⟩

/-- The pool size on display is that after all but the last messages processed, at most 1024 of
them, and in the end after all. -/
theorem run_pool_shown (h : Run live s) (hstarted : s.engine.debt ≠ .start) :
    ∃ k, k ≤ s.pipe.processed.length ∧ s.pipe.processed.length ≤ k + 1024 ∧
      s.counters.poolFree.toNat + restingCount (s.pipe.processed.take k) = orderPoolSize ∧
      (s.pipe.main = .done → k = s.pipe.processed.length) := by
  have hb := run_books h
  obtain ⟨k, hshown, hle, hlag, hfinal⟩ := hb.pool.shown hstarted
  have hsince := hb.pool.since
  refine ⟨k, hle, ?_, hshown, fun hdone => ?_⟩
  · by_cases hlast : s.pipe.engine ≠ .exited ∨ s.engine.debt = .exitPool
    · rw [hlag hlast]
      by_cases hdue : s.engine.debt = .poolFree
      · -- the size of now is about to be published
        have hpop : s.pipe.engine = .pop := by
          simpa [hdue, EngineDebt.Fits] using hb.counted.fits
        simp [hb.pool.due hdue, hdue, hpop, EngineSide.busy]
      · rw [if_neg hdue]
        split_ifs <;> omega
    · rw [not_or, not_not] at hlast
      exact Nat.le_add_right_of_le (hfinal hlast.1 hlast.2).ge
  · obtain ⟨hexit, hnone⟩ := hb.joined.engine (.inl (by simp [hdone, MainPc.engineJoined]))
    exact hfinal hexit (by simp [hnone])

theorem run_pool_shown_crossing : ∃ s, Run false s ∧ s.engine.debt ≠ .start ∧
    s.counters.poolFree.toNat + restingCount [restingAsk, crossingBid] = orderPoolSize := by
  obtain ⟨s, h, hdone, -, hprocessed, hdebt, -⟩ := crossing_run noPadding
  have hstarted : s.engine.debt ≠ .start := by simp [hdebt]
  obtain ⟨k, -, -, hshown, hlast⟩ := run_pool_shown h hstarted
  rw [hlast hdone, List.take_length, hprocessed] at hshown
  exact ⟨s, h, hstarted, hshown⟩

/-- A log that was opened and closed has exactly the fills taken from the ring, in the order of the
reference. -/
theorem run_log_complete (h : Run live s) {path : String} {out : Nat × Nat × Nat}
    {rest : List TradeLogger.Call} (hcalls : s.output.logCalls = .open_ path true out :: rest)
    (hwhole : ∀ fill pad accepted n, .log fill pad accepted n ∈ rest →
      FillMessage.byteSize ≤ accepted) (hclosed : .close ∈ rest) :
    s.pipe.main = .done ∧ s.output.logging.totalLogged = .ofNat s.pipe.logged.length ∧
      TradeLogger.readLog (s.output.logging.disk path) = some (s.pipe.logged.map some) ∧
      s.pipe.logged.Sublist (RefBook.trace .empty s.pipe.processed).2 := by
  have hb := run_books h
  obtain ⟨logs, n, hrest, hlogs, hdone⟩ := (hcalls ▸ hb.shape).closed hclosed
  have hlogged : logs.filterMap loggedFill = s.pipe.logged := by
    have hclose : (List.replicate (n + 1) TradeLogger.Call.close).filterMap loggedFill = [] := by
      simp [List.filterMap_replicate, loggedFill]
    have := hb.reports.logged
    rwa [hcalls, hrest, List.filterMap_cons_none rfl, List.filterMap_append, hclose,
      List.append_nil] at this
  have hsublist : s.pipe.logged.Sublist (RefBook.trace .empty s.pipe.processed).2 :=
    (List.sublist_append_left _ _).trans hb.in_order
  have hsession := TradeLogger.lastSession_closed path out hlogs n
  rw [hlogged, ← hrest, ← hcalls] at hsession
  have hsound : ∀ call ∈ s.output.logCalls, TradeLogger.Sound call := by
    intro call hcall
    rw [hcalls] at hcall
    cases call with
    | log fill pad accepted m =>
      have hmem : .log fill pad accepted m ∈ rest := by simpa using hcall
      have hfill : fill ∈ s.pipe.logged :=
        hb.reports.logged ▸ List.mem_filterMap.2 ⟨_, hcalls ▸ hcall, rfl⟩
      obtain ⟨hlow, hhigh⟩ := inRange_empty.trace _ fill (hsublist.subset hfill)
      simp only [maxPriceTicks] at hhigh
      exact ⟨hwhole _ _ _ _ hmem, by unfold PriceFits; omega⟩
    | _ => trivial
  have htracks := TradeLogger.run_tracks hsound
  rw [hsession, ← hb.reports.logging] at htracks
  refine ⟨hdone, htracks.1, ?_, hsublist⟩
  rcases htracks.readable with ⟨hnone, -⟩ | ⟨m, hm, hread, hsynced⟩
  · cases hnone
  · rw [hread, List.take_of_length_le (hsynced _ rfl)]

theorem run_log_complete_crossing : ∃ s, Run false s ∧
    TradeLogger.readLog (s.output.logging.disk "trades.bin") = some [some crossingFill] := by
  obtain ⟨s, h, -, hlogged, -, -, -, hcalls⟩ := crossing_run noPadding
  have hwhole : ∀ fill pad accepted n, TradeLogger.Call.log fill pad accepted n ∈
      [.log crossingFill noPadding 48 0, .close] → FillMessage.byteSize ≤ accepted := by
    intro fill pad accepted n hmem
    simp only [List.mem_cons, TradeLogger.Call.log.injEq, reduceCtorEq, List.not_mem_nil,
      or_false] at hmem
    exact hmem.2.2.1.ge
  have hread := (run_log_complete h hcalls hwhole (by simp)).2.2.1
  exact ⟨s, h, by simpa [hlogged] using hread⟩

end Telemetry

end LockfreeMatching
