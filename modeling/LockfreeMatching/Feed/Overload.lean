import LockfreeMatching.Feed.Executions
import LockfreeMatching.Pipeline.Threads

/-!
# Overload of the live feed

The message handler of the live feed parses a frame into a batch and pushes the batch into the
ring message by message. What finds the ring full is dropped and counted, but the handler's
live map has changed already. A dropped order leaves a level without an order, which the next
snapshot repairs. A dropped cancel leaves an order that the handler no longer knows of, and
no snapshot ever cancels it.

## Main results

* `FedEngine.run_snapshot_heals`: while no cancel is dropped of an order that is going to rest,
  a snapshot that gets through leaves only its own orders in the book.
* `FedEngine.run_lost_cancel`: an order that outlives a snapshot.
-/
namespace LockfreeMatching

open Lib MatchingEngine

/-- The receive time that the message handler puts on a message. -/
def EngineMessage.stamp (now : Timestamp) : EngineMessage → EngineMessage
  | .newOrder m => .newOrder { m with timestamp := now }
  | .cancel c => .cancel { c with timestamp := now }

structure CoinbaseFeed where
  handler : FeedHandler := {}
  /-- What is left to push of the last frame. -/
  batch : List EngineMessage := []
  pushed : UInt64 := 0
  dropped : UInt64 := 0

/-- The feed, the ring it pushes into, and the engine that drains the ring. -/
structure FedEngine where
  feed : CoinbaseFeed := {}
  ring : Ring EngineMessage := {}
  /-- The message the engine has popped and not processed yet. -/
  current : Option EngineMessage := none
  engine : MatchingEngine := .new
  processed : List EngineMessage := []

/-- A frame arrives, the message handler pushes, the engine pops, the engine processes. -/
inductive FeedMove where
  | frame (a : Arrival) (now : Timestamp)
  | push
  | pop
  | process

namespace FedEngine

/-- One move of one thread; a move that is not enabled changes nothing. -/
def step (conv : Conversions) (s : FedEngine) : FeedMove → Option FedEngine
  | .frame a now =>
    match s.feed.batch with
    | [] =>
      let sink := (Sink.parse conv { handler := s.feed.handler } a).1
      some { s with
        feed := { s.feed with
          handler := sink.handler
          batch := sink.out.map (.stamp now) } }
    | _ :: _ => some s
  | .push =>
    match s.feed.batch with
    | [] => some s
    | msg :: batch =>
      match s.ring.tryPush feedQueueSize msg with
      | some ring =>
        some { s with ring, feed := { s.feed with batch, pushed := s.feed.pushed + 1 } }
      | none => some { s with feed := { s.feed with batch, dropped := s.feed.dropped + 1 } }
  | .pop =>
    match s.current, s.ring.tryPop with
    | none, some (msg, ring) => some { s with ring, current := some msg }
    | _, _ => some s
  | .process =>
    match s.current with
    | none => some s
    | some msg => (s.engine.process msg).map fun e =>
        { s with engine := e, current := none, processed := s.processed ++ [msg] }

def run (conv : Conversions) (s : FedEngine) : List FeedMove → Option FedEngine
  | [] => some s
  | m :: ms => (s.step conv m).bind fun s' => run conv s' ms

/-- What was accepted and is not processed yet, in order. -/
def waiting (s : FedEngine) : List EngineMessage := s.current.toList ++ s.ring.queue

/-- The next push drops the cancel of an order that is going to rest: the engine will hold it
once it has processed what is waiting. -/
def LosesCancel (s : FedEngine) : Prop :=
  ∃ c batch e, s.feed.batch = .cancel c :: batch ∧
    s.ring.tryPush feedQueueSize (.cancel c) = none ∧
    s.engine.run s.waiting = some e ∧ e.book.getOrder c.id ≠ none

/-! ## The engine follows what was accepted -/

structure Consistent (s : FedEngine) : Prop where
  sim : Simulates s.engine (RefBook.run .empty s.processed)
  accepted : s.ring.pushed = s.processed ++ s.waiting

theorem Consistent.new : Consistent {} where
  sim := .new
  accepted := rfl

/-- What a move can do. -/
theorem Consistent.step_cases {s : FedEngine} (hs : Consistent s) (conv : Conversions)
    (m : FeedMove) :
    ∃ s', s.step conv m = some s' ∧ Consistent s' ∧
      ((s'.feed = s.feed ∧ s'.ring.pushed = s.ring.pushed) ∨
      (∃ a now, m = .frame a now ∧ s.feed.batch = [] ∧ s'.ring = s.ring ∧
        s'.feed.handler = (Sink.parse conv { handler := s.feed.handler } a).1.handler ∧
        s'.feed.batch = (Sink.parse conv { handler := s.feed.handler } a).1.out.map
          (.stamp now)) ∨
      (∃ msg, m = .push ∧ s.feed.batch = msg :: s'.feed.batch ∧
        s'.feed.handler = s.feed.handler ∧ s'.ring.pushed = s.ring.pushed ++ [msg]) ∨
      ∃ msg, m = .push ∧ s.feed.batch = msg :: s'.feed.batch ∧
        s'.feed.handler = s.feed.handler ∧ s.ring.tryPush feedQueueSize msg = none ∧
        s'.ring = s.ring) := by
  cases m with
  | frame a now =>
    unfold step
    cases hbatch : s.feed.batch with
    | nil =>
      exact ⟨_, rfl, ⟨hs.sim, hs.accepted⟩, .inr (.inl ⟨a, now, rfl, rfl, rfl, rfl, rfl⟩)⟩
    | cons msg batch => exact ⟨s, rfl, hs, .inl ⟨rfl, rfl⟩⟩
  | push =>
    unfold step
    cases hbatch : s.feed.batch with
    | nil => exact ⟨s, rfl, hs, .inl ⟨rfl, rfl⟩⟩
    | cons msg batch =>
      dsimp only
      cases hpush : s.ring.tryPush feedQueueSize msg with
      | some ring =>
        obtain ⟨rfl, -⟩ := Ring.tryPush_eq hpush
        refine ⟨_, rfl, ⟨hs.sim, ?_⟩, .inr (.inr (.inl ⟨msg, rfl, rfl, rfl, rfl⟩))⟩
        simp [hs.accepted, waiting]
      | none =>
        exact ⟨_, rfl, ⟨hs.sim, hs.accepted⟩, .inr (.inr (.inr ⟨msg, rfl, rfl, rfl, hpush, rfl⟩))⟩
  | pop =>
    unfold step
    cases hcur : s.current with
    | some msg => exact ⟨s, rfl, hs, .inl ⟨rfl, rfl⟩⟩
    | none =>
      cases hpop : s.ring.tryPop with
      | none => exact ⟨s, rfl, hs, .inl ⟨rfl, rfl⟩⟩
      | some popped =>
        obtain ⟨hqueue, hpushed, -⟩ := Ring.tryPop_eq hpop
        refine ⟨_, rfl, ⟨hs.sim, ?_⟩, .inl ⟨rfl, hpushed⟩⟩
        simp [waiting, hpushed, hs.accepted, hcur, hqueue]
  | process =>
    unfold step
    cases hcur : s.current with
    | none => exact ⟨s, rfl, hs, .inl ⟨rfl, rfl⟩⟩
    | some msg =>
      obtain ⟨e, hstep, -, hsim⟩ := process_simulates hs.sim msg
      refine ⟨{ s with engine := e, current := none, processed := s.processed ++ [msg] },
        by dsimp only; rw [hstep]; rfl, ⟨?_, ?_⟩, .inl ⟨rfl, rfl⟩⟩
      · simpa [RefBook.run_append, RefBook.run] using hsim
      · simp [hs.accepted, waiting, hcur]

theorem Consistent.run {s : FedEngine} (hs : Consistent s) (conv : Conversions)
    (ms : List FeedMove) : ∃ s', s.run conv ms = some s' ∧ Consistent s' := by
  induction ms generalizing s with
  | nil => exact ⟨s, rfl, hs⟩
  | cons m ms ih =>
    obtain ⟨s₁, hstep, hs₁, -⟩ := hs.step_cases conv m
    obtain ⟨s', hrun, hs'⟩ := ih hs₁
    exact ⟨s', by rw [FedEngine.run, hstep]; exact hrun, hs'⟩

theorem run_append (conv : Conversions) (s : FedEngine) (a b : List FeedMove) :
    s.run conv (a ++ b) = (s.run conv a).bind fun s' => s'.run conv b := by
  induction a generalizing s with
  | nil => rfl
  | cons m a ih => simp only [List.cons_append, run, ih, Option.bind_assoc]

/-- The engine takes the next `n` messages. -/
def drain (n : Nat) : List FeedMove := (List.replicate n [.pop, .process]).flatten

/-- An idle engine catches up. -/
theorem Consistent.run_drain {s : FedEngine} (hs : Consistent s) (conv : Conversions)
    (hidle : s.current = none) {n : Nat} (hn : s.ring.queue.length = n) :
    ∃ s', s.run conv (drain n) = some s' ∧ Consistent s' ∧ s'.feed = s.feed ∧
      s'.current = none ∧ s'.ring = { queue := [], pushed := s.ring.pushed } := by
  induction n generalizing s with
  | zero =>
    refine ⟨s, rfl, hs, rfl, hidle, ?_⟩
    rw [← List.length_eq_zero_iff.1 hn]
  | succ n ih =>
    obtain ⟨msg, queue, hq⟩ := List.exists_cons_of_length_eq_add_one hn
    obtain ⟨e, hstep, -, hsim⟩ := process_simulates hs.sim msg
    set t : FedEngine := { s with
      ring := { s.ring with queue }, engine := e, processed := s.processed ++ [msg] } with ht
    have hrun : s.run conv [.pop, .process] = some t := by
      simp [FedEngine.run, step, hidle, Ring.tryPop, hq, hstep, ht]
    have hcons : Consistent t := by
      refine ⟨?_, ?_⟩
      · simpa [ht, RefBook.run_append, RefBook.run] using hsim
      · simp [ht, hs.accepted, waiting, hidle, hq]
    obtain ⟨s', hrun', hs', hfeed, hidle', hring⟩ := ih hcons (by simp [ht, hidle]) (by grind)
    refine ⟨s', ?_, hs', hfeed, hidle', hring⟩
    rw [drain, List.replicate_succ, List.flatten_cons, run_append, hrun]
    exact hrun'

/-- One message through an empty ring. -/
theorem Consistent.run_deliver {s : FedEngine} (hs : Consistent s) (conv : Conversions)
    (hidle : s.current = none) (hempty : s.ring.queue = []) {msg : EngineMessage}
    (hbatch : s.feed.batch = [msg]) :
    ∃ s', s.run conv [.push, .pop, .process] = some s' ∧ Consistent s' ∧
      s'.processed = s.ring.pushed ++ [msg] := by
  obtain ⟨e, hproc, -⟩ := process_simulates hs.sim msg
  obtain ⟨s', hrun, hs'⟩ := hs.run conv [.push, .pop, .process]
  refine ⟨s', hrun, hs', ?_⟩
  have hroom : 1 < feedQueueSize := by decide
  have haccepted := hs.accepted
  simp only [waiting, hidle, hempty, Option.toList_none, List.append_nil] at haccepted
  simp only [FedEngine.run, step, hbatch, Ring.tryPush, hempty, List.length_nil, tsub_pos_iff_lt,
    hroom, ↓reduceIte, List.nil_append, hidle, Ring.tryPop, Option.bind_fun_some, Option.bind_some,
    hproc, Option.map_some, Option.some.injEq] at hrun
  rw [← hrun, haccepted]

/-- The ids the engine will hold once it has processed what was accepted. -/
def held (s : FedEngine) (id : OrderId) : Prop := (RefBook.run .empty s.ring.pushed).holds id

theorem Consistent.held_iff {s : FedEngine} (hs : Consistent s) :
    ∃ e, s.engine.run s.waiting = some e ∧ ∀ id, s.held id ↔ e.book.getOrder id ≠ none := by
  obtain ⟨e, hrun, hsim⟩ := hs.sim.run s.waiting
  refine ⟨e, hrun, fun id => ?_⟩
  rw [held, hs.accepted, RefBook.run_append, ne_eq, hsim.shows.lookup, not_not]

end FedEngine

/-! ## The handler knows every order that may rest -/

/-- Ids that may rest after some messages, if those in `held` rest before. -/
def MayRest (held : OrderId → Prop) (msgs : List EngineMessage) : OrderId → Prop :=
  msgs.foldl (fun held msg id =>
    match msg with
    | .newOrder m => held id ∨ id = m.id
    | .cancel c => held id ∧ id ≠ c.id) held

namespace MayRest

variable {held held' : OrderId → Prop} {msgs : List EngineMessage} {id : OrderId}

theorem mono (hsub : ∀ id, held id → held' id) (h : MayRest held msgs id) :
    MayRest held' msgs id := by
  induction msgs generalizing held held' with
  | nil => exact hsub id h
  | cons msg msgs ih =>
    refine ih (fun i hi => ?_) h
    cases msg with
    | newOrder m => exact hi.imp (hsub i) fun heq => heq
    | cancel c => exact ⟨hsub i hi.1, hi.2⟩

theorem cons {msg : EngineMessage} :
    MayRest held (msg :: msgs) id ↔ MayRest (MayRest held [msg]) msgs id := Iff.rfl

@[simp] theorem append_newOrder {m : NewOrderMessage} :
    MayRest held (msgs ++ [.newOrder m]) id ↔ MayRest held msgs id ∨ id = m.id := by
  simp [MayRest]

@[simp] theorem append_cancel {c : CancelMessage} :
    MayRest held (msgs ++ [.cancel c]) id ↔ MayRest held msgs id ∧ id ≠ c.id := by
  simp [MayRest]

theorem append_cancels (ids : List OrderId) (ts : Timestamp) :
    MayRest held (msgs ++ ids.map fun id => .cancel { id, timestamp := ts }) id ↔
      MayRest held msgs id ∧ id ∉ ids := by
  induction ids generalizing msgs with
  | nil => simp
  | cons i ids ih =>
    rw [List.map_cons, List.append_cons, ih, append_cancel, List.mem_cons]
    tauto

/-- The time stamp has no part in it. -/
theorem map_stamp (now : Timestamp) :
    MayRest held (msgs.map (.stamp now)) id ↔ MayRest held msgs id := by
  induction msgs generalizing held with
  | nil => rfl
  | cons msg msgs ih => cases msg <;> exact ih

end MayRest

/-- One message in the reference. -/
theorem RefBook.holds_process {ref : RefBook} (hids : ∀ s, ((ref s).map (·.id)).Nodup)
    {msg : EngineMessage} {id : OrderId} (h : (ref.process msg).1.holds id) :
    MayRest ref.holds [msg] id := by
  cases msg with
  | newOrder m =>
    by_cases hheld : ref.holds id
    · exact .inl hheld
    · by_cases hid : m.id = id
      · exact .inr hid.symm
      · exact absurd h (process_not_held hids hheld (by simpa using hid)).2
  | cancel c =>
    obtain ⟨s, r, hr, rfl⟩ := h
    obtain ⟨hmem, hne⟩ := List.mem_filter.1 hr
    exact ⟨⟨s, r, hmem, rfl⟩, by simpa using hne⟩

theorem RefBook.run_ids (msgs : List EngineMessage) (s : Side) :
    ((RefBook.run .empty msgs s).map (·.id)).Nodup := by
  obtain ⟨e, -, q, free, -, hv⟩ := Simulates.new.run msgs
  exact hv.ids s

/-- Every id that may rest after the messages of a sink is live. -/
def Known (held : OrderId → Prop) (s : Sink) : Prop :=
  ∀ id, MayRest held s.out id → ∃ key, s.handler.live.lookup key = some id

/-- The handler forgets an id only by cancelling it. -/
theorem keeps_known (held : OrderId → Prop) : Sink.Keeps (fun _ => True) (Known held) where
  counters := by
    intro s h hlive hnext hs
    unfold Known
    rw [hlive]
    exact hs
  clear := by
    intro s key ts hs
    cases hl : s.handler.live.lookup key with
    | none =>
      rw [Sink.clearLevel_none ts hl]
      exact hs
    | some id =>
      rw [Sink.clearLevel_some ts hl]
      intro i hi
      obtain ⟨hi, hne⟩ := MayRest.append_cancel.1 hi
      obtain ⟨k, hk⟩ := hs i hi
      have hkey : k ≠ key := by
        rintro rfl
        exact hne (Option.some.inj (hk.symm.trans hl))
      exact ⟨k, by rw [AList.lookup_erase_ne hkey]; exact hk⟩
  reset := by
    intro s ts iteration hs i hi
    rw [Sink.resetBook_out] at hi
    obtain ⟨hi, hgone⟩ := (MayRest.append_cancels _ ts).1 hi
    exact absurd ((mem_liveIds (iteration.2 _)).2 (hs i hi)) hgone
  place := by
    intro s key qty ts hs hk hq hprice hB i hi
    simp only [Sink.openLevel, if_neg hk]
    rcases MayRest.append_newOrder.1 hi with hi | rfl
    · obtain ⟨k, hlive⟩ := hs i hi
      have hkey : k ≠ key := by
        rintro rfl
        rw [AList.lookup_eq_none.2 hk] at hlive
        cases hlive
      exact ⟨k, by rw [AList.lookup_insert_ne hkey]; exact hlive⟩
    · exact ⟨key, AList.lookup_insert _⟩

namespace FedEngine

/-- Every order that may rest, once all that is under way has been processed, is live. -/
def Covered (s : FedEngine) : Prop :=
  ∀ id, MayRest s.held s.feed.batch id → ∃ key, s.feed.handler.live.lookup key = some id

theorem Covered.new : Covered {} := by
  rintro id ⟨s, r, hr, -⟩
  cases hr

/-- A move keeps the handler informed, unless it loses a cancel. -/
theorem Covered.step {s s' : FedEngine} (hc : Covered s) (hs : Consistent s) {conv : Conversions}
    {m : FeedMove} (hstep : s.step conv m = some s') (hkeep : m = .push → ¬ s.LosesCancel) :
    Covered s' := by
  obtain ⟨t, ht, -, hcases⟩ := hs.step_cases conv m
  obtain rfl : t = s' := Option.some.inj (ht.symm.trans hstep)
  rcases hcases with ⟨hfeed, hpushed⟩ | ⟨a, now, -, hbatch, hring, hhandler, hout⟩ |
    ⟨msg, -, hbatch, hhandler, hpushed⟩ | ⟨msg, hpush, hbatch, hhandler, hfull, hring⟩
  · have hheld : t.held = s.held := by
      funext id
      rw [held, held, hpushed]
    simp only [Covered, hfeed, hheld]
    exact hc
  · -- what rests is live before the frame, and parsing keeps that
    have hknown : Known s.held { handler := s.feed.handler } := by
      intro id hid
      exact hc id (by rwa [hbatch])
    have hparse := (keeps_known s.held).parse conv hknown (a := a) fun _ _ => trivial
    have hheld : t.held = s.held := by
      funext id
      rw [held, held, hring]
    simp only [Covered, hhandler, hout, MayRest.map_stamp, hheld]
    exact hparse
  · intro id hid
    rw [hhandler]
    apply hc id
    rw [hbatch, MayRest.cons]
    refine MayRest.mono (fun i hi => ?_) hid
    rw [held, hpushed, RefBook.run_append] at hi
    exact RefBook.holds_process (RefBook.run_ids _) hi
  · intro id hid
    rw [hhandler]
    apply hc id
    rw [hbatch, MayRest.cons]
    refine MayRest.mono (fun i hi => ?_) hid
    rw [held, hring] at hi
    cases msg with
    | newOrder m => exact .inl hi
    | cancel c =>
      refine ⟨hi, ?_⟩
      rintro rfl
      obtain ⟨e, hrun, hheld⟩ := hs.held_iff
      exact hkeep hpush ⟨c, t.feed.batch, e, hbatch, hfull, hrun, (hheld c.id).1 hi⟩

theorem Covered.run {s : FedEngine} (hc : Covered s) (hs : Consistent s) {conv : Conversions}
    (ms : List FeedMove) {s' : FedEngine} (hrun : s.run conv ms = some s')
    (hkeep : ∀ pre t, pre ++ [.push] <+: ms → s.run conv pre = some t → ¬ t.LosesCancel) :
    Covered s' := by
  induction ms generalizing s with
  | nil =>
    obtain rfl := Option.some.inj hrun
    exact hc
  | cons m ms ih =>
    obtain ⟨s₁, hstep, hs₁, -⟩ := hs.step_cases conv m
    rw [FedEngine.run, hstep] at hrun
    have hc₁ := hc.step hs hstep fun hpush =>
      hkeep [] s (by simp [hpush]) rfl
    refine ih hc₁ hs₁ hrun fun pre t hpre ht => ?_
    refine hkeep (m :: pre) t (List.cons_prefix_cons.2 ⟨rfl, hpre⟩) ?_
    rw [FedEngine.run, hstep]
    exact ht

/-! ## A snapshot that gets through -/

/-- The messages of a snapshot: a cancel for every live order, then its own orders. -/
theorem out_snapshot {conv : Conversions} {a : Arrival} {bids asks : List Element}
    (hframe : frameOf conv a.raw = .snapshot bids asks) (h : FeedHandler) :
    ∃ orders, (Sink.parse conv { handler := h } a).1.out =
      ((a.iteration.1 h.live.entries).map (·.2)).map (fun id => .cancel { id, timestamp := a.ts })
        ++ orders := by
  have hcases := Sink.parse_cases conv { handler := h } a
  simp only [hframe] at hcases
  set cancels : List EngineMessage :=
    ((a.iteration.1 h.live.entries).map (·.2)).map fun id => .cancel { id, timestamp := a.ts }
  have hreset : Sink.resetBook { handler := h } a.ts a.iteration =
      Sink.after { handler := { h with live := ∅ } } cancels := by
    simp [Sink.resetBook, Sink.after, cancels]
  have hrows : ∀ (s : Sink) rows side,
      (s.after cancels).consumePriceSizeArray conv rows side a.ts true =
        (s.consumePriceSizeArray conv rows side a.ts true).after cancels := fun s rows side =>
    Sink.foldl_after (fun s _ => s.consumeRow_after cancels true a.ts _) rows s
  rw [hcases, hreset, hrows, hrows]
  exact ⟨_, rfl⟩

end FedEngine

theorem RefBook.run_cancels (ref : RefBook) (ids : List OrderId) (ts : Timestamp) (s : Side) :
    RefBook.run ref (ids.map fun id => .cancel { id, timestamp := ts }) s =
      (ref s).filter fun r => r.id ∉ ids := by
  induction ids generalizing ref with
  | nil => simp [RefBook.run]
  | cons id ids ih =>
    rw [List.map_cons, RefBook.run, ih]
    simp only [RefBook.process, RefBook.cancel, List.filter_filter]
    refine List.filter_congr fun r _ => ?_
    by_cases hid : r.id = id <;> simp [hid]

/-- Cancelling everything that rests leaves nothing. -/
theorem RefBook.run_cancels_all {ref : RefBook} {ids : List OrderId}
    (hall : ∀ id, ref.holds id → id ∈ ids) (ts : Timestamp) :
    RefBook.run ref (ids.map fun id => .cancel { id, timestamp := ts }) = .empty := by
  funext s
  rw [RefBook.run_cancels, RefBook.empty, List.filter_eq_nil_iff]
  intro r hr
  simpa using hall r.id ⟨s, r, hr, rfl⟩

/-- Every resting order was submitted. -/
theorem RefBook.run_source {msgs : List EngineMessage} {s : Side} {r : Resting}
    (hr : r ∈ RefBook.run .empty msgs s) :
    ∃ m, .newOrder m ∈ msgs ∧ m.id = r.id ∧ m.price = r.price ∧ m.side = s := by
  induction msgs using List.reverseRecOn generalizing r with
  | nil => cases hr
  | append_singleton msgs msg ih =>
    rw [RefBook.run_append] at hr
    have hold : ∀ b ∈ RefBook.run .empty msgs s, ∃ m, .newOrder m ∈ msgs ++ [msg] ∧
        m.id = b.id ∧ m.price = b.price ∧ m.side = s := by
      intro b hb
      obtain ⟨m, hm, hrest⟩ := ih hb
      exact ⟨m, by simp [hm], hrest⟩
    cases msg with
    | newOrder a =>
      rcases RefBook.newOrder_source (RefBook.run_ids msgs) hr with ⟨b, hb, hid, hprice⟩ |
        ⟨rfl, hid, hprice⟩
      · obtain ⟨m, hm, hmid, hmprice, hside⟩ := hold b hb
        exact ⟨m, hm, hmid.trans hid, hmprice.trans hprice, hside⟩
      · exact ⟨a, by simp, hid.symm, hprice.symm, rfl⟩
    | cancel c => exact hold r ((cancel_sublist _ c.id s).mem hr)

/-- Every resting order comes from one of the messages, and the book is the one that the
messages give on their own. -/
structure CreatedBy (e : MatchingEngine) (msgs : List EngineMessage) : Prop where
  source : ∀ p x, LinkedAt e.heap e.book p x → ∃ m, .newOrder m ∈ msgs ∧
    m.id = (e.heap.order x).id ∧ m.price = p ∧ m.side = (e.heap.order x).side
  alone : Shows e (RefBook.run .empty msgs)

theorem Simulates.createdBy {e : MatchingEngine} {msgs : List EngineMessage}
    (hsim : Simulates e (RefBook.run .empty msgs)) : CreatedBy e msgs := by
  refine ⟨fun p x hx => ?_, hsim.shows⟩
  obtain ⟨q, free, he, hv⟩ := hsim
  have hx := he.rep.linkedAt_iff.1 hx
  obtain ⟨m, hm, hid, hprice, hside⟩ := RefBook.run_source (hv.mem he.rep hx)
  exact ⟨m, hm, hid, hprice.trans (he.rep.price p x hx), hside⟩

namespace FedEngine

/-- After any moves in which no cancel was lost, the messages of a snapshot give the book they
give on their own. -/
theorem Covered.snapshot {s s₁ : FedEngine} (hc : Covered s) (hbatch : s.feed.batch = [])
    {conv : Conversions} {a : Arrival} {now : Timestamp} {bids asks : List Element}
    (hframe : frameOf conv a.raw = .snapshot bids asks)
    (hstep : s.step conv (.frame a now) = some s₁) :
    RefBook.run .empty (s.ring.pushed ++ s₁.feed.batch) = RefBook.run .empty s₁.feed.batch := by
  obtain ⟨orders, hout⟩ := out_snapshot hframe s.feed.handler
  have hs₁ : s₁.feed.batch = (Sink.parse conv { handler := s.feed.handler } a).1.out.map
      (.stamp now) := by
    simp only [FedEngine.step, hbatch, Option.some.injEq] at hstep
    rw [← hstep]
  have hcancels : s₁.feed.batch = ((a.iteration.1 s.feed.handler.live.entries).map (·.2)).map
      (fun id => .cancel { id, timestamp := now }) ++ orders.map (.stamp now) := by
    rw [hs₁, hout, List.map_append, List.map_map]
    rfl
  have hall : ∀ id, s.held id → id ∈ (a.iteration.1 s.feed.handler.live.entries).map (·.2) := by
    intro id hid
    exact (mem_liveIds (a.iteration.2 _)).2 (hc id (by rwa [hbatch]))
  have hnone : ∀ id, RefBook.empty.holds id →
      id ∈ (a.iteration.1 s.feed.handler.live.entries).map (·.2) := by
    rintro id ⟨t, r, hr, -⟩
    cases hr
  rw [hcancels, RefBook.run_append, RefBook.run_append, RefBook.run_cancels_all hall,
    RefBook.run_append, RefBook.run_cancels_all hnone]

/-- Whatever frames arrived, whatever the ring dropped of them and however the engine kept up:
if no cancel was dropped of an order that was going to rest, then once the engine has
processed what was accepted before a snapshot and all messages of the snapshot, every resting
order was created by the snapshot. -/
theorem run_snapshot_heals (conv : Conversions) (before after : List FeedMove) (a : Arrival)
    (now : Timestamp) :
    ∃ s s₁ s', FedEngine.run conv {} before = some s ∧ s.step conv (.frame a now) = some s₁ ∧
      s₁.run conv after = some s' ∧
      ((∀ pre t, pre ++ [.push] <+: before → FedEngine.run conv {} pre = some t →
          ¬ t.LosesCancel) →
        s.feed.batch = [] → (∃ bids asks, frameOf conv a.raw = .snapshot bids asks) →
        s'.processed = s.ring.pushed ++ s₁.feed.batch →
        CreatedBy s'.engine s₁.feed.batch) := by
  obtain ⟨s, hrun, hs⟩ := Consistent.new.run conv before
  obtain ⟨s₁, hstep, hs₁, -⟩ := hs.step_cases conv (.frame a now)
  obtain ⟨s', hrun', hs'⟩ := hs₁.run conv after
  refine ⟨s, s₁, s', hrun, hstep, hrun', fun hkeep hbatch hframe hdone => ?_⟩
  obtain ⟨bids, asks, hframe⟩ := hframe
  have hc := Covered.new.run .new before hrun hkeep
  have hsim := hs'.sim
  rw [hdone, hc.snapshot hbatch hframe hstep] at hsim
  exact hsim.createdBy

end FedEngine

/-- The bid level at one dollar goes. -/
def zeroOne : Arrival where
  raw := "\x7b\"type\":\"l2update\",\"changes\":[[\"buy\",\"1.00\",\"0\"]]\x7d"

def emptySnapshot : Arrival where
  raw := "\x7b\"type\":\"snapshot\",\"bids\":[],\"asks\":[]\x7d"

/-- Conversions on the texts of these frames and of the quotes. -/
def overloadConversions : Conversions where
  parse raw :=
    if raw = zeroOne.raw then
      some (.object [("type", .string "l2update"),
        ("changes", .array [.array [.string "buy", .string "1.00", .string "0"]])])
    else if raw = emptySnapshot.raw then
      some (.object [("type", .string "snapshot"), ("bids", .array []), ("asks", .array [])])
    else quoteConversions.parse raw
  ticks := quoteConversions.ticks
  lots s := if s = "0" then some 0 else quoteConversions.lots s

namespace FedEngine

/-- The order at one dollar arrives and is processed. -/
def quote : List FeedMove := [.frame quoteOne 0, .push, .pop, .process]

theorem run_quote : ∃ e, FedEngine.run overloadConversions {} quote = some {
    feed := { handler := { live := AList.insert ⟨100, .bid⟩ 1 ∅, nextId := 2 }, pushed := 1 }
    ring := { pushed := [.newOrder { id := 1, price := 100, quantity := 1000000 }] }
    engine := e
    processed := [.newOrder { id := 1, price := 100, quantity := 1000000 }] } := by
  obtain ⟨e, hstep, -⟩ := process_simulates Simulates.new
    (.newOrder { id := 1, price := 100, quantity := 1000000 })
  have hpop : FedEngine.run overloadConversions {} [.frame quoteOne 0, .push, .pop] = some {
      feed := { handler := { live := AList.insert ⟨100, .bid⟩ 1 ∅, nextId := 2 }, pushed := 1 }
      ring := { pushed := [.newOrder { id := 1, price := 100, quantity := 1000000 }] }
      current := some (.newOrder { id := 1, price := 100, quantity := 1000000 }) } := rfl
  refine ⟨e, ?_⟩
  rw [show quote = [.frame quoteOne 0, .push, .pop] ++ [.process] from rfl, run_append, hpop]
  simp only [Option.bind_some, run, step, hstep, Option.map_some, List.nil_append]

/-- The only push there is that of the order. -/
theorem push_quote {pre : List FeedMove} (h : pre ++ [.push] <+: quote) :
    pre = [.frame quoteOne 0] := by
  rcases pre with _ | ⟨a, _ | ⟨b, _ | ⟨c, _ | ⟨d, pre⟩⟩⟩⟩
  · simp [quote] at h
  · simpa [quote] using h
  · simp [quote] at h
  · simp [quote] at h
  · simp [quote] at h

/-- The order at one dollar goes when the snapshot does not have it. -/
theorem run_snapshot_quote :
    ∃ s s₁ s', FedEngine.run overloadConversions {} quote = some s ∧
      s.step overloadConversions (.frame emptySnapshot 0) = some s₁ ∧
      s₁.run overloadConversions [.push, .pop, .process] = some s' ∧
      s'.processed = s.ring.pushed ++ s₁.feed.batch ∧ CreatedBy s'.engine s₁.feed.batch := by
  obtain ⟨s, s₁, s', hrun, hstep, hrun', hheals⟩ := run_snapshot_heals overloadConversions quote
    [.push, .pop, .process] emptySnapshot 0
  obtain ⟨e, hquote⟩ := run_quote
  obtain ⟨t, ht, hcons⟩ := Consistent.new.run overloadConversions quote
  obtain rfl := Option.some.inj (ht.symm.trans hrun)
  obtain ⟨t₁, ht₁, hcons₁, -⟩ := hcons.step_cases overloadConversions (.frame emptySnapshot 0)
  obtain rfl := Option.some.inj (ht₁.symm.trans hstep)
  obtain rfl := Option.some.inj (hrun.symm.trans hquote)
  obtain rfl := Option.some.inj hstep
  obtain ⟨t', ht', -, hdone⟩ := hcons₁.run_deliver overloadConversions rfl rfl rfl
  obtain rfl := Option.some.inj (ht'.symm.trans hrun')
  refine ⟨_, _, t', hrun, rfl, ht', hdone, hheals ?_ rfl ⟨[], [], rfl⟩ hdone⟩
  intro pre u hpre hu
  obtain rfl := push_quote hpre
  obtain rfl := Option.some.inj hu
  rintro ⟨c, batch, e, hbatch, -⟩
  cases hbatch

end FedEngine

/-! ## An order that outlives a snapshot -/

/-- A bid, or the cancel of another order. -/
def EngineMessage.Spares (id : OrderId) : EngineMessage → Prop
  | .newOrder m => m.side = .bid
  | .cancel c => c.id ≠ id

/-- With no asks, an order rests until it is cancelled. -/
theorem RefBook.holds_process_spares {ref : RefBook} {id : OrderId} (hid : ref.holds id)
    (hasks : ref .ask = []) {msg : EngineMessage} (hspares : msg.Spares id) :
    (ref.process msg).1.holds id ∧ (ref.process msg).1 .ask = [] := by
  cases msg with
  | cancel c =>
    obtain ⟨s, r, hr, rfl⟩ := hid
    refine ⟨⟨s, r, ?_, rfl⟩, ?_⟩
    · exact List.mem_filter.2 ⟨hr, by simpa using Ne.symm hspares⟩
    · simp [RefBook.process, RefBook.cancel, hasks]
  | newOrder m =>
    have hside : m.side = .bid := hspares
    simp only [RefBook.process, RefBook.newOrder]
    split
    · exact ⟨hid, hasks⟩
    · have hmatch : matchSide .ask (beyondLimit m) (ref .ask) m.quantity =
          ⟨[], [], m.quantity⟩ := by
        rw [hasks]
        exact matchSide_stop (.inr (by simp))
      have hsame : Function.update ref .ask [] = ref := by
        rw [← hasks]
        exact Function.update_eq_self _ _
      simp only [hside, Side.opposite, hmatch, hsame, RefBook.rest]
      split
      · refine ⟨?_, by simp [hasks]⟩
        obtain ⟨s, r, hr, rfl⟩ := hid
        exact ⟨s, r, RefBook.mem_append.2 (.inl hr), rfl⟩
      · exact ⟨hid, hasks⟩

theorem RefBook.holds_run_spares {ref : RefBook} {id : OrderId} (hid : ref.holds id)
    (hasks : ref .ask = []) {msgs : List EngineMessage} (hspares : ∀ msg ∈ msgs, msg.Spares id) :
    (RefBook.run ref msgs).holds id := by
  induction msgs generalizing ref with
  | nil => exact hid
  | cons msg msgs ih =>
    obtain ⟨hid', hasks'⟩ := holds_process_spares hid hasks (hspares msg (by simp))
    exact ih hid' hasks' fun m hm => hspares m (by simp [hm])

namespace FedEngine

/-- A handler with a bid level at one dollar, under id one, and one at two dollars. -/
def quotingTwo (n : Nat) : FeedHandler where
  live := AList.insert ⟨200, .bid⟩ (.ofNat n) (AList.insert ⟨100, .bid⟩ 1 ∅)
  nextId := .ofNat n + 1

theorem parse_quotingTwo (n : Nat) :
    (Sink.parse overloadConversions { handler := quotingTwo n } quoteTwo).1 =
      { handler := quotingTwo (n + 1)
        out := [.cancel { id := .ofNat n },
          .newOrder { id := .ofNat (n + 1), price := 200, quantity := 1000000 }] } := by
  rw [quotingTwo, quotingTwo, UInt64.ofNat_add]
  rfl

/-- The ring after the order at one dollar was processed and the level at two dollars was
requoted up to id `n`, while the engine stood still. -/
structure Flooded (n : Nat) (s : FedEngine) : Prop where
  consistent : Consistent s
  handler : s.feed.handler = quotingTwo n
  batch : s.feed.batch = []
  idle : s.current = none
  length : s.ring.queue.length + 3 = 2 * n
  pushed : ∃ msgs, s.ring.pushed =
    .newOrder { id := 1, price := 100, quantity := 1000000 } :: msgs ∧
    ∀ msg ∈ msgs, msg.Spares 1

/-- The order at two dollars follows and waits. -/
def quotes : List FeedMove := quote ++ [.frame quoteTwo 0, .push]

theorem run_quotes : ∃ s, FedEngine.run overloadConversions {} quotes = some s ∧ Flooded 2 s := by
  obtain ⟨e, hquote⟩ := run_quote
  have hrun : FedEngine.run overloadConversions {} quotes = some {
      feed := { handler := quotingTwo 2, pushed := 2 }
      ring := {
        queue := [.newOrder { id := 2, price := 200, quantity := 1000000 }]
        pushed := [.newOrder { id := 1, price := 100, quantity := 1000000 },
          .newOrder { id := 2, price := 200, quantity := 1000000 }] }
      engine := e
      processed := [.newOrder { id := 1, price := 100, quantity := 1000000 }] } := by
    rw [quotes, run_append, hquote]
    rfl
  obtain ⟨s, hs, hcons⟩ := Consistent.new.run overloadConversions quotes
  obtain rfl := Option.some.inj (hs.symm.trans hrun)
  refine ⟨_, hrun, hcons, rfl, rfl, rfl, rfl, _, rfl, ?_⟩
  simp [EngineMessage.Spares]

/-- A requote fills two more slots. -/
theorem Flooded.requote {n : Nat} {s : FedEngine} (hf : Flooded n s)
    (hroom : n ≤ feedQueueSize / 2) :
    ∃ s', s.run overloadConversions [.frame quoteTwo 0, .push, .push] = some s' ∧
      Flooded (n + 1) s' := by
  obtain ⟨s', hrun, hs'⟩ := hf.consistent.run overloadConversions [.frame quoteTwo 0, .push, .push]
  obtain ⟨msgs, hpushed, hspares⟩ := hf.pushed
  have hlength := hf.length
  have hsize : feedQueueSize = 65536 := rfl
  have hfirst : s.ring.queue.length < feedQueueSize - 1 := by omega
  have hsecond : s.ring.queue.length + 1 < feedQueueSize - 1 := by omega
  have hid : UInt64.ofNat n ≠ 1 := by
    rw [ne_eq, ← UInt64.toNat_inj, UInt64.toNat_ofNat', UInt64.toNat_one]
    omega
  refine ⟨s', hrun, ?_⟩
  simp only [FedEngine.run, step, hf.batch, hf.handler, parse_quotingTwo, List.map_cons,
    EngineMessage.stamp, List.map_nil, Ring.tryPush, Option.bind_fun_some, Option.bind_some, hfirst,
    ↓reduceIte, List.length_append, List.length_cons, List.length_nil, zero_add, hsecond,
    List.append_assoc, List.cons_append, List.nil_append, Option.some.injEq] at hrun
  subst hrun
  refine ⟨hs', rfl, rfl, hf.idle, ?_, msgs ++ [.cancel { id := .ofNat n },
    .newOrder { id := .ofNat (n + 1), price := 200, quantity := 1000000 }], ?_, ?_⟩
  · simp
    omega
  · simp [hpushed]
  · grind [EngineMessage.Spares]

def requotes (n : Nat) : List FeedMove :=
  (List.replicate n [.frame quoteTwo 0, .push, .push]).flatten

theorem Flooded.run_requotes {n m : Nat} {s : FedEngine} (hf : Flooded n s)
    (hroom : n + m ≤ feedQueueSize / 2 + 1) :
    ∃ s', s.run overloadConversions (requotes m) = some s' ∧ Flooded (n + m) s' := by
  induction m generalizing n s with
  | zero => exact ⟨s, rfl, hf⟩
  | succ m ih =>
    obtain ⟨s₁, hrun, hf₁⟩ := hf.requote (by omega)
    obtain ⟨s', hrun', hf'⟩ := ih hf₁ (by omega)
    refine ⟨s', ?_, ?_⟩
    · rw [requotes, List.replicate_succ, List.flatten_cons, run_append, hrun]
      exact hrun'
    · rwa [Nat.add_right_comm] at hf'

/-- With the ring full, the handler forgets the order at one dollar and its cancel is lost. -/
theorem Flooded.lose {n : Nat} {s : FedEngine} (hf : Flooded n s)
    (hfull : n = feedQueueSize / 2 + 1) :
    ∃ s', s.run overloadConversions [.frame zeroOne 0, .push] = some s' ∧ Consistent s' ∧
      s'.feed.handler.live = AList.insert ⟨200, .bid⟩ (.ofNat n) ∅ ∧ s'.feed.batch = [] ∧
      s'.feed.dropped = s.feed.dropped + 1 ∧ s'.current = none ∧ s'.ring = s.ring := by
  obtain ⟨s', hrun, hs'⟩ := hf.consistent.run overloadConversions [.frame zeroOne 0, .push]
  have hparse : (Sink.parse overloadConversions { handler := quotingTwo n } zeroOne).1 =
      { handler := { quotingTwo n with live := AList.insert ⟨200, .bid⟩ (.ofNat n) ∅ }
        out := [.cancel { id := 1 }] } := rfl
  have hlength := hf.length
  have hsize : feedQueueSize = 65536 := rfl
  have hroom : ¬ s.ring.queue.length < feedQueueSize - 1 := by omega
  refine ⟨s', hrun, hs', ?_⟩
  simp only [FedEngine.run, step, hf.batch, hf.handler, hparse, List.map_cons, EngineMessage.stamp,
    List.map_nil, Ring.tryPush, Option.bind_fun_some, Option.bind_some, hroom, ↓reduceIte,
    Option.some.injEq] at hrun
  subst hrun
  exact ⟨rfl, rfl, rfl, hf.idle, rfl⟩

/-- The engine stands still until the ring is full; the cancel of the order at one dollar is
dropped; then the engine catches up. -/
def overload : List FeedMove :=
  quotes ++ requotes (feedQueueSize / 2 - 1) ++ [.frame zeroOne 0, .push] ++
    drain (feedQueueSize - 1)

theorem run_overload : ∃ s, FedEngine.run overloadConversions {} overload = some s ∧
    Consistent s ∧ s.feed.batch = [] ∧ s.current = none ∧ s.ring.queue = [] ∧
    s.feed.handler.live = AList.insert ⟨200, .bid⟩ (.ofNat (feedQueueSize / 2 + 1)) ∅ ∧
    (∃ msgs, s.ring.pushed = .newOrder { id := 1, price := 100, quantity := 1000000 } :: msgs ∧
      ∀ msg ∈ msgs, msg.Spares 1) := by
  have hsize : feedQueueSize = 65536 := rfl
  obtain ⟨s₁, hrun₁, hf₁⟩ := run_quotes
  obtain ⟨s₂, hrun₂, hf₂⟩ := hf₁.run_requotes (m := feedQueueSize / 2 - 1) (by omega)
  obtain ⟨s₃, hrun₃, hs₃, hlive, hbatch, -, hidle, hring⟩ := hf₂.lose (by omega)
  have hlength := hf₂.length
  obtain ⟨s, hrun, hs, hfeed, hidle', hring'⟩ := hs₃.run_drain overloadConversions hidle
    (n := feedQueueSize - 1) (by grind)
  refine ⟨s, ?_, hs, ?_, hidle', ?_, ?_, ?_⟩
  · rw [overload, run_append, run_append, run_append, hrun₁, Option.bind_some, hrun₂,
      Option.bind_some, hrun₃, Option.bind_some, hrun]
  · grind
  · grind
  · rw [hfeed, hlive]
    congr 2
  · rw [hring', hring]
    exact hf₂.pushed

/-- The snapshot has no orders, all its messages are processed, and order one still rests. -/
theorem run_lost_cancel :
    ∃ s s₁ s', FedEngine.run overloadConversions {} overload = some s ∧
      s.step overloadConversions (.frame emptySnapshot 0) = some s₁ ∧
      s₁.run overloadConversions [.push, .pop, .process] = some s' ∧
      s.feed.batch = [] ∧ frameOf overloadConversions emptySnapshot.raw = .snapshot [] [] ∧
      s'.processed = s.ring.pushed ++ s₁.feed.batch ∧ submitted s₁.feed.batch = [] ∧
      ∃ p x, LinkedAt s'.engine.heap s'.engine.book p x ∧ (s'.engine.heap.order x).id = 1 := by
  obtain ⟨s, hrun, hs, hbatch, hidle, hempty, hlive, msgs, hpushed, hspares⟩ := run_overload
  set id : OrderId := .ofNat (feedQueueSize / 2 + 1)
  have hparse : ∀ h : FeedHandler, h.live = AList.insert ⟨200, .bid⟩ id ∅ →
      (Sink.parse overloadConversions { handler := h } emptySnapshot).1.out = [.cancel { id }] := by
    intro h hl
    obtain ⟨live⟩ := h
    subst hl
    rfl
  obtain ⟨s₁, hstep, hs₁, -⟩ := hs.step_cases overloadConversions (.frame emptySnapshot 0)
  have hs₁eq := hstep
  simp only [step, hbatch, hparse _ hlive, List.map_cons, List.map_nil, EngineMessage.stamp,
    Option.some.injEq] at hs₁eq
  have hbatch₁ : s₁.feed.batch = [.cancel { id }] := by rw [← hs₁eq]
  have hring₁ : s₁.ring = s.ring := by rw [← hs₁eq]
  obtain ⟨s', hrun', hs', hdone⟩ := hs₁.run_deliver overloadConversions (by grind) (by grind)
    hbatch₁
  rw [hring₁, ← hbatch₁] at hdone
  refine ⟨s, s₁, s', hrun, hstep, hrun', hbatch, rfl, hdone, by rw [hbatch₁]; rfl, ?_⟩
  apply (hs'.sim.holds_iff 1).1
  rw [hdone, hpushed, hbatch₁, List.cons_append, RefBook.run]
  apply RefBook.holds_run_spares
  · decide +kernel
  · decide +kernel
  · have hother : id ≠ 1 := by decide
    grind [EngineMessage.Spares]

end FedEngine

end LockfreeMatching
