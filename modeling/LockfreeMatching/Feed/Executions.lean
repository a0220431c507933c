import LockfreeMatching.Core.Outcome
import LockfreeMatching.Feed.Mirror

/-!
# Feed bookkeeping and engine book

The engine removes orders by matching and does not tell the handler, and the handler later
cancels ids that may be gone or partly filled. Both views still agree up to executions: every
resting order is the order its level is tracked by, and an order that is tracked and no
longer rests was filled completely.

## Main results

* `Sink.Keeps.run`: what the steps of the handler keep holds after any sequence of frames.
* `Executes.newOrder`, `Executes.cancel`: the two views after one message.
* `run_differs_by_executions`: the two views after every frame of any sequence.
-/
namespace LockfreeMatching

open Lib MatchingEngine

/-! ## What the steps of the handler keep -/

namespace Sink

/-- The handler at every moment of a frame: after a reset and after each row. -/
def moments (conv : Conversions) (s : Sink) (a : Arrival) : List Sink :=
  match frameOf conv a.raw with
  | .update changes => changes.inits.map fun rows => s.consumeChanges conv rows a.ts
  | .snapshot bids asks =>
    let s := s.resetBook a.ts a.iteration
    let s' := s.consumePriceSizeArray conv bids .bid a.ts true
    bids.inits.map (fun rows => s.consumePriceSizeArray conv rows .bid a.ts true) ++
      asks.inits.map fun rows => s'.consumePriceSizeArray conv rows .ask a.ts true
  | .other => [(s.parse conv a).1]

/-- `P` is kept by the steps that a frame is made of, where orders are placed under `B`. -/
structure Keeps (B P : Sink → Prop) : Prop where
  counters : ∀ s h, h.live = s.handler.live → h.nextId = s.handler.nextId → P s →
    P { s with handler := h }
  clear : ∀ s key ts, P s → P (s.clearLevel key ts)
  reset : ∀ s ts iteration, P s → P (s.resetBook ts iteration)
  place : ∀ s key qty ts, P s → key ∉ s.handler.live → qty ≠ 0 →
    0 < key.price ∧ key.price < maxPriceTicks → B (s.openLevel key qty ts) →
    P (s.openLevel key qty ts)

namespace Keeps

variable {B P : Sink → Prop}

theorem applyLevel (hk : Keeps B P) {s : Sink} (hs : P s) {key : LevelKey} {qty : Quantity}
    {ts : Timestamp} (hprice : 0 < key.price ∧ key.price < maxPriceTicks)
    (hB : B (s.applyLevel key qty ts)) : P (s.applyLevel key qty ts) := by
  have hclear := hk.clear s key ts hs
  unfold Sink.applyLevel at hB ⊢
  by_cases hq : qty = 0
  · simpa [hq] using hclear
  · simp only [hq, if_false] at hB ⊢
    exact hk.place _ key qty ts hclear (s.notMem_clearLevel key ts) hq hprice hB

theorem consumeRow (hk : Keeps B P) {s : Sink} (hs : P s) {skipZero : Bool} {ts : Timestamp}
    {row : Except RowError (LevelKey × Quantity)}
    (hprice : ∀ level, row.toOption = some level →
      0 < level.1.price ∧ level.1.price < maxPriceTicks)
    (hB : B (s.consumeRow skipZero ts row)) : P (s.consumeRow skipZero ts row) := by
  cases row with
  | error e => apply hk.counters s _ _ _ hs <;> cases e <;> rfl
  | ok level =>
    simp only [Sink.consumeRow] at hB ⊢
    split_ifs at hB ⊢
    · exact hs
    · exact hk.applyLevel hs (hprice level rfl) hB

/-- A loop over rows. -/
theorem rows (hk : Keeps B P) {read : Element → Except RowError (LevelKey × Quantity)}
    (hprice : ∀ row level, (read row).toOption = some level →
      0 < level.1.price ∧ level.1.price < maxPriceTicks)
    {skipZero : Bool} {ts : Timestamp} (rows : List Element) {s : Sink} (hs : P s)
    (hB : ∀ pre, pre <+: rows →
      B (pre.foldl (fun s row => s.consumeRow skipZero ts (read row)) s)) :
    P (rows.foldl (fun s row => s.consumeRow skipZero ts (read row)) s) := by
  induction rows generalizing s with
  | nil => exact hs
  | cons row rows ih =>
    apply ih (hk.consumeRow hs (hprice row) (hB [row] (by simp)))
    intro pre hpre
    exact hB (row :: pre) (List.cons_prefix_cons.2 ⟨rfl, hpre⟩)

theorem changes (hk : Keeps B P) (conv : Conversions) {ts : Timestamp} (changes : List Element)
    {s : Sink} (hs : P s) (hB : ∀ pre, pre <+: changes → B (s.consumeChanges conv pre ts)) :
    P (s.consumeChanges conv changes ts) :=
  hk.rows (fun row _ h => updateRow_price (changeRow_toOption conv row ▸ h)) changes hs hB

theorem levels (hk : Keeps B P) (conv : Conversions) (side : Side) {ts : Timestamp}
    (levels : List Element) {s : Sink} (hs : P s)
    (hB : ∀ pre, pre <+: levels → B (s.consumePriceSizeArray conv pre side ts true)) :
    P (s.consumePriceSizeArray conv levels side ts true) :=
  hk.rows (fun row _ h => snapshotRow_price (priceSizeRow_toOption conv side row ▸ h))
    levels hs hB

/-- One frame. -/
theorem parse (hk : Keeps B P) (conv : Conversions) {s : Sink} (hs : P s) {a : Arrival}
    (hB : ∀ t ∈ s.moments conv a, B t) : P (s.parse conv a).1 := by
  have hcases := s.parse_cases conv a
  unfold moments at hB
  cases hframe : frameOf conv a.raw with
  | update rows =>
    simp only [hframe, List.mem_map, List.mem_inits, forall_exists_index, and_imp,
      forall_apply_eq_imp_iff₂] at hcases hB
    rw [hcases]
    exact hk.changes conv rows hs hB
  | snapshot bids asks =>
    simp only [hframe, List.mem_append, List.mem_map, List.mem_inits] at hcases hB
    rw [hcases]
    apply hk.levels conv .ask asks
    · apply hk.levels conv .bid bids (hk.reset s a.ts a.iteration hs)
      exact fun pre hpre => hB _ (.inl ⟨pre, hpre, rfl⟩)
    · exact fun pre hpre => hB _ (.inr ⟨pre, hpre, rfl⟩)
  | other =>
    simp only [hframe] at hcases
    obtain ⟨h, heq, hlive, hnext⟩ := hcases
    rw [heq]
    exact hk.counters s h hlive hnext hs

/-- Any sequence of frames. -/
theorem run (hk : Keeps B P) (conv : Conversions) {s : Sink} (hs : P s) {arrivals : List Arrival}
    (hB : ∀ pre a, pre ++ [a] <+: arrivals → ∀ t ∈ (s.run conv pre).moments conv a, B t) :
    P (s.run conv arrivals) := by
  induction arrivals using List.reverseRecOn with
  | nil => exact hs
  | append_singleton arrivals a ih =>
    have hpre := ih fun pre b hpre => hB pre b (hpre.trans (List.prefix_append _ _))
    rw [Sink.run, List.foldl_append, List.foldl_cons, List.foldl_nil]
    exact hk.parse conv hpre (hB arrivals a (List.prefix_refl _))

end Keeps

end Sink

/-! ## Book and ledger -/

/-- An entry of the ledger was announced. -/
theorem replay_announced {msgs : List EngineMessage} {id : OrderId} {key : LevelKey}
    {qty : Quantity} (h : replay msgs id = some (key, qty)) :
    ∃ m ∈ submitted msgs, m.id = id ∧ ⟨m.price, m.side⟩ = key ∧ m.quantity = qty := by
  induction msgs using List.reverseRecOn with
  | nil => cases h
  | append_singleton msgs msg ih =>
    rw [replay_concat] at h
    cases msg with
    | newOrder m =>
      rw [post_newOrder, Function.update_apply] at h
      split_ifs at h with hid
      · cases h
        exact ⟨m, by simp, hid.symm, rfl, rfl⟩
      · obtain ⟨m', hm', hrest⟩ := ih h
        exact ⟨m', by simp [hm'], hrest⟩
    | cancel c =>
      rw [post_cancel, Function.update_apply] at h
      split_ifs at h
      obtain ⟨m', hm', hrest⟩ := ih h
      exact ⟨m', by simp [hm'], hrest⟩

/-- A resting order was there before, under its id and price, or is the incoming one. -/
theorem RefBook.newOrder_source {ref : RefBook} (hids : ∀ s, ((ref s).map (·.id)).Nodup)
    {m : NewOrderMessage} {s : Side} {r : Resting} (hr : r ∈ (ref.newOrder m).1 s) :
    (∃ a ∈ ref s, a.id = r.id ∧ a.price = r.price) ∨
      s = m.side ∧ r.id = m.id ∧ r.price = m.price := by
  have hmatch : ∀ s, ∀ r ∈ Function.update ref m.side.opposite (ref.traded m).side s,
      ∃ a ∈ ref s, a.id = r.id ∧ a.price = r.price := by
    intro s r hr
    by_cases hs : s = m.side.opposite
    · subst hs
      rw [Function.update_self] at hr
      exact matchSide_source (hids _) r hr
    · rw [Function.update_of_ne hs] at hr
      exact ⟨r, hr, rfl, rfl⟩
  unfold RefBook.newOrder at hr
  split_ifs at hr
  · exact .inl ⟨r, hr, rfl, rfl⟩
  · dsimp only [RefBook.rest] at hr
    split_ifs at hr
    · rcases RefBook.mem_append.1 hr with hr | ⟨rfl, rfl⟩
      · exact .inl (hmatch s r hr)
      · exact .inr ⟨rfl, rfl, rfl⟩
    · exact .inl (hmatch s r hr)

/-- The book holds entries of the ledger, and what it no longer holds was filled. -/
structure Executes (msgs : List EngineMessage) : Prop where
  resting : ∀ s, ∀ r ∈ (RefBook.trace .empty msgs).1 s,
    ∃ qty, replay msgs r.id = some (⟨r.price, s⟩, qty)
  accounted : ∀ m ∈ submitted msgs, (replay msgs m.id).isSome →
    Accounted (RefBook.trace .empty msgs).1 (RefBook.trace .empty msgs).2 m

theorem conserved_trace {msgs : List EngineMessage}
    (hids : ((submitted msgs).map (·.id)).Nodup) :
    Conserved (submitted msgs) (RefBook.trace .empty msgs).1 (RefBook.trace .empty msgs).2 := by
  simpa using Conserved.new.trace msgs (by simpa using hids)

namespace Executes

variable {msgs : List EngineMessage}

theorem nil : Executes [] where
  resting s r hr := by simp [RefBook.trace, RefBook.empty] at hr
  accounted m hm := by cases hm

theorem cancel (he : Executes msgs) (hids : ((submitted msgs).map (·.id)).Nodup)
    (c : CancelMessage) : Executes (msgs ++ [.cancel c]) := by
  refine ⟨fun s r hr => ?_, fun m hm hlive => ?_⟩
  · simp only [RefBook.trace_append, RefBook.trace, RefBook.process, RefBook.cancel,
      List.mem_filter, decide_eq_true_eq] at hr
    obtain ⟨hr, hid⟩ := hr
    obtain ⟨qty, hentry⟩ := he.resting s r hr
    exact ⟨qty, by simpa [Function.update_of_ne hid] using hentry⟩
  · have hm' : m ∈ submitted msgs := by simpa using hm
    rw [replay_concat, post_cancel, Function.update_apply] at hlive
    split_ifs at hlive with hid
    · cases hlive
    · have hc := conserved_trace hids
      have := hc.process_accounted (.cancel c) (by simpa using hids) hm'
        (he.accounted m hm' hlive) (by rintro _ ⟨⟩; exact Ne.symm hid)
      simpa [RefBook.trace_append, RefBook.trace] using this

theorem cancels (he : Executes msgs) (hids : ((submitted msgs).map (·.id)).Nodup)
    (ids : List OrderId) (ts : Timestamp) :
    Executes (msgs ++ ids.map fun id => .cancel { id, timestamp := ts }) := by
  induction ids generalizing msgs with
  | nil => simpa using he
  | cons id ids ih =>
    rw [List.map_cons, List.append_cons]
    exact ih (he.cancel hids _) (by simpa using hids)

theorem newOrder (he : Executes msgs) {m : NewOrderMessage}
    (hids : ((submitted (msgs ++ [.newOrder m])).map (·.id)).Nodup) (htype : m.type = .limit)
    (hlook : ¬ RefBook.ignored m) (hroom : (RefBook.trace .empty msgs).1.size < orderPoolSize) :
    Executes (msgs ++ [.newOrder m]) := by
  rw [submitted_append, submitted_newOrder] at hids
  have hc := conserved_trace (nodup_ids_left hids)
  have hfresh : ∀ a ∈ submitted msgs, a.id ≠ m.id := by
    have hids' := hids
    rw [List.map_append, List.nodup_append] at hids'
    intro a ha
    exact hids'.2.2 a.id (List.mem_map_of_mem ha) m.id (by simp)
  refine ⟨fun s r hr => ?_, fun a ha hlive => ?_⟩
  · simp only [RefBook.trace_append, RefBook.trace, RefBook.process] at hr
    rw [replay_concat, post_newOrder]
    rcases RefBook.newOrder_source hc.ids hr with ⟨b, hb, hid, hprice⟩ | ⟨rfl, hid, hprice⟩
    · obtain ⟨qty, hentry⟩ := he.resting s b hb
      obtain ⟨a, ha, haid, -⟩ := replay_announced hentry
      have hne : b.id ≠ m.id := haid ▸ hfresh a ha
      rw [hid] at hne
      exact ⟨qty, by rw [Function.update_of_ne hne, ← hid, hentry, hprice]⟩
    · exact ⟨m.quantity, by rw [hid, Function.update_self, hprice]⟩
  · simp only [RefBook.trace_append, RefBook.trace, List.append_nil]
    rw [submitted_append, submitted_newOrder, List.mem_append, List.mem_singleton] at ha
    rcases ha with ha | rfl
    · rw [replay_concat, post_newOrder, Function.update_of_ne (hfresh a ha)] at hlive
      exact hc.process_accounted (.newOrder m) hids ha (he.accounted a ha hlive) (by simp)
    · exact hc.newOrder_accounted hids htype hlook hroom

/-- No more orders rest than levels are live. -/
theorem size_le (he : Executes msgs) (hids : ((submitted msgs).map (·.id)).Nodup)
    {live : LiveMap} {d : Depth} (hi : Indexed 0 (replay msgs) (fun k => live.lookup k) d) :
    (RefBook.trace .empty msgs).1.size ≤ live.entries.length := by
  have hc := conserved_trace hids
  set ref := (RefBook.trace .empty msgs).1
  have hnodup : ((ref .bid).map (·.id) ++ (ref .ask).map (·.id)).Nodup := by
    refine List.nodup_append.2 ⟨hc.ids .bid, hc.ids .ask, ?_⟩
    intro i hb j ha
    obtain ⟨r, hr, rfl⟩ := List.mem_map.1 hb
    obtain ⟨r', hr', rfl⟩ := List.mem_map.1 ha
    exact hc.sides r hr r' hr'
  have hlive : ∀ s, ∀ id ∈ (ref s).map (·.id), id ∈ live.entries.map (·.2) := by
    intro s id hid
    obtain ⟨r, hr, rfl⟩ := List.mem_map.1 hid
    obtain ⟨qty, hentry⟩ := he.resting s r hr
    exact (mem_liveIds (.refl _)).2 ⟨_, (hi.found _ _).2 ⟨qty, hentry⟩⟩
  have hsub : (ref .bid).map (·.id) ++ (ref .ask).map (·.id) ⊆ live.entries.map (·.2) := by
    intro id hid
    exact (List.mem_append.1 hid).elim (hlive _ id) (hlive _ id)
  simpa [RefBook.size] using (hnodup.subperm hsub).length_le

end Executes

/-! ## Handler and engine -/

theorem Numbered.nodup {s : Sink} (hn : Numbered s)
    (hlen : (submitted s.out).length ≤ UInt64.size) : ((submitted s.out).map (·.id)).Nodup := by
  rw [hn.ids]
  refine List.nodup_range.map_on fun i hi j hj heq => ?_
  rw [List.mem_range] at hi hj
  exact idAt_injOn (by omega) (by omega) heq

/-- Every live level has its order in the engine, but for executions, while ids last. -/
def Executed (s : Sink) : Prop :=
  ∃ d, Tracks s d ∧ ((submitted s.out).length < UInt64.size → Executes s.out)

/-- There is a slot in the pool for every live level. -/
def WithinPool (s : Sink) : Prop := s.handler.liveLevels.toNat ≤ orderPoolSize

/-- A level that is opened within the pool leaves room for its order. -/
theorem WithinPool.room {s : Sink} {d : Depth} {key : LevelKey} {qty : Quantity} {ts : Timestamp}
    (hB : WithinPool (s.openLevel key qty ts)) (ht : Tracks s d) (hk : key ∉ s.handler.live)
    (hn : (submitted s.out).length + 1 < UInt64.size) (he : Executes s.out) :
    (RefBook.trace .empty s.out).1.size < orderPoolSize := by
  have ha := ht.agrees (by omega)
  have hsize := he.size_le (ht.numbered.nodup (by omega)) ha.indexed
  have hle := ha.live_length_le
  have hlen : (s.openLevel key qty ts).handler.live.entries.length =
      s.handler.live.entries.length + 1 := by
    simp only [Sink.openLevel, if_neg hk, AList.entries_insert_of_notMem hk, List.length_cons]
  have hword : s.handler.live.entries.length + 1 < 2 ^ 64 := lt_of_le_of_lt (by omega) hn
  rw [WithinPool, FeedHandler.liveLevels, hlen, UInt64.toNat_ofNat', Nat.mod_eq_of_lt hword] at hB
  omega

theorem keeps_executed : Sink.Keeps WithinPool Executed where
  counters := by
    rintro s h hlive hnext ⟨d, ht, he⟩
    exact ⟨d, ht.handler hlive hnext, he⟩
  clear := by
    rintro s key ts ⟨d, ht, he⟩
    refine ⟨_, ht.clearLevel key ts, fun hn => ?_⟩
    rw [submitted_clearLevel] at hn
    cases hl : s.handler.live.lookup key with
    | none =>
      rw [Sink.clearLevel_none ts hl]
      exact he hn
    | some id =>
      rw [Sink.clearLevel_some ts hl]
      exact (he hn).cancel (ht.numbered.nodup hn.le) _
  reset := by
    rintro s ts iteration ⟨d, ht, he⟩
    refine ⟨_, ht.resetBook ts iteration, fun hn => ?_⟩
    rw [Sink.resetBook_out] at hn ⊢
    rw [submitted_append, submitted_cancels, List.append_nil] at hn
    exact (he hn).cancels (ht.numbered.nodup hn.le) _ ts
  place := by
    rintro s key qty ts ⟨d, ht, he⟩ hk hq hprice hB
    have hopen := ht.openLevel ts hk hq
    refine ⟨_, hopen, fun hn => ?_⟩
    have hids := hopen.numbered.nodup hn.le
    simp only [Sink.openLevel, submitted_append, submitted_newOrder, List.length_append,
      List.length_singleton] at hn
    have hexec := he (by omega)
    apply hexec.newOrder hids rfl
    · rintro (hzero | ⟨-, hout⟩)
      · exact hq hzero
      · exact hout ⟨hprice.1.le, hprice.2⟩
    · exact hB.room ht hk hn hexec

/-- Every resting order is the one its level is tracked by; and of a tracked order, what the
fills that name it leave of its quantity is what rests. -/
structure DiffersByExecutions (l : LiveFeed) (out : List EngineMessage) : Prop where
  resting : ∀ p x, LinkedAt l.engine.heap l.engine.book p x →
    (l.engine.heap.order x).price = p ∧
    l.handler.live.lookup ⟨p, (l.engine.heap.order x).side⟩ = some (l.engine.heap.order x).id
  live : ∀ key id, l.handler.live.lookup key = some id →
    (∃ m ∈ submitted out, m.id = id) ∧
    ∀ m ∈ submitted out, m.id = id → ⟨m.price, m.side⟩ = key ∧
      filledOf id l.fills ≤ m.quantity.toNat ∧
      (0 < m.quantity.toNat - filledOf id l.fills → ∃ x,
        LinkedAt l.engine.heap l.engine.book key.price x ∧ (l.engine.heap.order x).id = id ∧
        (l.engine.heap.order x).side = key.side ∧
        (l.engine.heap.order x).remainingQuantity.toNat =
          m.quantity.toNat - filledOf id l.fills) ∧
      (m.quantity.toNat - filledOf id l.fills = 0 ↔
        ∀ p x, LinkedAt l.engine.heap l.engine.book p x → (l.engine.heap.order x).id ≠ id)

/-- While an order rests, it has what its fills leave of it. -/
theorem Executes.remaining {msgs : List EngineMessage} {e : MatchingEngine} (he : Executes msgs)
    (hids : ((submitted msgs).map (·.id)).Nodup)
    (hsim : Simulates e (RefBook.trace .empty msgs).1) {m : NewOrderMessage}
    (hm : m ∈ submitted msgs) (hentry : replay msgs m.id = some (⟨m.price, m.side⟩, m.quantity))
    {p : Int} {x : Ptr} (hx : LinkedAt e.heap e.book p x) (hid : (e.heap.order x).id = m.id) :
    p = m.price ∧ (e.heap.order x).side = m.side ∧
      (e.heap.order x).remainingQuantity.toNat + filledOf m.id (RefBook.trace .empty msgs).2 =
        m.quantity.toNat ∧ 0 < (e.heap.order x).remainingQuantity.toNat := by
  have hc := conserved_trace hids
  obtain ⟨q, free, hinv, hv⟩ := hsim
  have hx := hinv.rep.linkedAt_iff.1 hx
  have hmem := hv.mem hinv.rep hx
  obtain ⟨qty, hkey⟩ := he.resting _ _ hmem
  rw [show (restingOf (e.heap.order x)).id = m.id from hid, hentry] at hkey
  obtain ⟨b, hb, hbid, hbal⟩ := hc.resting _ _ hmem
  obtain rfl : b = m := List.inj_on_of_nodup_map hids hb hm (hbid.trans hid)
  have hpos := UInt32.lt_iff_toNat_lt.1 (hc.isOpen _ _ hmem)
  have hprice := hinv.rep.price p x hx
  have hxkey := congrArg Prod.fst (Option.some.inj hkey)
  have hside : b.side = (e.heap.order x).side := congrArg LevelKey.side hxkey
  have hat : b.price = (e.heap.order x).price := congrArg LevelKey.price hxkey
  rw [show (restingOf (e.heap.order x)).id = b.id from hid] at hbal
  exact ⟨hprice.symm.trans hat.symm, hside.symm, hbal, hpos⟩

theorem Executes.differs {msgs : List EngineMessage} {d : Depth}
    {handler : FeedHandler} {e : MatchingEngine} (he : Executes msgs)
    (hids : ((submitted msgs).map (·.id)).Nodup)
    (hi : Indexed 0 (replay msgs) (fun k => handler.live.lookup k) d)
    (hsim : Simulates e (RefBook.trace .empty msgs).1) :
    DiffersByExecutions ⟨handler, e, (RefBook.trace .empty msgs).2⟩ msgs := by
  have hc := conserved_trace hids
  refine ⟨fun p x hx => ?_, fun key id hlive => ?_⟩
  · obtain ⟨q, free, hinv, hv⟩ := hsim
    have hx := hinv.rep.linkedAt_iff.1 hx
    have hprice := hinv.rep.price p x hx
    obtain ⟨qty, hentry⟩ := he.resting _ _ (hv.mem hinv.rep hx)
    refine ⟨hprice, (hi.found _ _).2 ⟨qty, ?_⟩⟩
    rw [← hprice]
    exact hentry
  · obtain ⟨qty, hentry⟩ := (hi.found key id).1 hlive
    obtain ⟨m, hm, rfl, rfl, rfl⟩ := replay_announced hentry
    refine ⟨⟨m, hm, rfl⟩, fun a ha hid => ?_⟩
    obtain rfl : a = m := List.inj_on_of_nodup_map hids ha hm hid
    have hbound := hc.bound a ha
    have hheld := hsim.holds_iff a.id
    have hacc := he.accounted a ha (by simp [hentry])
    unfold Accounted at hacc
    dsimp only
    refine ⟨rfl, hbound, fun hleft => ?_, fun hnone p x hx hxid => ?_, fun hnone => ?_⟩
    · obtain ⟨p, x, hx, hxid⟩ := hheld.1 (hacc.resolve_right (by omega))
      obtain ⟨rfl, hside, hbal, -⟩ := he.remaining hids hsim ha hentry hx hxid
      exact ⟨x, hx, hxid, hside, by omega⟩
    · obtain ⟨-, -, hbal, hpos⟩ := he.remaining hids hsim ha hentry hx hxid
      omega
    · have hfull := hacc.resolve_left fun h => by
        obtain ⟨p, x, hx, hxid⟩ := hheld.1 h
        exact hnone p x hx hxid
      omega

/-- Any frames, crossed or not: as long as at every moment there are no more live levels than
slots in the pool, and ids last, the handler's view and the engine's book differ after each
frame only by executions. -/
theorem run_differs_by_executions (conv : Conversions) (arrivals : List Arrival)
    (hroom : ∀ pre a, pre ++ [a] <+: arrivals →
      ∀ t ∈ (Sink.run conv {} pre).moments conv a, t.handler.liveLevels.toNat ≤ orderPoolSize)
    (hids : (submitted (Sink.run conv {} arrivals).out).length < 2 ^ 64 - 1) :
    ∀ pre, pre <+: arrivals → ∃ l, LiveFeed.run conv {} pre = some l ∧
      DiffersByExecutions l (Sink.run conv {} pre).out := by
  rintro pre ⟨later, rfl⟩
  have hlen : (submitted (Sink.run conv {} pre).out).length < UInt64.size := by
    have hpre := submitted_run conv {} pre
    have hall := submitted_run conv {} (pre ++ later)
    have hsum : feedOrders conv (pre ++ later) = feedOrders conv pre + feedOrders conv later := by
      simp [feedOrders]
    have hsize : UInt64.size = 2 ^ 64 := rfl
    omega
  obtain ⟨d, ht, he⟩ := keeps_executed.run conv (s := {}) ⟨_, Tracks.new, fun _ => .nil⟩
    fun pre' a (hpre : pre' ++ [a] <+: pre) =>
      hroom pre' a (hpre.trans (List.prefix_append _ _))
  obtain ⟨e, htrace, hsim⟩ := Simulates.new.trace (Sink.run conv {} pre).out
  have hlive : LiveFeed.run conv {} pre = some ⟨(Sink.run conv {} pre).handler, e,
      (RefBook.trace .empty (Sink.run conv {} pre).out).2⟩ := by
    rw [LiveFeed.run_eq, htrace]
    rfl
  exact ⟨_, hlive, (he hlen).differs (ht.numbered.nodup hlen.le) (ht.agrees hlen.le).indexed hsim⟩

/-- Two frames that trade in the engine. -/
theorem run_differs_bidBeforeAsk :
    ∃ l, LiveFeed.run rowConversions {} [askSnapshot, bidBeforeAsk] = some l ∧
      DiffersByExecutions l (Sink.run rowConversions {} [askSnapshot, bidBeforeAsk]).out := by
  refine run_differs_by_executions rowConversions [askSnapshot, bidBeforeAsk] ?_ ?_ _
    (List.prefix_refl _)
  · have hfew : ∀ s : Sink, ∀ a, (∀ t ∈ s.moments rowConversions a,
        t.handler.live.entries.length ≤ 2) → ∀ t ∈ s.moments rowConversions a,
        t.handler.liveLevels.toNat ≤ orderPoolSize := by
      intro s a h t ht
      have := h t ht
      rw [FeedHandler.liveLevels, UInt64.toNat_ofNat', orderPoolSize_eq]
      omega
    intro pre a hpre
    rcases pre with _ | ⟨x, _ | ⟨y, pre⟩⟩
    · obtain rfl : a = askSnapshot := by simpa using hpre
      exact hfew _ _ (by decide +kernel)
    · obtain ⟨rfl, rfl⟩ : x = askSnapshot ∧ a = bidBeforeAsk := by simpa using hpre
      exact hfew _ _ (by decide +kernel)
    · simp at hpre
  · rw [out_bidBeforeAsk]
    decide

end LockfreeMatching
