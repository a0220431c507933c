import LockfreeMatching.Core.Conservation

/-!
# Outcomes of one order message

What `processNewOrder` does with one message in a reachable engine, beyond agreeing with the
reference: its two loops make progress in every iteration, a remainder that finds no slot
has not traded, and a duplicate id is noticed only after matching.

## Main results

* `MatchHead.progress`: an iteration of the outer loop fills at a non-empty opposite level.
* `run_matching_terminates`: both loops end, with at most one fill per opposite order.
* `run_exhausted_untouched`: a full pool drops only orders that have not traded.
* `run_duplicate_iff`: when a duplicate id is all-or-nothing.
* `Conserved.process_accounted`: an order that is not cancelled rests or was filled completely.
-/
namespace LockfreeMatching

open Lib MatchingEngine

/-! ## Every iteration trades -/

/-- The fills of `t` are those of `s` followed by `added`, which are positive. -/
structure Emits (s t : MatchingEngine × Quantity) (added : List Fill) : Prop where
  fills : t.1.fills = s.1.fills ++ added
  pos : ∀ f ∈ added, 0 < f.quantity

theorem Emits.refl (s : MatchingEngine × Quantity) : Emits s s [] := ⟨by simp, by simp⟩

theorem Emits.trans {s t u : MatchingEngine × Quantity} {a b : List Fill} (h : Emits s t a)
    (h' : Emits t u b) : Emits s u (a ++ b) := by
  refine ⟨by rw [h'.fills, h.fills, List.append_assoc], fun f hf => ?_⟩
  rcases List.mem_append.1 hf with hf | hf
  exacts [h.pos f hf, h'.pos f hf]

/-- One iteration of the level loop emits one fill. -/
theorem EngineInv.fillFront_emits {s t : MatchingEngine × Quantity} {q : Int → List Ptr}
    {free : List Ptr} (he : EngineInv s.1 q free) {p : Int} {id : OrderId} {side : Side}
    {ts : Timestamp} (hopen : levelOpen p s = true)
    (h : MatchingEngine.fillFront p id side ts s = some t) : ∃ f, Emits s t [f] := by
  obtain ⟨hpos, hlevel⟩ := levelOpen_iff.1 hopen
  obtain ⟨x, l, hq⟩ := he.rep.exists_cons hlevel
  have hx : x ∈ q p := by simp [hq]
  have hfront : (s.1.book.levels p).front = some x := by
    rw [(he.rep.level p).front_eq, hq]
    rfl
  obtain ⟨e', q', free', hstep, -, -, hfills⟩ := he.fillFront id side ts s.2 hx hfront rfl
  obtain rfl := Option.some.inj (hstep.symm.trans h)
  refine ⟨_, hfills, fun f hf => ?_⟩
  rw [List.mem_singleton.1 hf]
  apply quantity_min_pos hpos
  have hlink := he.rep.linkedAt_iff.2 hx
  exact (he.consistent.remaining p x hlink).1

/-- The level loop emits a fill in every iteration, so none only if it has not iterated. -/
theorem MatchHead.level_emits {e : MatchingEngine} {ref : RefBook} {msg : NewOrderMessage}
    {s t : MatchingEngine × Quantity} (hsim : Simulates e ref) (hs : MatchHead e msg s)
    (hc : continues msg s = true)
    (ht : Head (levelOpen (oppositeBest msg s.1.book))
      (MatchingEngine.fillFront (oppositeBest msg s.1.book) msg.id msg.side msg.timestamp) s t) :
    ∃ added, Emits s t added ∧ (added = [] → t = s) := by
  induction ht with
  | start => exact ⟨[], .refl s, fun _ => rfl⟩
  | next hu hopen hstep ih =>
    obtain ⟨added, hemits, -⟩ := ih
    obtain ⟨q, free, he⟩ := (LoopState.inner hs hc hu).inv hsim
    obtain ⟨f, hf⟩ := he.fillFront_emits hopen hstep
    exact ⟨added ++ [f], hemits.trans hf, by simp⟩

/-- What an iteration of the outer loop finds and does. -/
structure Progress (msg : NewOrderMessage) (s : MatchingEngine × Quantity) : Prop where
  nonempty : (s.1.book.levels (oppositeBest msg s.1.book)).empty = false
  opposite : ∀ x, LinkedAt s.1.heap s.1.book (oppositeBest msg s.1.book) x →
    (s.1.heap.order x).side = msg.side.opposite
  fills : ∃ t added, fillBest (oppositeBest msg) msg s = some t ∧ Emits s t added ∧ added ≠ []

theorem MatchHead.progress {e : MatchingEngine} {ref : RefBook} {msg : NewOrderMessage}
    {s : MatchingEngine × Quantity} (hsim : Simulates e ref) (hs : MatchHead e msg s)
    (hc : continues msg s = true) : Progress msg s := by
  obtain ⟨q₀, free₀, he, hv⟩ := id hsim
  obtain ⟨q, free, side, takes, hm⟩ := hs.matching he hv
  obtain ⟨hpos, hne, hbest⟩ := hm.atBest (continues_eq msg ▸ hc)
  rw [← oppositeBest_eq] at hne hbest
  obtain ⟨t, -, -, -, -, hstep, -, hlt⟩ := hm.fillLevel hbest hne hpos
  refine ⟨?_, fun x hx => hbest.side x (hm.inv.rep.linkedAt_iff.1 hx), t, ?_⟩
  · rw [Bool.eq_false_iff, ne_eq, hm.inv.rep.empty_iff]
    exact hne
  · obtain ⟨added, hemits, hnone⟩ := hs.level_emits hsim hc (loop_head hstep).1
    refine ⟨added, hstep, hemits, fun h => ?_⟩
    -- the quantity went down, so the loop did iterate
    rw [hnone h] at hlt
    exact absurd hlt (UInt32.lt_irrefl _)

/-- While nothing was traded, nothing was touched. -/
theorem MatchHead.untouched {e : MatchingEngine} {ref : RefBook} {msg : NewOrderMessage}
    {s : MatchingEngine × Quantity} (hsim : Simulates e ref) (hs : MatchHead e msg s)
    (hfills : s.1.fills = []) : s = ({ e with fills := [] }, msg.quantity) := by
  have hhead := matchHead_eq e msg ▸ hs
  cases hhead with
  | start => rfl
  | @next u _ hu hc hb =>
    have hu : MatchHead e msg u := by rwa [matchHead_eq]
    obtain ⟨t, added, hstep, hemits, hadded⟩ := (hu.progress hsim hc).fills
    obtain rfl := Option.some.inj (hstep.symm.trans hb)
    rw [hemits.fills] at hfills
    exact absurd (List.append_eq_nil_iff.1 hfills).2 hadded

/-- A walk takes from no order twice. -/
theorem walk_length (beyond : Int → Bool) (l : List Resting) (left : Quantity) :
    (walk beyond l left).1.length ≤ l.length := by
  induction l generalizing left with
  | nil => simp [walk]
  | cons r rs ih =>
    unfold walk
    split_ifs
    · simp
    · simpa using ih _

theorem newOrder_fills_length (ref : RefBook) (msg : NewOrderMessage) :
    (ref.newOrder msg).2.length ≤ (ref msg.side.opposite).length := by
  unfold RefBook.newOrder
  split_ifs
  · simp
  · have := walk_length (beyondLimit msg)
      ((ref msg.side.opposite).insertionSort (priority msg.side.opposite)) msg.quantity
    rw [List.length_insertionSort] at this
    simpa [matchSide] using this

/-- In every reachable state an order message returns, with at most one fill for every order
resting on the opposite side, because every iteration of the outer loop makes progress. -/
theorem run_matching_terminates (msgs : List EngineMessage) (msg : NewOrderMessage) :
    ∃ e e', new.run msgs = some e ∧ e.processNewOrder msg = some e' ∧
      e'.fills.length ≤ (e.book.count msg.side.opposite).toNat ∧
      ∀ s, MatchHead e msg s → continues msg s = true → Progress msg s := by
  obtain ⟨e, hrun, hsim⟩ := Simulates.new.run msgs
  obtain ⟨e', hstep, hfills, -⟩ := processNewOrder_refines hsim msg
  refine ⟨e, e', hrun, hstep, ?_, fun s hs hc => hs.progress hsim hc⟩
  rw [hfills, hsim.shows.count]
  exact newOrder_fills_length _ msg

/-! ## A full pool -/

namespace MatchingEngine

/-- The state in which the matching loop of `msg` ends, and the quantity it leaves. -/
def matched (e : MatchingEngine) (msg : NewOrderMessage) : Option (MatchingEngine × Quantity) :=
  match msg.side with
  | .bid => matchLoop OrderBook.hasAsks OrderBook.bestAsk (aboveLimit msg) msg
      ({ e with fills := [] }, msg.quantity)
  | .ask => matchLoop OrderBook.hasBids OrderBook.bestBid (belowLimit msg) msg
      ({ e with fills := [] }, msg.quantity)

theorem matched_eq (e : MatchingEngine) (msg : NewOrderMessage) :
    e.matched msg = matchLoop (OrderBook.has msg.side.opposite)
      (OrderBook.best msg.side.opposite) (beyondLimit msg) msg
      ({ e with fills := [] }, msg.quantity) := by
  unfold matched
  cases hs : msg.side with
  | bid => rw [beyondLimit_bid hs]; rfl
  | ask => rw [beyondLimit_ask hs]; rfl

theorem matchHead_of_matched {e : MatchingEngine} {msg : NewOrderMessage}
    {s : MatchingEngine × Quantity} (h : e.matched msg = some s) : MatchHead e msg s := by
  rw [matched_eq] at h
  rw [matchHead_eq, continues_eq, oppositeBest_eq]
  exact (loop_head h).1

end MatchingEngine

/-- A walk that does not run out of quantity takes orders off the side. -/
theorem matchSide_shrinks {s : Side} {beyond : Int → Bool} {side : List Resting} {qty : Quantity}
    (hids : (side.map (·.id)).Nodup) :
    (matchSide s beyond side qty).side.length ≤ side.length ∧
      ((matchSide s beyond side qty).left ≠ 0 → (matchSide s beyond side qty).takes ≠ [] →
        (matchSide s beyond side qty).side.length < side.length) := by
  refine matchSide_induction (Q := fun side' takes left => side'.length ≤ side.length ∧
    (left ≠ 0 → takes ≠ [] → side'.length < side.length)) hids ⟨le_refl _, by simp⟩ ?_
  rintro side' takes left r ⟨hle, -⟩ hr -
  have hlen := (execute_ids side' r.id (min left r.remaining)).length_le
  simp only [List.length_map] at hlen
  refine ⟨hlen.trans hle, fun hleft _ => ?_⟩
  have hfull : r.remaining ≤ left := by
    by_contra h
    rw [quantity_min_left h] at hleft
    exact hleft (by grind)
  rw [quantity_min_right hfull]
  -- all that remained of the order was taken, so the order itself is gone
  have hlt : (execute side' r.id r.remaining).length < side'.length := by
    refine List.length_filterMap_lt_length_iff_exists.2 ⟨r, hr, ?_⟩
    simp
  omega

/-- What the reference matches for an order message. -/
abbrev RefBook.traded (ref : RefBook) (msg : NewOrderMessage) : Matched :=
  matchSide msg.side.opposite (beyondLimit msg) (ref msg.side.opposite) msg.quantity

/-- The matching loop of `msg` ends in `s`, having matched what the reference matches. -/
structure MatchEnd (e : MatchingEngine) (ref : RefBook) (msg : NewOrderMessage)
    (s : MatchingEngine × Quantity) (q : Int → List Ptr) (free : List Ptr) : Prop
    extends Matching msg ref s q free (ref.traded msg).side (ref.traded msg).takes where
  sim : Simulates e ref
  matched : e.matched msg = some s
  rest : s.2 = (ref.traded msg).left
  done : s.2 = 0 ∨ ∀ r ∈ sidePrices s.1.heap q msg.side.opposite, beyondLimit msg r = true

theorem Simulates.matchEnd {e : MatchingEngine} {ref : RefBook} (hsim : Simulates e ref)
    (msg : NewOrderMessage) : ∃ s q free, MatchEnd e ref msg s q free := by
  obtain ⟨q, free, he, hv⟩ := id hsim
  obtain ⟨s, q', free', hloop, hm, hleft, hdone⟩ := matchLoop_matches msg he hv
  exact ⟨s, q', free', hm, hsim, by rw [matched_eq, hloop], hleft, hdone⟩

namespace MatchEnd

variable {e e' : MatchingEngine} {ref : RefBook} {msg : NewOrderMessage}
  {s : MatchingEngine × Quantity} {q : Int → List Ptr} {free : List Ptr}

/-- An order message that is looked at, in terms of the state its matching loop ends in. -/
theorem processNewOrder (h : MatchEnd e ref msg s q free) (hign : ¬ RefBook.ignored msg) :
    e.processNewOrder msg =
      some (if 0 < s.2 ∧ msg.type = .limit then s.1.restRemainder msg s.2 else s.1) := by
  rw [processNewOrder_eq, if_neg hign, ← matched_eq, h.matched, Option.map_some]

theorem untouched (h : MatchEnd e ref msg s q free) (hfills : s.1.fills = []) :
    s = ({ e with fills := [] }, msg.quantity) :=
  (matchHead_of_matched h.matched).untouched h.sim hfills

/-- If anything was traded and a remainder is left, a slot was given back. -/
theorem free_of_traded (h : MatchEnd e ref msg s q free) (hpos : 0 < s.2)
    (htraded : s.1.fills ≠ []) : free ≠ [] := by
  obtain ⟨q₀, free₀, he, hv⟩ := h.sim
  rw [← size_lt_iff h.inv h.views]
  have hsize : ref.size ≤ orderPoolSize := by
    have := he.toEngineRep.slot_count
    rw [RefBook.size, hv.length_eq he.rep, hv.length_eq he.rep]
    omega
  have htakes : (ref.traded msg).takes ≠ [] := by
    intro hnil
    rw [h.fills, hnil] at htraded
    exact htraded rfl
  have hleft : (ref.traded msg).left ≠ 0 := by
    rw [← h.rest]
    exact fun h0 => absurd (h0 ▸ hpos) (by decide)
  have hlt := (matchSide_shrinks (hv.ids msg.side.opposite)).2 hleft htakes
  refine lt_of_lt_of_le ?_ hsize
  unfold RefBook.size
  cases hs : msg.side with
  | bid => simpa [RefBook.traded, Side.opposite, hs] using hlt
  | ask => simpa [RefBook.traded, Side.opposite, hs] using hlt

end MatchEnd

/-- In every reachable state: when a limit remainder finds no slot, its order has not traded
and the message leaves book and pool as they were; an order that has traded and has a
remainder finds a slot. -/
theorem run_exhausted_untouched (msgs : List EngineMessage) (msg : NewOrderMessage)
    (hlimit : msg.type = .limit) :
    ∃ e s e', new.run msgs = some e ∧ e.matched msg = some s ∧ e.processNewOrder msg = some e' ∧
      (0 < s.2 → s.1.pool.allocate.1 = none →
        e'.fills = [] ∧ e'.book = e.book ∧ e'.pool = e.pool) ∧
      (s.1.fills ≠ [] → 0 < s.2 → s.1.pool.allocate.1 ≠ none) := by
  obtain ⟨e, hrun, hsim⟩ := Simulates.new.run msgs
  obtain ⟨e', hstep, -, -⟩ := processNewOrder_refines hsim msg
  obtain ⟨s, q, free, hend⟩ := hsim.matchEnd msg
  have hslot : s.1.fills ≠ [] → 0 < s.2 → s.1.pool.allocate.1 ≠ none := by
    intro htraded hpos
    obtain ⟨x, free', rfl⟩ := List.exists_cons_of_ne_nil (hend.free_of_traded hpos htraded)
    obtain ⟨pool, halloc, -, -⟩ := hend.inv.pool.allocate_cons
    simp [halloc]
  refine ⟨e, s, e', hrun, hend.matched, hstep, fun hpos hnull => ?_, hslot⟩
  have hnone : s.1.fills = [] := by
    by_contra htraded
    exact hslot htraded hpos hnull
  have hlast : e' = { e with fills := [] } := by
    by_cases hign : RefBook.ignored msg
    · rw [processNewOrder_eq, if_pos hign] at hstep
      exact (Option.some.inj hstep).symm
    · rw [hend.processNewOrder hign, if_pos ⟨hpos, hlimit⟩, restRemainder] at hstep
      have hpool : s.1.pool.allocate = (none, s.1.pool.allocate.2) := by rw [← hnull]
      rw [hpool] at hstep
      rw [← Option.some.inj hstep, hend.untouched hnone]
  rw [hlast]
  exact ⟨rfl, rfl, rfl⟩

/-- A book of bids only. -/
def RefBook.ofBids (l : List Resting) : RefBook
  | .bid => l
  | .ask => []

/-- Without asks, a bid with a new id rests behind the others. -/
theorem RefBook.ofBids_newOrder {l : List Resting} {msg : NewOrderMessage}
    (hside : msg.side = .bid) (hlimit : msg.type = .limit) (hign : ¬ RefBook.ignored msg)
    (hnew : ∀ r ∈ l, r.id ≠ msg.id) (hroom : l.length < orderPoolSize) :
    (RefBook.ofBids l).newOrder msg =
      (RefBook.ofBids (l ++ [⟨msg.id, msg.price, msg.quantity⟩]), []) := by
  have hquant : 0 < msg.quantity := by
    have := (ignored_iff.1 hign).1
    grind
  have hmatch : matchSide .ask (beyondLimit msg) [] msg.quantity = ⟨[], [], msg.quantity⟩ :=
    matchSide_stop (.inr (by simp))
  have hsame : Function.update (RefBook.ofBids l) .ask [] = RefBook.ofBids l :=
    Function.update_eq_self Side.ask (RefBook.ofBids l)
  have hnot : ¬ (RefBook.ofBids l).holds msg.id := by
    rintro ⟨s, r, hr, hid⟩
    cases s with
    | bid => exact hnew r hr hid
    | ask => cases hr
  simp only [RefBook.newOrder, if_neg hign, hside, Side.opposite]
  rw [show RefBook.ofBids l .ask = [] from rfl, hmatch, hsame, RefBook.rest,
    if_pos ⟨hlimit, hquant, hnot, by simpa [RefBook.size, RefBook.ofBids] using hroom⟩, hside]
  refine Prod.ext (funext fun s => ?_) rfl
  cases s <;> rfl

/-- Bids at one price, with ids counted from zero. -/
def countedBids (n : Nat) : List EngineMessage :=
  (List.range n).map fun i => .newOrder { id := UInt64.ofNat i, price := 100, quantity := 1 }

theorem countedBids_run {n : Nat} (hn : n ≤ orderPoolSize) :
    RefBook.run .empty (countedBids n) =
      RefBook.ofBids ((List.range n).map fun i => ⟨UInt64.ofNat i, 100, 1⟩) := by
  induction n with
  | zero =>
    funext s
    cases s <;> rfl
  | succ n ih =>
    have hnew : ∀ r ∈ (List.range n).map fun i => (⟨UInt64.ofNat i, 100, 1⟩ : Resting),
        r.id ≠ UInt64.ofNat n := by
      intro r hr hid
      obtain ⟨i, hi, rfl⟩ := List.mem_map.1 hr
      have hval := congrArg UInt64.toNat hid
      rw [orderPoolSize_eq] at hn
      rw [List.mem_range] at hi
      simp only [UInt64.toNat_ofNat'] at hval
      omega
    have hign : ¬ RefBook.ignored { id := UInt64.ofNat n, price := 100, quantity := 1 } :=
      ignored_iff.2 ⟨by simp, fun _ => by simp [maxPriceTicks]⟩
    have hrest := RefBook.ofBids_newOrder rfl rfl hign hnew (by simpa using hn)
    rw [countedBids, List.range_succ, List.map_append, RefBook.run_append, ← countedBids,
      ih (by omega)]
    simp only [List.map_cons, List.map_nil, RefBook.run, RefBook.process, hrest, List.map_append]

/-- With a full book of bids, one more does not find a slot. -/
theorem MatchEnd.exhausted {e : MatchingEngine} {l : List Resting} {msg : NewOrderMessage}
    {s : MatchingEngine × Quantity} {q : Int → List Ptr} {free : List Ptr}
    (h : MatchEnd e (.ofBids l) msg s q free) (hside : msg.side = .bid)
    (hfull : l.length = orderPoolSize) : s.2 = msg.quantity ∧ s.1.pool.allocate.1 = none := by
  have hmatch : (RefBook.ofBids l).traded msg = ⟨[], [], msg.quantity⟩ := by
    rw [RefBook.traded, hside]
    exact matchSide_stop (.inr (by simp [RefBook.ofBids, Side.opposite]))
  refine ⟨by rw [h.rest, hmatch], ?_⟩
  have hfree : free = [] := by
    by_contra hne
    have hlt := (size_lt_iff h.inv h.views).2 hne
    simp [hmatch, RefBook.size, RefBook.ofBids, Side.opposite, hside, hfull] at hlt
  subst hfree
  rw [h.inv.pool.allocate_nil]

/-- With a million bids resting, one more is dropped and leaves no trace. -/
theorem run_exhausted_untouched_full :
    ∃ e s e', new.run (countedBids orderPoolSize) = some e ∧
      e.matched { id := 1000000, price := 100, quantity := 1 } = some s ∧
      e.processNewOrder { id := 1000000, price := 100, quantity := 1 } = some e' ∧
      0 < s.2 ∧ s.1.pool.allocate.1 = none ∧
      e'.fills = [] ∧ e'.book = e.book ∧ e'.pool = e.pool := by
  obtain ⟨e, s, e', hrun, hmatched, hstep, hdropped, -⟩ := run_exhausted_untouched
    (countedBids orderPoolSize) { id := 1000000, price := 100, quantity := 1 } rfl
  obtain ⟨e₀, hrun₀, hsim⟩ := Simulates.new.run (countedBids orderPoolSize)
  obtain rfl := Option.some.inj (hrun₀.symm.trans hrun)
  rw [countedBids_run le_rfl] at hsim
  obtain ⟨s₀, q, free, hend⟩ := hsim.matchEnd { id := 1000000, price := 100, quantity := 1 }
  obtain rfl := Option.some.inj (hend.matched.symm.trans hmatched)
  obtain ⟨hleft, hnull⟩ := hend.exhausted rfl (by rw [List.length_map, List.length_range])
  have hpos : 0 < s₀.2 := by
    rw [hleft]
    decide
  exact ⟨e₀, s₀, e', hrun, hmatched, hstep, hpos, hnull, hdropped hpos hnull⟩

/-! ## Duplicate ids -/

/-- Quantity resting within the limit of `msg`. -/
def RefBook.liquidity (ref : RefBook) (msg : NewOrderMessage) : Nat :=
  (((ref msg.side.opposite).filter fun r => !beyondLimit msg r.price).map
    (·.remaining.toNat)).sum

theorem beyondLimit_mono {msg : NewOrderMessage} {a b : Int} (ha : beyondLimit msg a = true)
    (hab : before msg.side.opposite a b) : beyondLimit msg b = true := by
  simp only [beyondLimit, decide_eq_true_eq] at ha ⊢
  exact ⟨ha.1, fun hb => ha.2 (before_trans hab hb)⟩

/-- What a walk took and what it left make up the quantity. -/
theorem walk_total (beyond : Int → Bool) (l : List Resting) (left : Quantity) :
    ((walk beyond l left).1.map (·.2.toNat)).sum + (walk beyond l left).2.toNat =
      left.toNat := by
  induction l generalizing left with
  | nil => simp [walk]
  | cons r rs ih =>
    unfold walk
    split_ifs with h
    · simp
    · have := ih (left - min left r.remaining)
      have hle : min left r.remaining ≤ left := by
        by_cases hr : r.remaining ≤ left
        · rwa [quantity_min_right hr]
        · rw [quantity_min_left hr]
          exact UInt32.le_refl _
      rw [UInt32.toNat_sub_of_le _ _ hle] at this
      have := UInt32.le_iff_toNat_le.1 hle
      simp only [List.map_cons, List.sum_cons]
      omega

/-- Best price first, a walk leaves what exceeds the liquidity within the limit. -/
theorem walk_left {s : Side} {beyond : Int → Bool}
    (hmono : ∀ a b, beyond a = true → before s a b → beyond b = true) {l : List Resting}
    (hsorted : l.Pairwise (priority s)) (left : Quantity) :
    (walk beyond l left).2.toNat =
      left.toNat - ((l.filter fun r => !beyond r.price).map (·.remaining.toNat)).sum := by
  induction l generalizing left with
  | nil => simp [walk]
  | cons r rs ih =>
    obtain ⟨hfirst, hrest⟩ := List.pairwise_cons.1 hsorted
    unfold walk
    split_ifs with h
    · rcases h with rfl | hr
      · simp
      · -- the best price is past the limit, and so are all others
        have hnone : ((r :: rs).filter fun a => !beyond a.price) = [] := by
          rw [List.filter_eq_nil_iff]
          intro a ha
          rcases List.mem_cons.1 ha with rfl | ha
          · simp [hr]
          · simp [hmono _ _ hr (hfirst a ha)]
        rw [hnone]
        simp
    · push Not at h
      have hr : beyond r.price = false := by simpa using h.2
      rw [ih hrest, List.filter_cons_of_pos (by simp [hr]), List.map_cons, List.sum_cons]
      by_cases hfull : r.remaining ≤ left
      · rw [quantity_min_right hfull, UInt32.toNat_sub_of_le _ _ hfull]
        omega
      · rw [quantity_min_left hfull]
        have := UInt32.lt_iff_toNat_lt.1 (UInt32.not_le.1 hfull)
        simp only [UInt32.sub_self, UInt32.toNat_zero]
        omega

theorem matchSide_left (ref : RefBook) (msg : NewOrderMessage) :
    (ref.traded msg).left.toNat = msg.quantity.toNat - ref.liquidity msg := by
  have hperm := List.perm_insertionSort (priority msg.side.opposite) (ref msg.side.opposite)
  have := walk_left (fun _ _ ha hab => beyondLimit_mono ha hab)
    (List.pairwise_insertionSort (priority msg.side.opposite) (ref msg.side.opposite)) msg.quantity
  rw [((hperm.filter fun r => !beyondLimit msg r.price).map _).sum_eq] at this
  exact this

theorem mem_walk {beyond : Int → Bool} {l : List Resting} {left : Quantity}
    {t : Resting × Quantity} (h : t ∈ (walk beyond l left).1) :
    t.1 ∈ l ∧ beyond t.1.price = false := by
  induction l generalizing left with
  | nil => simp [walk] at h
  | cons r rs ih =>
    unfold walk at h
    split_ifs at h with hstop
    · simp at h
    · rcases List.mem_cons.1 h with rfl | h
      · push Not at hstop
        exact ⟨by simp, by simpa using hstop.2⟩
      · obtain ⟨hmem, hwithin⟩ := ih h
        exact ⟨by simp [hmem], hwithin⟩

theorem mem_takes {s : Side} {beyond : Int → Bool} {side : List Resting} {qty : Quantity}
    {t : Resting × Quantity} (h : t ∈ (matchSide s beyond side qty).takes) :
    t.1 ∈ side ∧ beyond t.1.price = false := by
  obtain ⟨hmem, hwithin⟩ := mem_walk h
  exact ⟨(List.mem_insertionSort (priority s)).1 hmem, hwithin⟩

theorem mem_settle_of_ne {side : List Resting} {takes : List (Resting × Quantity)} {r : Resting}
    (hr : r ∈ side) (h : ∀ t ∈ takes, t.1.id ≠ r.id) : r ∈ settle side takes := by
  induction takes generalizing side with
  | nil => exact hr
  | cons t takes ih =>
    apply ih
    · exact mem_execute_of_ne _ hr (h t (by simp)).symm
    · exact fun a ha => h a (by simp [ha])

/-- Orders past the limit stay where they are. -/
theorem matchSide_keeps {s : Side} {beyond : Int → Bool} {side : List Resting} (qty : Quantity)
    (hids : (side.map (·.id)).Nodup) {r : Resting} (hr : r ∈ side)
    (hbeyond : beyond r.price = true) : r ∈ (matchSide s beyond side qty).side := by
  refine mem_settle_of_ne hr fun t ht hid => ?_
  obtain ⟨hmem, hwithin⟩ := mem_takes ht
  rw [List.inj_on_of_nodup_map hids hmem hr hid, hbeyond] at hwithin
  cases hwithin

/-- Matching brings no new orders and moves none. -/
theorem matchSide_source {s : Side} {beyond : Int → Bool} {side : List Resting} {qty : Quantity}
    (hids : (side.map (·.id)).Nodup) :
    ∀ r ∈ (matchSide s beyond side qty).side, ∃ a ∈ side, a.id = r.id ∧ a.price = r.price := by
  refine matchSide_induction (Q := fun side' _ _ => ∀ r ∈ side', ∃ a ∈ side,
    a.id = r.id ∧ a.price = r.price) hids (fun r hr => ⟨r, hr, rfl, rfl⟩) ?_
  rintro side' takes left a hsource - - r hr
  rcases mem_execute hr with ⟨hr, -⟩ | ⟨r', hr', -, -, rfl⟩
  exacts [hsource r hr, hsource r' hr']

/-- After a walk that left something, the id of a resting order is still held unless that
order was within the limit. -/
theorem holds_matched_iff {msg : NewOrderMessage} {e : MatchingEngine} {ref : RefBook}
    {q : Int → List Ptr} {free : List Ptr} {x : Ptr} (he : EngineInv e q free)
    (hv : Views e.heap q ref) (hx : e.book.orderMap msg.id = some x)
    (hdone : ∀ r ∈ (ref.traded msg).side, beyondLimit msg r.price = true) :
    RefBook.holds (Function.update ref msg.side.opposite (ref.traded msg).side) msg.id ↔
      ¬ ((e.heap.order x).side = msg.side.opposite ∧
        beyondLimit msg (e.heap.order x).price = false) := by
  have hids := hv.ids msg.side.opposite
  obtain ⟨hlinked, hid⟩ := (he.rep.map msg.id x).1 hx
  constructor
  · rintro ⟨t, r, hr, hrid⟩ ⟨hs, hwithin⟩
    by_cases ht : t = msg.side.opposite
    · subst ht
      rw [Function.update_self] at hr
      obtain ⟨a, ha, haid, hprice⟩ := matchSide_source hids r hr
      obtain ⟨-, rfl⟩ := hv.entry_eq he.rep ha (by rwa [haid, hrid])
      have := hdone r hr
      rw [← hprice] at this
      exact absurd (this.symm.trans hwithin) (by simp)
    · rw [Function.update_of_ne ht] at hr
      obtain ⟨hs', -⟩ := hv.entry_eq he.rep hr (by rwa [hrid])
      exact ht (hs'.symm.trans hs)
  · intro hnot
    have hmem := hv.mem he.rep hlinked
    refine ⟨(e.heap.order x).side, restingOf (e.heap.order x), ?_, hid⟩
    by_cases hs : (e.heap.order x).side = msg.side.opposite
    · rw [hs, Function.update_self]
      apply matchSide_keeps _ hids (hs ▸ hmem)
      by_contra hwithin
      exact hnot ⟨hs, by simpa [restingOf] using hwithin⟩
    · rwa [Function.update_of_ne hs]

/-- What `msg` itself leaves resting under its id: an order that carries the id when matching
ends is an older one. -/
def MatchingEngine.restedBy (e : MatchingEngine) (msg : NewOrderMessage) (e' : MatchingEngine) :
    Nat :=
  match e.matched msg with
  | none => 0
  | some s =>
    if s.1.book.getOrder msg.id = none then
      match e'.book.getOrder msg.id with
      | none => 0
      | some x => (e'.heap.order x).remainingQuantity.toNat
    else 0

/-- `msg` took the engine from `e` to `e'`, either without a trace or with all of its quantity
traded or resting. -/
def AllOrNothing (e : MatchingEngine) (msg : NewOrderMessage) (e' : MatchingEngine) : Prop :=
  (e'.fills = [] ∧ e'.book = e.book ∧ e'.pool = e.pool) ∨
    (e'.fills.map (·.quantity.toNat)).sum + e.restedBy msg e' = msg.quantity.toNat

/-- Nothing was traded iff nothing was within the limit. -/
theorem takes_eq_nil_iff {ref : RefBook} {msg : NewOrderMessage}
    (hopen : ∀ r ∈ ref msg.side.opposite, 0 < r.remaining) (hquant : msg.quantity ≠ 0) :
    (ref.traded msg).takes = [] ↔ ref.liquidity msg = 0 := by
  have htotal := walk_total (beyondLimit msg)
    ((ref msg.side.opposite).insertionSort (priority msg.side.opposite)) msg.quantity
  have hleft := matchSide_left ref msg
  simp only [RefBook.traded, matchSide] at hleft ⊢
  constructor
  · intro hnil
    have hpos : msg.quantity.toNat ≠ 0 := fun h => hquant (UInt32.toNat_inj.1 h)
    rw [hnil] at htotal
    simp only [List.map_nil, List.sum_nil] at htotal
    omega
  · intro hzero
    by_contra hne
    obtain ⟨t, ht⟩ := List.exists_mem_of_ne_nil _ hne
    obtain ⟨hmem, hwithin⟩ := mem_takes (s := msg.side.opposite) ht
    have hcounted : t.1.remaining.toNat = 0 := by
      apply List.sum_eq_zero_iff_forall_eq_nat.1 hzero
      exact List.mem_map.2 ⟨t.1, List.mem_filter.2 ⟨hmem, by simp [hwithin]⟩, rfl⟩
    have := UInt32.lt_iff_toNat_lt.1 (hopen t.1 hmem)
    simp only [UInt32.toNat_zero] at this
    omega

theorem Simulates.isOpen {e : MatchingEngine} {ref : RefBook} (hsim : Simulates e ref) :
    ∀ s, ∀ r ∈ ref s, 0 < r.remaining := by
  obtain ⟨q, free, he, hv⟩ := hsim
  intro s r hr
  obtain ⟨x, hx, -, rfl⟩ := hv.mem_iff.1 hr
  exact (he.consistent.remaining _ x (he.rep.linkedAt_iff.2 hx)).1

/-- The order the book finds for an entry of the reference. -/
theorem Simulates.getOrder_eq {e : MatchingEngine} {ref : RefBook} (hsim : Simulates e ref)
    {s : Side} {r : Resting} (hr : r ∈ ref s) :
    ∃ x, e.book.getOrder r.id = some x ∧ (e.heap.order x).side = s ∧
      restingOf (e.heap.order x) = r := by
  obtain ⟨q, free, he, hv⟩ := hsim
  have hsome := (hv.holds_iff he.rep r.id).1 ⟨s, r, hr, rfl⟩
  obtain ⟨x, hx⟩ := Option.ne_none_iff_exists'.1 hsome
  exact ⟨x, hx, hv.entry_eq he.rep hr hx⟩

namespace MatchEnd

variable {e e' : MatchingEngine} {ref : RefBook} {msg : NewOrderMessage}
  {s : MatchingEngine × Quantity} {q : Int → List Ptr} {free : List Ptr} {x : Ptr}

theorem fills_sum (h : MatchEnd e ref msg s q free) :
    (s.1.fills.map (·.quantity.toNat)).sum + s.2.toNat = msg.quantity.toNat := by
  have := walk_total (beyondLimit msg)
    ((ref msg.side.opposite).insertionSort (priority msg.side.opposite)) msg.quantity
  rw [h.fills, h.rest, List.map_map]
  exact this

theorem rest_toNat (h : MatchEnd e ref msg s q free) :
    s.2.toNat = msg.quantity.toNat - ref.liquidity msg := by
  rw [h.rest, matchSide_left]

theorem restedBy_of_held (h : MatchEnd e ref msg s q free)
    (hheld : s.1.book.orderMap msg.id ≠ none) (e' : MatchingEngine) : e.restedBy msg e' = 0 := by
  simp only [restedBy, h.matched, OrderBook.getOrder, hheld, if_false]

/-- With a remainder left, the id of the older order is still held unless that order was
within the limit. -/
theorem held_iff (h : MatchEnd e ref msg s q free) (hpos : 0 < s.2)
    (hx : e.book.getOrder msg.id = some x) :
    s.1.book.orderMap msg.id ≠ none ↔ ¬ ((e.heap.order x).side = msg.side.opposite ∧
      beyondLimit msg (e.heap.order x).price = false) := by
  obtain ⟨q₀, free₀, he, hv⟩ := h.sim
  rw [← h.views.holds_iff h.inv.rep msg.id]
  refine holds_matched_iff he hv hx fun r hr => ?_
  have hprices := h.done.resolve_left fun h0 => absurd (h0 ▸ hpos) (by decide)
  obtain ⟨y, hy, hs, -⟩ := h.views.mem_iff.1
    (show r ∈ Function.update ref msg.side.opposite _ msg.side.opposite by
      rwa [Function.update_self])
  exact hprices r.price ⟨y, hy, hs⟩

/-- All of the quantity was traded: nothing is left to rest. -/
theorem allOrNothing_of_traded (h : MatchEnd e ref msg s q free) (hpos : ¬ 0 < s.2) :
    AllOrNothing e msg s.1 := by
  have hzero : s.2.toNat = 0 := by
    rw [UInt32.lt_iff_toNat_lt] at hpos
    simpa using hpos
  have hrest : e.restedBy msg s.1 = 0 := by
    simp only [restedBy, h.matched]
    split_ifs with hnone
    · simp only [hnone]
    · rfl
  have := h.fills_sum
  right
  omega

/-- The older order was traded away, so a slot is free and the remainder rests. -/
theorem allOrNothing_of_replaced (h : MatchEnd e ref msg s q free) (hpos : 0 < s.2)
    (hlimit : msg.type = .limit) (hprice : 0 ≤ msg.price ∧ msg.price < maxPriceTicks)
    (hx : e.book.getOrder msg.id = some x) (hgone : s.1.book.getOrder msg.id = none) :
    AllOrNothing e msg (s.1.restRemainder msg s.2) := by
  have htraded : s.1.fills ≠ [] := by
    intro hnil
    rw [h.untouched hnil] at hgone
    exact absurd (hx.symm.trans hgone) (by simp)
  have hfree := h.free_of_traded hpos htraded
  have hprices := h.done.resolve_left fun h0 => absurd (h0 ▸ hpos) (by decide)
  have hsim := restRemainder_refines h.inv h.views hlimit hprice hpos h.left hprices
  have hnot : ¬ RefBook.holds (Function.update ref msg.side.opposite (ref.traded msg).side)
      msg.id := by
    rw [h.views.holds_iff h.inv.rep, not_not]
    exact hgone
  rw [RefBook.rest, if_pos ⟨hlimit, hpos, hnot, (size_lt_iff h.inv h.views).2 hfree⟩] at hsim
  obtain ⟨y, hy, -, hentry⟩ := hsim.getOrder_eq (s := msg.side) (r := ⟨msg.id, msg.price, s.2⟩)
    (by simp)
  have hrem : ((s.1.restRemainder msg s.2).heap.order y).remainingQuantity = s.2 :=
    congrArg Resting.remaining hentry
  right
  simp only [restedBy, h.matched, hgone, if_true, restRemainder_fills]
  simp only at hy
  simp only [hy, hrem]
  exact h.fills_sum

/-- The older order still rests, so the remainder is dropped, which is all of the message
only if nothing was traded. -/
theorem allOrNothing_of_held (h : MatchEnd e ref msg s q free) (hpos : 0 < s.2)
    (hheld : s.1.book.orderMap msg.id ≠ none) :
    AllOrNothing e msg s.1 ↔ ref.liquidity msg = 0 := by
  have hquant : msg.quantity ≠ 0 := by
    have hle := UInt32.le_iff_toNat_le.1 h.left
    rw [UInt32.lt_iff_toNat_lt] at hpos
    rintro h0
    simp only [h0, UInt32.toNat_zero] at hle hpos
    omega
  rw [← takes_eq_nil_iff (h.sim.isOpen msg.side.opposite) hquant]
  constructor
  · rintro (⟨hnil, -, -⟩ | hall)
    · exact List.map_eq_nil_iff.1 (h.fills.symm.trans hnil)
    · rw [h.restedBy_of_held hheld] at hall
      have hsum := h.fills_sum
      rw [UInt32.lt_iff_toNat_lt] at hpos
      simp only [UInt32.toNat_zero] at hpos
      omega
  · intro hnil
    left
    rw [h.untouched (by rw [h.fills, hnil]; rfl)]
    exact ⟨rfl, rfl, rfl⟩

end MatchEnd

/-- A message with the id of a resting order, looked at before it arrives: it is
all-or-nothing iff nothing is within its limit, or enough is, or the older order is itself
within the limit and so is traded away first. -/
theorem Simulates.duplicate_iff {e e' : MatchingEngine} {ref : RefBook} {msg : NewOrderMessage}
    {x : Ptr} (hsim : Simulates e ref) (hlimit : msg.type = .limit) (hquant : 0 < msg.quantity)
    (hprice : 0 ≤ msg.price ∧ msg.price < maxPriceTicks)
    (hx : e.book.getOrder msg.id = some x) (hstep : e.processNewOrder msg = some e') :
    AllOrNothing e msg e' ↔ ref.liquidity msg = 0 ∨ msg.quantity.toNat ≤ ref.liquidity msg ∨
      ((e.heap.order x).side = msg.side.opposite ∧
        beyondLimit msg (e.heap.order x).price = false) := by
  have hign : ¬ RefBook.ignored msg :=
    ignored_iff.2 ⟨fun h0 => absurd (h0 ▸ hquant) (by decide), fun _ => hprice⟩
  obtain ⟨s, q, free, hend⟩ := hsim.matchEnd msg
  rw [hend.processNewOrder hign] at hstep
  have hrest := hend.rest_toNat
  by_cases hpos : 0 < s.2
  · rw [if_pos ⟨hpos, hlimit⟩] at hstep
    have hlt := UInt32.lt_iff_toNat_lt.1 hpos
    simp only [UInt32.toNat_zero] at hlt
    have hheld := hend.held_iff hpos hx
    by_cases hcross : (e.heap.order x).side = msg.side.opposite ∧
        beyondLimit msg (e.heap.order x).price = false
    · have hgone : s.1.book.getOrder msg.id = none := by
        by_contra hsome
        exact hheld.1 hsome hcross
      obtain rfl := Option.some.inj hstep
      exact iff_of_true (hend.allOrNothing_of_replaced hpos hlimit hprice hx hgone)
        (.inr (.inr hcross))
    · have hstays := hheld.2 hcross
      rw [EngineInv.restRemainder_duplicate hend.inv.toEngineRep msg s.2 hstays] at hstep
      obtain rfl := Option.some.inj hstep
      rw [hend.allOrNothing_of_held hpos hstays]
      constructor
      · exact .inl
      · rintro (hnone | henough | hcross')
        · exact hnone
        · omega
        · exact absurd hcross' hcross
  · rw [if_neg fun h => hpos h.1] at hstep
    obtain rfl := Option.some.inj hstep
    have hzero : s.2.toNat = 0 := by
      rw [UInt32.lt_iff_toNat_lt] at hpos
      simpa using hpos
    exact iff_of_true (hend.allOrNothing_of_traded hpos) (.inr (.inl (by omega)))

/-- When a message with the id of a resting order is all-or-nothing, in every reachable
state. The liquidity is that of the book the engine shows. -/
theorem run_duplicate_iff (msgs : List EngineMessage) (msg : NewOrderMessage)
    (e : MatchingEngine) (x : Ptr) (hrun : new.run msgs = some e) (hlimit : msg.type = .limit)
    (hquant : 0 < msg.quantity) (hprice : 0 ≤ msg.price ∧ msg.price < maxPriceTicks)
    (hx : e.book.getOrder msg.id = some x) :
    Shows e (RefBook.run .empty msgs) ∧ ∃ e', e.processNewOrder msg = some e' ∧
      (AllOrNothing e msg e' ↔
        (RefBook.run .empty msgs).liquidity msg = 0 ∨
        msg.quantity.toNat ≤ (RefBook.run .empty msgs).liquidity msg ∨
        ((e.heap.order x).side = msg.side.opposite ∧
          beyondLimit msg (e.heap.order x).price = false)) := by
  obtain ⟨e₀, hrun₀, hsim⟩ := Simulates.new.run msgs
  obtain rfl := Option.some.inj (hrun₀.symm.trans hrun)
  obtain ⟨e', hstep, -, -⟩ := processNewOrder_refines hsim msg
  exact ⟨hsim.shows, e', hstep, hsim.duplicate_iff hlimit hquant hprice hx hstep⟩

/-- A bid for 10 with id 7, and an ask for 4 it does not reach. -/
def bidBelowAsk : List EngineMessage :=
  [.newOrder { id := 7, price := 100, quantity := 10 },
    .newOrder { id := 8, side := .ask, price := 200, quantity := 4 }]

theorem bidBelowAsk_run (s : Side) : RefBook.run .empty bidBelowAsk s =
    match s with
    | .bid => [⟨7, 100, 10⟩]
    | .ask => [⟨8, 200, 4⟩] := by
  cases s <;> decide +kernel

/-- An ask with id 7 that the bid reaches trades the older order away and rests. -/
theorem run_duplicate_replaced :
    ∃ e x e', new.run bidBelowAsk = some e ∧ e.book.getOrder 7 = some x ∧
      e.processNewOrder { id := 7, side := .ask, price := 100, quantity := 12 } = some e' ∧
      AllOrNothing e { id := 7, side := .ask, price := 100, quantity := 12 } e' := by
  obtain ⟨e, hrun, hsim⟩ := Simulates.new.run bidBelowAsk
  obtain ⟨x, hx, hs, hentry⟩ := hsim.getOrder_eq (s := .bid) (r := ⟨7, 100, 10⟩)
    (by simp [bidBelowAsk_run])
  obtain ⟨-, e', hstep, hiff⟩ := run_duplicate_iff bidBelowAsk
    { id := 7, side := .ask, price := 100, quantity := 12 } e x hrun rfl (by decide) (by decide) hx
  refine ⟨e, x, e', hrun, hx, hstep, hiff.2 (.inr (.inr ⟨hs, ?_⟩))⟩
  have hp : (e.heap.order x).price = 100 := congrArg Resting.price hentry
  rw [hp]
  decide

/-- A second bid with id 7 that takes the ask: it trades 4 and loses the other 6. -/
theorem run_duplicate_loses :
    ∃ e x e', new.run bidBelowAsk = some e ∧ e.book.getOrder 7 = some x ∧
      e.processNewOrder { id := 7, price := 200, quantity := 10 } = some e' ∧
      ¬ AllOrNothing e { id := 7, price := 200, quantity := 10 } e' := by
  obtain ⟨e, hrun, hsim⟩ := Simulates.new.run bidBelowAsk
  obtain ⟨x, hx, hs, -⟩ := hsim.getOrder_eq (s := .bid) (r := ⟨7, 100, 10⟩)
    (by simp [bidBelowAsk_run])
  obtain ⟨e', hstep, -, -⟩ := processNewOrder_refines hsim
    { id := 7, price := 200, quantity := 10 }
  refine ⟨e, x, e', hrun, hx, hstep, ?_⟩
  rw [hsim.duplicate_iff rfl (by decide) (by decide) hx hstep, hs]
  have hliq : (RefBook.run .empty bidBelowAsk).liquidity
      { id := 7, price := 200, quantity := 10 } = 4 := by
    simp only [RefBook.liquidity, bidBelowAsk_run]
    decide
  rw [hliq]
  rintro (h | h | ⟨h, -⟩) <;> exact absurd h (by decide)

/-! ## Orders that were not cancelled -/

/-- An order that was not cancelled still rests, or all of it was filled. -/
def Accounted (ref : RefBook) (fills : List Fill) (m : NewOrderMessage) : Prop :=
  ref.holds m.id ∨ filledOf m.id fills = m.quantity.toNat

theorem Accounted.rest {ref : RefBook} {fills : List Fill} {m msg : NewOrderMessage}
    {left : Quantity} (h : Accounted ref fills m) : Accounted (ref.rest msg left) fills m := by
  refine h.imp (fun hheld => ?_) id
  obtain ⟨s, r, hr, hid⟩ := hheld
  unfold RefBook.rest
  split_ifs
  · by_cases hs : s = msg.side
    · subst hs
      exact ⟨msg.side, r, by simp [hr], hid⟩
    · exact ⟨s, r, by rwa [Function.update_of_ne hs], hid⟩
  · exact ⟨s, r, hr, hid⟩

namespace Conserved

variable {sub : List NewOrderMessage} {ref : RefBook} {fills : List Fill}

/-- A trade that removes a resting order fills what remained of it. -/
theorem Trading.trade_accounted {msg : NewOrderMessage} {left : Quantity}
    (ht : Trading sub msg ref fills left) {s : Side} {r : Resting} (hr : r ∈ ref s)
    {m : NewOrderMessage} (hm : m ∈ sub) (hne : msg.id ≠ m.id) (hacc : Accounted ref fills m) :
    Accounted (Function.update ref s (execute (ref s) r.id (min left r.remaining)))
      (fills ++ [fillOf msg (r, min left r.remaining)]) m := by
  rw [Accounted, filledOf_trade]
  by_cases hid : r.id = m.id
  · obtain ⟨m', hm', hmid, hbal⟩ := ht.resting s r hr
    obtain rfl : m' = m := List.inj_on_of_nodup_map ht.distinct hm' hm (hmid.trans hid)
    by_cases hfull : r.remaining ≤ left
    · right
      rw [if_pos (.inr hid), quantity_min_right hfull, ← hid]
      omega
    · left
      have hpart : ¬ r.remaining ≤ min left r.remaining := by
        rw [quantity_min_left hfull]
        exact hfull
      refine ⟨s, { r with remaining := r.remaining - min left r.remaining }, ?_, hid⟩
      rw [Function.update_self]
      exact List.mem_filterMap.2 ⟨r, hr, by simp [hpart]⟩
  · rw [if_neg (by tauto)]
    refine hacc.imp (fun hheld => ?_) id
    obtain ⟨t, a, ha, haid⟩ := hheld
    by_cases hts : t = s
    · subst hts
      refine ⟨t, a, ?_, haid⟩
      rw [Function.update_self]
      apply mem_execute_of_ne _ ha
      rw [haid]
      exact fun h => hid h.symm
    · exact ⟨t, a, by rwa [Function.update_of_ne hts], haid⟩

theorem Trading.matchSide_accounted {msg : NewOrderMessage} {qty : Quantity}
    (ht : Trading sub msg ref fills qty) (s : Side) (beyond : Int → Bool)
    {m : NewOrderMessage} (hm : m ∈ sub) (hne : msg.id ≠ m.id) (hacc : Accounted ref fills m) :
    Accounted (Function.update ref s (LockfreeMatching.matchSide s beyond (ref s) qty).side)
      (fills ++ (LockfreeMatching.matchSide s beyond (ref s) qty).takes.map (fillOf msg)) m := by
  refine (matchSide_induction (Q := fun side takes left =>
    Trading sub msg (Function.update ref s side) (fills ++ takes.map (fillOf msg)) left ∧
      Accounted (Function.update ref s side) (fills ++ takes.map (fillOf msg)) m)
    (ht.ids s) (by simpa using ⟨ht, hacc⟩) fun side takes left r hq hr hleft => ?_).2
  have hr' : r ∈ Function.update ref s side s := by simpa using hr
  have htrade := hq.1.trade hr' hleft
  have hkeep := hq.1.trade_accounted hr' hm hne hq.2
  simp only [Function.update_self, Function.update_idem, List.append_assoc] at htrade hkeep
  simpa using ⟨htrade, hkeep⟩

/-- A limit order that finds room is accounted for once it has been matched. -/
theorem Trading.rest_accounted {msg : NewOrderMessage} {left : Quantity}
    (ht : Trading sub msg ref fills left) (htype : msg.type = .limit)
    (hroom : ref.size < orderPoolSize) : Accounted (ref.rest msg left) fills msg := by
  have hbal := ht.balance
  by_cases hleft : left = 0
  · right
    simp only [hleft, UInt32.toNat_zero] at hbal
    exact hbal
  · left
    rw [RefBook.rest, if_pos ⟨htype, by grind, ht.absent, hroom⟩]
    exact ⟨msg.side, ⟨msg.id, msg.price, left⟩, by simp, rfl⟩

/-- Only its own cancel ends the account of an order. -/
theorem process_accounted (hc : Conserved sub ref fills) (msg : EngineMessage)
    (hids : ((sub ++ submitted [msg]).map (·.id)).Nodup) {m : NewOrderMessage} (hm : m ∈ sub)
    (hacc : Accounted ref fills m) (hcancel : ∀ c, msg = .cancel c → c.id ≠ m.id) :
    Accounted (ref.process msg).1 (fills ++ (ref.process msg).2) m := by
  cases msg with
  | cancel c =>
    rw [RefBook.process, List.append_nil]
    refine hacc.imp (fun hheld => ?_) id
    obtain ⟨s, r, hr, hid⟩ := hheld
    refine ⟨s, r, List.mem_filter.2 ⟨hr, ?_⟩, hid⟩
    simpa [hid] using (hcancel c rfl).symm
  | newOrder a =>
    have ht : Trading (sub ++ [a]) a ref fills a.quantity := hc.trading hids
    have hne : a.id ≠ m.id := by
      have hids' : ((sub ++ [a]).map (·.id)).Nodup := hids
      rw [List.map_append, List.nodup_append] at hids'
      exact (hids'.2.2 m.id (List.mem_map_of_mem hm) a.id (by simp)).symm
    change Accounted (ref.newOrder a).1 (fills ++ (ref.newOrder a).2) m
    unfold RefBook.newOrder
    split_ifs
    · simpa using hacc
    · exact (ht.matchSide_accounted a.side.opposite (beyondLimit a) (by simp [hm]) hne hacc).rest

/-- A limit order in the price range is accounted for if a slot is free for it. -/
theorem newOrder_accounted (hc : Conserved sub ref fills) {m : NewOrderMessage}
    (hids : ((sub ++ [m]).map (·.id)).Nodup) (htype : m.type = .limit)
    (hlook : ¬ RefBook.ignored m) (hroom : ref.size < orderPoolSize) :
    Accounted (ref.newOrder m).1 (fills ++ (ref.newOrder m).2) m := by
  have ht := (hc.trading hids).matchSide m.side.opposite (beyondLimit m)
  have hshrink : (LockfreeMatching.matchSide m.side.opposite (beyondLimit m)
      (ref m.side.opposite) m.quantity).side.length ≤ (ref m.side.opposite).length :=
    (matchSide_shrinks (hc.ids m.side.opposite)).1
  rw [RefBook.newOrder, if_neg hlook]
  apply ht.rest_accounted htype
  have hsize : ∀ t, ∀ l : List Resting, l.length ≤ (ref t).length →
      RefBook.size (Function.update ref t l) ≤ ref.size := by
    intro t l hl
    cases t <;> simp [RefBook.size, hl]
  exact (hsize _ _ hshrink).trans_lt hroom

end Conserved
end LockfreeMatching
