import LockfreeMatching.Core.Refinement

/-!
# Runs of the engine

What holds after any sequence of messages from a fresh engine. Statements speak about the
orders reached from the level heads and the slots reached from the free-list head; the ghost
lists of `EngineInv` only occur in proofs. `LoopState` adds the states inside a message: every
evaluation of a test of the two nested matching loops.

## Main results

* `run_process_refines`: fills and book are those of the reference.
* `run_separated`: the book never crosses and no level mixes sides.
* `run_consistent`: id map, levels and counters describe one set of orders.
* `run_depthExact_iff`: when the aggregate of a level is its depth.
* `run_poolExact`: no slot is leaked, freed twice or shared.
-/
namespace LockfreeMatching

open Lib MatchingEngine

namespace MatchingEngine

/-- Process messages in order; `none` if one of the calls does not return. -/
def run (e : MatchingEngine) : List EngineMessage → Option MatchingEngine
  | [] => some e
  | msg :: msgs => (e.process msg).bind fun e' => run e' msgs

end MatchingEngine

def RefBook.run (ref : RefBook) : List EngineMessage → RefBook
  | [] => ref
  | msg :: msgs => RefBook.run (ref.process msg).1 msgs

theorem RefBook.run_append (ref : RefBook) (a b : List EngineMessage) :
    ref.run (a ++ b) = RefBook.run (ref.run a) b := by
  induction a generalizing ref with
  | nil => rfl
  | cons msg a ih => simp [RefBook.run, ih]

/-- Runs return, and engine and reference stay in step. -/
theorem Simulates.run {e : MatchingEngine} {ref : RefBook} (hsim : Simulates e ref)
    (msgs : List EngineMessage) :
    ∃ e', e.run msgs = some e' ∧ Simulates e' (ref.run msgs) := by
  induction msgs generalizing e ref with
  | nil => exact ⟨e, rfl, hsim⟩
  | cons msg msgs ih =>
    obtain ⟨e₁, hstep, -, hsim₁⟩ := process_simulates hsim msg
    obtain ⟨e', hrun, hsim'⟩ := ih hsim₁
    exact ⟨e', by simp [MatchingEngine.run, hstep, hrun], hsim'⟩

/-! ## Agreement with the reference -/

/-- The orders of the reference book at one price, bids before asks. -/
def RefBook.level (ref : RefBook) (p : Int) : List (Side × Resting) :=
  ((ref .bid).filter (·.price = p)).map (Side.bid, ·) ++
    ((ref .ask).filter (·.price = p)).map (Side.ask, ·)

/-- The engine's book is the reference book: every level lists the same orders front to
back, and lookup and counters agree. -/
structure Shows (e : MatchingEngine) (ref : RefBook) : Prop where
  level : ∀ p, ∃ l, Chain (fun y => (e.heap.order y).next) (e.book.levels p).head l ∧
    l.map (fun x => ((e.heap.order x).side, restingOf (e.heap.order x))) = ref.level p
  lookup : ∀ id, e.book.getOrder id = none ↔ ¬ ref.holds id
  count : ∀ s, (e.book.count s).toNat = (ref s).length

theorem Simulates.shows {e : MatchingEngine} {ref : RefBook} (hsim : Simulates e ref) :
    Shows e ref := by
  obtain ⟨q, free, he, hv⟩ := hsim
  refine ⟨fun p => ⟨q p, he.rep.chain p, ?_⟩, fun id => ?_,
    fun s => (hv.length_eq he.rep s).symm⟩
  · rw [RefBook.level, ← hv.queue .bid p, ← hv.queue .ask p]
    -- all orders of the level are on one side, so one of the two lists is empty
    have hone : ∃ s, ∀ x ∈ q p, (e.heap.order x).side = s := by
      cases hq : q p with
      | nil => exact ⟨.bid, by simp⟩
      | cons x l =>
        refine ⟨(e.heap.order x).side, fun y hy => ?_⟩
        rw [← hq] at hy
        exact he.uncrossed.same_side hy (by simp [hq])
    obtain ⟨s, hs⟩ := hone
    have hmap : (q p).map (fun x => ((e.heap.order x).side, restingOf (e.heap.order x))) =
        (q p).map fun x => (s, restingOf (e.heap.order x)) :=
      List.map_congr_left fun x hx => by rw [hs x hx]
    have hsame : (q p).filter (fun x => (e.heap.order x).side = s) = q p := by
      rw [List.filter_eq_self]
      exact fun x hx => decide_eq_true (hs x hx)
    have hnone : ∀ t, t ≠ s → (q p).filter (fun x => (e.heap.order x).side = t) = [] := by
      intro t ht
      rw [List.filter_eq_nil_iff]
      intro x hx
      rw [hs x hx, decide_eq_true_eq]
      exact Ne.symm ht
    rw [hmap]
    cases s with
    | bid => simp [sideQueue, hsame, hnone .ask (by simp)]
    | ask => simp [sideQueue, hsame, hnone .bid (by simp)]
  · rw [hv.holds_iff he.rep, not_not]
    rfl

/-- An id is held exactly if an order of a level carries it. -/
theorem Simulates.holds_iff {e : MatchingEngine} {ref : RefBook} (hsim : Simulates e ref)
    (id : OrderId) :
    ref.holds id ↔ ∃ p x, LinkedAt e.heap e.book p x ∧ (e.heap.order x).id = id := by
  obtain ⟨q, free, he, hv⟩ := hsim
  constructor
  · rintro ⟨s, r, hr, rfl⟩
    obtain ⟨x, hx, -, rfl⟩ := hv.mem_iff.1 hr
    exact ⟨_, x, he.rep.linkedAt_iff.2 hx, rfl⟩
  · rintro ⟨p, x, hx, rfl⟩
    exact ⟨_, _, hv.mem he.rep (he.rep.linkedAt_iff.1 hx), rfl⟩

/-- After any messages, processing one more returns the fills of the reference and leaves
the book of the reference. -/
theorem run_process_refines (msgs : List EngineMessage) (msg : EngineMessage) :
    ∃ e e', new.run msgs = some e ∧ Shows e (RefBook.run .empty msgs) ∧
      e.process msg = some e' ∧
      e'.fills = (RefBook.process (RefBook.run .empty msgs) msg).2 ∧
      Shows e' (RefBook.process (RefBook.run .empty msgs) msg).1 := by
  obtain ⟨e, hrun, hsim⟩ := Simulates.new.run msgs
  obtain ⟨e', hstep, hfills, hsim'⟩ := process_simulates hsim msg
  exact ⟨e, e', hrun, hsim.shows, hstep, hfills, hsim'.shows⟩

/-! ## States inside a message -/

/-- Tests of the matching loop that `processNewOrder` runs for `msg`. -/
def MatchHead (e : MatchingEngine) (msg : NewOrderMessage) : MatchingEngine × Quantity → Prop :=
  match msg.side with
  | .bid => Head (crosses OrderBook.hasAsks OrderBook.bestAsk (aboveLimit msg))
      (fillBest OrderBook.bestAsk msg) ({ e with fills := [] }, msg.quantity)
  | .ask => Head (crosses OrderBook.hasBids OrderBook.bestBid (belowLimit msg))
      (fillBest OrderBook.bestBid msg) ({ e with fills := [] }, msg.quantity)

/-- The best opposite price, where the matching loop fills next. -/
def oppositeBest (msg : NewOrderMessage) (b : OrderBook) : Int :=
  match msg.side with
  | .bid => b.bestAsk
  | .ask => b.bestBid

/-- Whether the matching loop goes on. -/
def continues (msg : NewOrderMessage) (s : MatchingEngine × Quantity) : Bool :=
  match msg.side with
  | .bid => crosses OrderBook.hasAsks OrderBook.bestAsk (aboveLimit msg) s
  | .ask => crosses OrderBook.hasBids OrderBook.bestBid (belowLimit msg) s

/-- A state in which one of the two nested loops evaluates its test. -/
inductive LoopState (e : MatchingEngine) (msg : NewOrderMessage) :
    MatchingEngine × Quantity → Prop where
  | outer {s : MatchingEngine × Quantity} : MatchHead e msg s → LoopState e msg s
  | inner {s t : MatchingEngine × Quantity} : MatchHead e msg s → continues msg s = true →
      Head (levelOpen (oppositeBest msg s.1.book))
        (fillFront (oppositeBest msg s.1.book) msg.id msg.side msg.timestamp) s t →
      LoopState e msg t

theorem oppositeBest_eq (msg : NewOrderMessage) :
    oppositeBest msg = OrderBook.best msg.side.opposite := by
  funext b
  unfold oppositeBest
  cases msg.side <;> rfl

theorem continues_eq (msg : NewOrderMessage) :
    continues msg = crosses (OrderBook.has msg.side.opposite)
      (OrderBook.best msg.side.opposite) (beyondLimit msg) := by
  funext s
  unfold continues
  cases hs : msg.side with
  | bid => rw [beyondLimit_bid hs]; rfl
  | ask => rw [beyondLimit_ask hs]; rfl

theorem matchHead_eq (e : MatchingEngine) (msg : NewOrderMessage) :
    MatchHead e msg = Head (continues msg) (fillBest (oppositeBest msg) msg)
      ({ e with fills := [] }, msg.quantity) := by
  rw [continues_eq, oppositeBest_eq]
  unfold MatchHead
  cases hs : msg.side with
  | bid => rw [beyondLimit_bid hs]; rfl
  | ask => rw [beyondLimit_ask hs]; rfl

theorem MatchHead.matching {e : MatchingEngine} {ref : RefBook} {q : Int → List Ptr}
    {free : List Ptr} {msg : NewOrderMessage} {t : MatchingEngine × Quantity}
    (he : EngineInv e q free) (hv : Views e.heap q ref) (ht : MatchHead e msg t) :
    ∃ q free side takes, Matching msg ref t q free side takes := by
  rw [matchHead_eq] at ht
  refine ht.invariant (I := fun u => ∃ q free side takes, Matching msg ref u q free side takes)
    ?_ ⟨_, _, _, _, Matching.start msg he hv⟩
  rintro u v ⟨q, free, side, takes, hm⟩ hc hb
  rw [continues_eq] at hc
  rw [fillBest, oppositeBest_eq] at hb
  obtain ⟨hpos, hne, hbest⟩ := hm.atBest hc
  obtain ⟨v', q', free', side', takes', hstep, hm', -⟩ := hm.fillLevel hbest hne hpos
  obtain rfl := Option.some.inj (hstep.symm.trans hb)
  exact ⟨q', free', side', takes', hm'⟩

/-- The engine is consistent whenever a loop test is evaluated. -/
theorem LoopState.inv {e : MatchingEngine} {ref : RefBook} {msg : NewOrderMessage}
    {t : MatchingEngine × Quantity} (hsim : Simulates e ref) (ht : LoopState e msg t) :
    ∃ q free, EngineInv t.1 q free := by
  obtain ⟨q, free, he, hv⟩ := hsim
  cases ht with
  | outer hs =>
    obtain ⟨q, free, _, _, hm⟩ := hs.matching he hv
    exact ⟨q, free, hm.inv⟩
  | @inner s _ hs hc ht =>
    obtain ⟨q, free, side, takes, hm⟩ := hs.matching he hv
    rw [continues_eq] at hc
    rw [oppositeBest_eq] at ht
    obtain ⟨-, -, hb⟩ := hm.atBest hc
    have hinv := ht.invariant (I := fun u => ∃ q free side takes,
      Matching msg ref u q free side takes ∧
        AtBest msg (OrderBook.best msg.side.opposite s.1.book) u.1.heap q) ?_
      ⟨q, free, side, takes, hm, hb⟩
    · obtain ⟨q, free, _, _, hm, -⟩ := hinv
      exact ⟨q, free, hm.inv⟩
    · rintro u v ⟨q, free, side, takes, hm, hb⟩ hopen hstep
      obtain ⟨hpos, hlevel⟩ := levelOpen_iff.1 hopen
      obtain ⟨x, l, hq⟩ := hm.inv.rep.exists_cons hlevel
      obtain ⟨v', q', free', side', takes', hstep', hm', hb', -⟩ := hm.fillFront hb hq hpos
      obtain rfl := Option.some.inj (hstep'.symm.trans hstep)
      exact ⟨q', free', side', takes', hm', hb'⟩

/-! ## The book never crosses -/

/-- Every resting bid is priced below every resting ask, and no level mixes sides. -/
structure Separated (e : MatchingEngine) : Prop where
  notCrossed : NotCrossed e.heap e.book
  oneSide : ∀ p x y, LinkedAt e.heap e.book p x → LinkedAt e.heap e.book p y →
    (e.heap.order x).side = (e.heap.order y).side

theorem EngineInv.separated {e : MatchingEngine} {q : Int → List Ptr} {free : List Ptr}
    (he : EngineInv e q free) : Separated e where
  notCrossed := he.rep.notCrossed_iff.2 he.uncrossed
  oneSide _ _ _ hx hy :=
    he.uncrossed.same_side (he.rep.linkedAt_iff.1 hx) (he.rep.linkedAt_iff.1 hy)

/-- Between messages and at every iteration inside a message. -/
theorem run_separated (msgs : List EngineMessage) :
    ∃ e, new.run msgs = some e ∧ Separated e ∧
      ∀ msg t, LoopState e msg t → Separated t.1 := by
  obtain ⟨e, hrun, hsim⟩ := Simulates.new.run msgs
  refine ⟨e, hrun, ?_, fun msg t ht => ?_⟩
  · obtain ⟨q, free, he, -⟩ := hsim
    exact he.separated
  · obtain ⟨q, free, he⟩ := ht.inv hsim
    exact he.separated

/-! ## One set of orders -/

/-- The id map, the levels and the counters describe the same orders. -/
structure Consistent (e : MatchingEngine) : Prop where
  lookup : ∀ id x, e.book.orderMap id = some x ↔
    (∃! p, LinkedAt e.heap e.book p x) ∧ LinkedAt e.heap e.book (e.heap.order x).price x ∧
      (e.heap.order x).id = id ∧ 0 ≤ (e.heap.order x).price ∧
      (e.heap.order x).price < maxPriceTicks
  mapped : ∀ p x, LinkedAt e.heap e.book p x → e.book.orderMap (e.heap.order x).id = some x
  order : ∀ p x, LinkedAt e.heap e.book p x → (e.heap.order x).type = .limit ∧
    (e.heap.order x).filledQuantity < (e.heap.order x).quantity
  remaining : ∀ p x, LinkedAt e.heap e.book p x → 0 < (e.heap.order x).remainingQuantity ∧
    (e.heap.order x).filledQuantity.toNat + (e.heap.order x).remainingQuantity.toNat =
      (e.heap.order x).quantity.toNat
  count : ∀ s, (e.book.count s).toNat =
    {x | (∃ p, LinkedAt e.heap e.book p x) ∧ (e.heap.order x).side = s}.ncard
  level : ∀ p, ∃ l, Chain (fun y => (e.heap.order y).next) (e.book.levels p).head l ∧
    l.Nodup ∧ (e.book.levels p).orderCount.toNat = l.length ∧
    (e.book.levels p).totalQuantity.toNat =
      (l.map fun x => (e.heap.order x).remainingQuantity.toNat).sum % 2 ^ 32

/-- A queue is no longer than the pool. -/
theorem EngineRep.queue_length {e : MatchingEngine} {q : Int → List Ptr} {free : List Ptr}
    (he : EngineRep e q free) (p : Int) : (q p).length ≤ orderPoolSize := by
  have hsub : q p ⊆ (List.range orderPoolSize).map slotPtr := by
    intro x hx
    obtain ⟨i, hi, rfl⟩ := (he.slots x).1 (.inr ⟨p, hx⟩)
    exact List.mem_map.2 ⟨i, List.mem_range.2 hi, rfl⟩
  have := ((he.rep.nodup p).subperm hsub).length_le
  simpa using this

theorem EngineInv.consistent {e : MatchingEngine} {q : Int → List Ptr} {free : List Ptr}
    (he : EngineInv e q free) : Consistent e := by
  have hlink : ∀ p x, LinkedAt e.heap e.book p x ↔ x ∈ q p := fun p x => he.rep.linkedAt_iff
  refine ⟨fun id x => ?_, fun p x hx => ?_, fun p x hx => ?_, fun p x hx => ?_, fun s => ?_,
    fun p => ⟨q p, he.rep.chain p, he.rep.nodup p, ?_, ?_⟩⟩
  · rw [he.rep.map]
    simp only [hlink]
    constructor
    · rintro ⟨hx, hid⟩
      exact ⟨⟨_, hx, fun p hp => (he.rep.price p x hp).symm⟩, hx, hid, he.rep.range _ x hx⟩
    · rintro ⟨-, hx, hid, -⟩
      exact ⟨hx, hid⟩
  · rw [he.rep.map]
    exact ⟨(he.rep.mem_iff.1 ((hlink p x).1 hx)).1, rfl⟩
  · exact he.isOpen p x ((hlink p x).1 hx)
  · obtain ⟨-, hopen⟩ := he.isOpen p x ((hlink p x).1 hx)
    have hlt := UInt32.lt_iff_toNat_lt.1 hopen
    have hrem : (e.heap.order x).remainingQuantity.toNat = _ :=
      UInt32.toNat_sub_of_le _ _ (UInt32.le_of_lt hopen)
    rw [UInt32.lt_iff_toNat_lt, hrem]
    simp only [UInt32.toNat_zero]
    omega
  · rw [he.rep.count s]
    congr 1
    ext x
    simp only [resting, Set.mem_ofPred_eq, hlink]
    refine and_congr_left fun _ => ⟨fun hx => ⟨_, hx⟩, ?_⟩
    rintro ⟨p, hx⟩
    exact (he.rep.mem_iff.1 hx).1
  · have hlen := he.toEngineRep.queue_length p
    rw [orderPoolSize_eq] at hlen
    rw [(he.rep.level p).count, UInt32.toNat_ofNat']
    exact Nat.mod_eq_of_lt (by omega)
  · rw [(he.rep.level p).total, UInt32.toNat_ofNat']
    rfl

theorem run_consistent (msgs : List EngineMessage) :
    ∃ e, new.run msgs = some e ∧ Consistent e := by
  obtain ⟨e, hrun, q, free, he, -⟩ := Simulates.new.run msgs
  exact ⟨e, hrun, he.consistent⟩

/-! ## The aggregate of a level -/

/-- Quantity resting at one price. -/
def RefBook.depth (ref : RefBook) (p : Int) : Nat :=
  ((ref.level p).map (·.2.remaining.toNat)).sum

/-- The aggregate of level `p` is the sum of what remains of the orders queued there. -/
def DepthExact (e : MatchingEngine) (p : Int) : Prop :=
  ∃ l, Chain (fun y => (e.heap.order y).next) (e.book.levels p).head l ∧
    (e.book.levels p).totalQuantity.toNat =
      (l.map fun x => (e.heap.order x).remainingQuantity.toNat).sum

/-- The aggregate has 32 bits and wraps. -/
theorem Simulates.depthExact_iff {e : MatchingEngine} {ref : RefBook} (hsim : Simulates e ref)
    (p : Int) : DepthExact e p ↔ ref.depth p < 2 ^ 32 := by
  obtain ⟨l, hl, hlevel⟩ := hsim.shows.level p
  obtain ⟨q, free, he, -⟩ := hsim
  obtain ⟨l₀, hl₀, -, -, htotal⟩ := he.consistent.level p
  obtain rfl := hl.unique hl₀
  have hdepth : (l.map fun x => (e.heap.order x).remainingQuantity.toNat).sum = ref.depth p := by
    rw [RefBook.depth, ← hlevel, List.map_map]
    rfl
  constructor
  · rintro ⟨l₁, hl₁, hsum⟩
    obtain rfl := hl.unique hl₁
    rw [← hdepth, ← hsum]
    exact UInt32.toNat_lt _
  · intro hlt
    refine ⟨l, hl, ?_⟩
    rw [htotal, hdepth, Nat.mod_eq_of_lt hlt]

/-- In every reachable state, the aggregate of a level is exact iff the quantity resting there
fits its 32 bits. -/
theorem run_depthExact_iff (msgs : List EngineMessage) :
    ∃ e, new.run msgs = some e ∧
      ∀ p, DepthExact e p ↔ (RefBook.run .empty msgs).depth p < 2 ^ 32 := by
  obtain ⟨e, hrun, hsim⟩ := Simulates.new.run msgs
  exact ⟨e, hrun, hsim.depthExact_iff⟩

/-- Two bids of the largest quantity at one price. -/
def largeBids : List EngineMessage :=
  [.newOrder { id := 1, price := 100, quantity := 4294967295 },
    .newOrder { id := 2, price := 100, quantity := 4294967295 }]

theorem run_largeBids_wraps : ∃ e, new.run largeBids = some e ∧ ¬ DepthExact e 100 := by
  obtain ⟨e, hrun, hsim⟩ := Simulates.new.run largeBids
  refine ⟨e, hrun, ?_⟩
  rw [hsim.depthExact_iff]
  decide +kernel

/-! ## Pool slots -/

/-- The free list and the resting orders partition the slots of the pool. -/
structure PoolExact (e : MatchingEngine) : Prop where
  partition : ∃ free,
    Chain (fun x => (e.pool.storage x).link) e.pool.freeHead free ∧ free.Nodup ∧
    e.poolAvailable.toNat = free.length ∧
    (∀ p, ∀ x ∈ free, ¬ LinkedAt e.heap e.book p x) ∧
    ∀ x, (x ∈ free ∨ ∃ p, LinkedAt e.heap e.book p x) ↔ ∃ i < orderPoolSize, x = slotPtr i
  distinct : ∀ p, ∃ l, Chain (fun y => (e.heap.order y).next) (e.book.levels p).head l ∧ l.Nodup
  disjoint : ∀ p r x, LinkedAt e.heap e.book p x → LinkedAt e.heap e.book r x → p = r
  total : e.poolAvailable.toNat + e.book.bidCount.toNat + e.book.askCount.toNat = orderPoolSize
  allocate : ∀ x pool p, e.pool.allocate = (some x, pool) → ¬ LinkedAt e.heap e.book p x

theorem EngineInv.poolExact {e : MatchingEngine} {q : Int → List Ptr} {free : List Ptr}
    (he : EngineInv e q free) : PoolExact e := by
  have hlink : ∀ p x, LinkedAt e.heap e.book p x ↔ x ∈ q p := fun p x => he.rep.linkedAt_iff
  have hdisj : ∀ p, ∀ x ∈ free, ¬ LinkedAt e.heap e.book p x := fun p x hx hl =>
    he.disjoint p x ((hlink p x).1 hl) hx
  refine ⟨⟨free, he.pool.threaded.chain, he.pool.threaded.nodup, he.pool.available, hdisj, ?_⟩,
    fun p => ⟨q p, he.rep.chain p, he.rep.nodup p⟩, ?_, ?_, ?_⟩
  · intro x
    simp only [hlink]
    exact he.slots x
  · intro p r x hp hr
    exact (he.rep.price p x ((hlink p x).1 hp)).symm.trans (he.rep.price r x ((hlink r x).1 hr))
  · rw [poolAvailable, he.pool.available]
    exact he.toEngineRep.slot_count
  · intro x pool p ha
    have hmem : x ∈ free := by
      cases free with
      | nil => rw [he.pool.allocate_nil] at ha; cases ha
      | cons y free =>
        obtain ⟨pool', halloc, -⟩ := he.pool.allocate_cons
        rw [halloc] at ha
        cases ha
        simp
    exact hdisj p x hmem

/-- Between messages, and when the remainder of a message asks for a slot. -/
theorem run_poolExact (msgs : List EngineMessage) :
    ∃ e, new.run msgs = some e ∧ PoolExact e ∧ ∀ msg t, LoopState e msg t → PoolExact t.1 := by
  obtain ⟨e, hrun, hsim⟩ := Simulates.new.run msgs
  refine ⟨e, hrun, ?_, fun msg t ht => ?_⟩
  · obtain ⟨q, free, he, -⟩ := hsim
    exact he.poolExact
  · obtain ⟨q, free, he⟩ := ht.inv hsim
    exact he.poolExact

end LockfreeMatching
