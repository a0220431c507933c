import LockfreeMatching.Core.BookInvariant

/-!
# Runs of a bare order book

Sequences of `addOrder` and `cancelOrder` calls on one book, outside any engine. The caller
owns the memory: before an add it may write any order it likes into an address that is not
linked in the book. Rejected adds and cancels of unknown ids are ordinary calls. The book
does not enforce that it stays uncrossed, so a run requires it after every call.

Statements speak about the orders reached from the level heads through `next`; the ghost
queues of `BookRep` only occur in proofs.
-/
namespace LockfreeMatching

open Lib

/-- `x` is reached from the head of level `p`. -/
def LinkedAt (h : Heap) (b : OrderBook) (p : Int) (x : Ptr) : Prop :=
  ∃ l, Chain (fun y => (h.order y).next) (b.levels p).head l ∧ x ∈ l

/-- The prices of the resting orders of one side. -/
def restingPrices (h : Heap) (b : OrderBook) (s : Side) : Set Int :=
  {p | ∃ r x, LinkedAt h b r x ∧ (h.order x).side = s ∧ (h.order x).price = p}

/-- Every resting bid price is strictly below every resting ask price. -/
def NotCrossed (h : Heap) (b : OrderBook) : Prop :=
  ∀ p ∈ restingPrices h b .bid, ∀ r ∈ restingPrices h b .ask, p < r

theorem BookRep.chain {h : Heap} {b : OrderBook} {q : Int → List Ptr} (hr : BookRep h b q)
    (p : Int) : Chain (fun y => (h.order y).next) (b.levels p).head (q p) :=
  (hr.level p).links.chain

theorem BookRep.linkedAt_iff {h : Heap} {b : OrderBook} {q : Int → List Ptr}
    (hr : BookRep h b q) {p : Int} {x : Ptr} : LinkedAt h b p x ↔ x ∈ q p := by
  constructor
  · rintro ⟨l, hl, hx⟩
    rwa [← hl.unique (hr.chain p)]
  · exact fun hx => ⟨q p, hr.chain p, hx⟩

theorem BookRep.restingPrices_eq {h : Heap} {b : OrderBook} {q : Int → List Ptr}
    (hr : BookRep h b q) (s : Side) : restingPrices h b s = sidePrices h q s := by
  ext p
  simp only [restingPrices, sidePrices, Set.mem_ofPred_eq, hr.linkedAt_iff]
  constructor
  · rintro ⟨r, x, hx, hs, rfl⟩
    exact ⟨x, (hr.mem_iff.1 hx).1, hs⟩
  · rintro ⟨x, hx, hs⟩
    exact ⟨p, x, hx, hs, hr.price p x hx⟩

theorem BookRep.notCrossed_iff {h : Heap} {b : OrderBook} {q : Int → List Ptr}
    (hr : BookRep h b q) : NotCrossed h b ↔ Uncrossed h q := by
  simp only [NotCrossed, Uncrossed, hr.restingPrices_eq]

/-- States reached by call sequences that leave the book uncrossed after every call. -/
inductive BookRun : Heap → OrderBook → Prop where
  | new (h : Heap) : BookRun h {}
  | add {h : Heap} {b : OrderBook} (x : Ptr) (o : Order) :
      BookRun h b → (∀ p, ¬ LinkedAt h b p x) →
      NotCrossed (b.addOrder (h.set x o) x).1 (b.addOrder (h.set x o) x).2.1 →
      BookRun (b.addOrder (h.set x o) x).1 (b.addOrder (h.set x o) x).2.1
  | cancel {h : Heap} {b : OrderBook} (id : OrderId) :
      BookRun h b →
      NotCrossed (b.cancelOrder h id).1 (b.cancelOrder h id).2.1 →
      BookRun (b.cancelOrder h id).1 (b.cancelOrder h id).2.1

/-- Representation, exact best prices and the uncrossed book are kept together: the rescan
needs the book to be uncrossed before the cancel, which is what the previous call left. -/
theorem BookRun.invariant {h : Heap} {b : OrderBook} (hrun : BookRun h b) :
    ∃ q, BookRep h b q ∧ BestExact h b q ∧ Uncrossed h q := by
  induction hrun with
  | new h =>
    refine ⟨_, .new h, .new h, ?_⟩
    rintro p ⟨x, hx, -⟩
    cases hx
  | @add h b x o _ hfree hcross ih =>
    obtain ⟨q, hr, hb, hu⟩ := ih
    have hfree' : ∀ p, x ∉ q p := fun p hx => hfree p (hr.linkedAt_iff.2 hx)
    have hsame : ∀ p, ∀ y ∈ q p, (h.set x o) y = h y := by
      intro p y hy
      exact Function.update_of_ne (by rintro rfl; exact hfree' p hy) _ _
    have hr' := hr.congr hsame
    have hb' : BestExact (h.set x o) b q := hb.congr fun p y hy => by
      rw [Heap.order, hsame p y hy, Heap.order]
    by_cases hx : BookRep.Acceptable (h.set x o) b x
    · have hrep := hr'.addOrder hfree' ⟨o, Function.update_self ..⟩ hx
      exact ⟨_, hrep, hb'.addOrder hr' hx, hrep.notCrossed_iff.1 hcross⟩
    · rw [BookRep.addOrder_rejected hx] at hcross ⊢
      exact ⟨q, hr', hb', hr'.notCrossed_iff.1 hcross⟩
  | @cancel h b id _ hcross ih =>
    obtain ⟨q, hr, hb, hu⟩ := ih
    cases hm : b.orderMap id with
    | none =>
      have he : b.cancelOrder h id = (h, b, false) := by simp [OrderBook.cancelOrder, hm]
      rw [he]
      exact ⟨q, hr, hb, hu⟩
    | some x =>
      have hc : Cancelling h b q id x := ⟨hr, hb, hu, hm⟩
      exact ⟨_, hr.cancelOrder hm, hc.bestExact, hc.uncrossed_after⟩

theorem hasBids_iff (b : OrderBook) : b.hasBids = true ↔ b.count .bid ≠ 0 := by
  simp only [OrderBook.hasBids, OrderBook.count, decide_eq_true_eq]
  grind

theorem hasAsks_iff (b : OrderBook) : b.hasAsks = true ↔ b.count .ask ≠ 0 := by
  simp only [OrderBook.hasAsks, OrderBook.count, decide_eq_true_eq]
  grind

/-- What the cached best prices and counters say about the resting orders. -/
structure BestPrices (h : Heap) (b : OrderBook) : Prop where
  hasBids : b.hasBids = true ↔ (restingPrices h b .bid).Nonempty
  hasAsks : b.hasAsks = true ↔ (restingPrices h b .ask).Nonempty
  bestBid : if b.hasBids then IsGreatest (restingPrices h b .bid) b.bestBid else b.bestBid = 0
  bestAsk : if b.hasAsks then IsLeast (restingPrices h b .ask) b.bestAsk
    else b.bestAsk = maxPriceTicks - 1

theorem BookRep.bestPrices {h : Heap} {b : OrderBook} {q : Int → List Ptr}
    (hr : BookRep h b q) (hb : BestExact h b q) : BestPrices h b := by
  have hbid : b.hasBids = true ↔ (restingPrices h b .bid).Nonempty := by
    rw [hasBids_iff, ← not_iff_not, not_not, ← hr.sidePrices_eq_empty, hr.restingPrices_eq,
      Set.not_nonempty_iff_eq_empty]
  have hask : b.hasAsks = true ↔ (restingPrices h b .ask).Nonempty := by
    rw [hasAsks_iff, ← not_iff_not, not_not, ← hr.sidePrices_eq_empty, hr.restingPrices_eq,
      Set.not_nonempty_iff_eq_empty]
  refine ⟨hbid, hask, ?_, ?_⟩
  · rw [hr.restingPrices_eq] at hbid ⊢
    rcases hb.bid with ⟨he, hz⟩ | hg
    · rw [if_neg (by rw [hbid, he]; exact Set.not_nonempty_empty)]
      exact hz
    · rw [if_pos (hbid.2 hg.nonempty)]
      exact hg
  · rw [hr.restingPrices_eq] at hask ⊢
    rcases hb.ask with ⟨he, hz⟩ | hg
    · rw [if_neg (by rw [hask, he]; exact Set.not_nonempty_empty)]
      exact hz
    · rw [if_pos (hask.2 hg.nonempty)]
      exact hg

/-- In the state between unlinking `x` and storing a new best price, the rescan that
`cancelOrder` runs stops at a non-empty level holding only orders of the cancelled side. -/
structure RescanFinds (h : Heap) (b : OrderBook) (id : OrderId) (x : Ptr) : Prop where
  bid : (h.order x).side = .bid → (h.order x).price = b.bestBid →
    ((b.unlinkOrder h id x).2.levels (h.order x).price).empty = true →
    (b.unlinkOrder h id x).2.bidCount ≠ 0 →
    ∃ r, (b.unlinkOrder h id x).2.scanBids (h.order x).price = some r ∧
      (∃ y, LinkedAt (b.unlinkOrder h id x).1 (b.unlinkOrder h id x).2 r y) ∧
      ∀ y, LinkedAt (b.unlinkOrder h id x).1 (b.unlinkOrder h id x).2 r y →
        (h.order y).side = .bid
  ask : (h.order x).side = .ask → (h.order x).price = b.bestAsk →
    ((b.unlinkOrder h id x).2.levels (h.order x).price).empty = true →
    (b.unlinkOrder h id x).2.askCount ≠ 0 →
    ∃ r, (b.unlinkOrder h id x).2.scanAsks (h.order x).price = some r ∧
      (∃ y, LinkedAt (b.unlinkOrder h id x).1 (b.unlinkOrder h id x).2 r y) ∧
      ∀ y, LinkedAt (b.unlinkOrder h id x).1 (b.unlinkOrder h id x).2 r y →
        (h.order y).side = .ask

theorem Cancelling.rescanFinds {h : Heap} {b : OrderBook} {q : Int → List Ptr} {id : OrderId}
    {x : Ptr} (hc : Cancelling h b q id x) : RescanFinds h b id x := by
  have hrep := hc.rep.unlinkOrder hc.lookup
  -- the level found holds an order of the right side, and an uncrossed level is not mixed
  have hlevel : ∀ s r, r ∈ sidePrices h (eraseQueue q (h.order x).price x) s →
      (∃ y, LinkedAt (b.unlinkOrder h id x).1 (b.unlinkOrder h id x).2 r y) ∧
      ∀ y, LinkedAt (b.unlinkOrder h id x).1 (b.unlinkOrder h id x).2 r y →
        (h.order y).side = s := by
    rintro s r ⟨z, hz, hs⟩
    refine ⟨⟨z, hrep.linkedAt_iff.2 hz⟩, fun y hy => ?_⟩
    have hy' := hrep.linkedAt_iff.1 hy
    exact ((hc.uncrossed.eraseQueue hc.rep x).same_side hy' hz).trans hs
  constructor
  · intro hs hp he hcount
    obtain ⟨r, hscan, hg⟩ := hc.scanBids hs hp ((hrep.empty_iff _).1 he) hcount
    exact ⟨r, hscan, hlevel .bid r hg.1⟩
  · intro hs hp he hcount
    obtain ⟨r, hscan, hg⟩ := hc.scanAsks hs hp ((hrep.empty_iff _).1 he) hcount
    exact ⟨r, hscan, hlevel .ask r hg.1⟩

/-- After every call of a run the cached best prices and the side flags are exact, and the
rescan of whatever cancel comes next finds a level of its own side. -/
theorem bookRun_bestPrices {h : Heap} {b : OrderBook} (hrun : BookRun h b) :
    BestPrices h b ∧ ∀ id x, b.orderMap id = some x → RescanFinds h b id x := by
  obtain ⟨q, hr, hb, hu⟩ := hrun.invariant
  refine ⟨hr.bestPrices hb, fun id x hm => ?_⟩
  have hc : Cancelling h b q id x := ⟨hr, hb, hu, hm⟩
  exact hc.rescanFinds

/-! ## A lazy repair -/

/-- Memory that no id maps to is not linked. -/
theorem BookRun.not_linked {h : Heap} {b : OrderBook} (hrun : BookRun h b) {x : Ptr}
    (hfree : ∀ id, b.orderMap id ≠ some x) : ∀ p, ¬ LinkedAt h b p x := by
  obtain ⟨q, hr, -, -⟩ := hrun.invariant
  intro p hx
  have hmem := (hr.mem_iff.1 (hr.linkedAt_iff.1 hx)).1
  exact hfree _ ((hr.map _ x).2 ⟨hmem, rfl⟩)

theorem orderMap_addOrder {h : Heap} {b : OrderBook} {x y : Ptr} {id : OrderId}
    (hid : (b.addOrder h x).2.1.orderMap id = some y) : y = x ∨ b.orderMap id = some y := by
  by_cases hx : BookRep.Acceptable h b x
  · rw [BookRep.addOrder_eq hx, OrderBook.noteAdded_orderMap] at hid
    dsimp only at hid
    by_cases he : id = (h.order x).id
    · subst he
      rw [Function.update_self] at hid
      exact .inl (Option.some.inj hid).symm
    · rw [Function.update_of_ne he] at hid
      exact .inr hid
  · rw [BookRep.addOrder_rejected hx] at hid
    exact .inr hid

/-- A cancel never crosses a book. -/
theorem BookRun.cancel_run {h : Heap} {b : OrderBook} (hrun : BookRun h b) (id : OrderId) :
    BookRun (b.cancelOrder h id).1 (b.cancelOrder h id).2.1 := by
  refine hrun.cancel id ?_
  obtain ⟨q, hr, hb, hu⟩ := hrun.invariant
  cases hm : b.orderMap id with
  | none =>
    have he : b.cancelOrder h id = (h, b, false) := by simp [OrderBook.cancelOrder, hm]
    rw [he]
    exact hr.notCrossed_iff.2 hu
  | some x =>
    have hc : Cancelling h b q id x := ⟨hr, hb, hu, hm⟩
    exact (hr.cancelOrder hm).notCrossed_iff.2 hc.uncrossed_after

/-- The price is not on or beyond the best price of the other side. -/
def PassivePrice (b : OrderBook) (o : Order) : Prop :=
  match o.side with
  | .bid => b.hasAsks = true → o.price < b.bestAsk
  | .ask => b.hasBids = true → b.bestBid < o.price

theorem PassivePrice.bid {h : Heap} {b : OrderBook} {o : Order} (hpassive : PassivePrice b o)
    (hbest : BestPrices h b) (hs : o.side = .bid) {r : Int} (hr : r ∈ restingPrices h b .ask) :
    o.price < r := by
  rw [PassivePrice, hs] at hpassive
  have hasks := hbest.hasAsks.2 ⟨r, hr⟩
  have hleast := hbest.bestAsk
  rw [if_pos hasks] at hleast
  exact (hpassive hasks).trans_le (hleast.2 hr)

theorem PassivePrice.ask {h : Heap} {b : OrderBook} {o : Order} (hpassive : PassivePrice b o)
    (hbest : BestPrices h b) (hs : o.side = .ask) {p : Int} (hp : p ∈ restingPrices h b .bid) :
    p < o.price := by
  rw [PassivePrice, hs] at hpassive
  have hbids := hbest.hasBids.2 ⟨p, hp⟩
  have hgreatest := hbest.bestBid
  rw [if_pos hbids] at hgreatest
  exact (hgreatest.2 hp).trans_lt (hpassive hbids)

/-- An add at a passive price does not cross a book either. -/
theorem BookRun.add_run {h : Heap} {b : OrderBook} (hrun : BookRun h b) {x : Ptr} {o : Order}
    (hfree : ∀ id, b.orderMap id ≠ some x) (hpassive : PassivePrice b o) :
    BookRun (b.addOrder (h.set x o) x).1 (b.addOrder (h.set x o) x).2.1 := by
  have hlinked := hrun.not_linked hfree
  refine hrun.add x o hlinked ?_
  obtain ⟨q, hr, hb, hu⟩ := hrun.invariant
  have hfree' : ∀ p, x ∉ q p := fun p hx => hlinked p (hr.linkedAt_iff.2 hx)
  have hsame : ∀ p, ∀ y ∈ q p, (h.set x o) y = h y := by
    intro p y hy
    exact Function.update_of_ne (by rintro rfl; exact hfree' p hy) _ _
  have hr' := hr.congr hsame
  have hbest := hr.bestPrices hb
  have hsides : ∀ s, sidePrices (h.set x o) q s = sidePrices h q s := by
    intro s
    ext p
    refine exists_congr fun y => and_congr_right fun hy => ?_
    rw [Heap.order, hsame p y hy, Heap.order]
  by_cases hx : BookRep.Acceptable (h.set x o) b x
  · have hrep := hr'.addOrder hfree' ⟨o, Function.update_self ..⟩ hx
    have hx' : (h.set x o).order x = o := by simp [Heap.order, Heap.set, Cell.value]
    have hnew : ∀ s, sidePrices (b.addOrder (h.set x o) x).1
        (appendQueue q ((h.set x o).order x).price x) s =
          if o.side = s then insert o.price (sidePrices h q s) else sidePrices h q s := by
      intro s
      rw [sidePrices_relinked (hr'.addOrder_relinked hx), sidePrices_appendQueue, hsides, hx']
    refine hrep.notCrossed_iff.2 fun p hp r hask => ?_
    rw [hnew] at hp hask
    simp only [← hr.restingPrices_eq] at hp hask
    have hold := hr.notCrossed_iff.2 hu
    cases hs : o.side with
    | bid =>
      rw [hs, if_pos rfl] at hp
      rw [hs, if_neg (by simp)] at hask
      rcases hp with rfl | hp
      · exact hpassive.bid hbest hs hask
      · exact hold p hp r hask
    | ask =>
      rw [hs, if_neg (by simp)] at hp
      rw [hs, if_pos rfl] at hask
      rcases hask with rfl | hask
      · exact hpassive.ask hbest hs hp
      · exact hold p hp r hask
  · rw [BookRep.addOrder_rejected hx]
    refine hr'.notCrossed_iff.2 fun p hp r hask => ?_
    rw [hsides] at hp hask
    exact hu p hp r hask

/-- The next order of a book is written into slot `i` and added. -/
def addInSlot (r : Heap × OrderBook × Bool) (i : Nat) (o : Order) : Heap × OrderBook × Bool :=
  r.2.1.addOrder (r.1.set (slotPtr i) o) (slotPtr i)

/-- Bids at 100 and 97 and an ask at 103. -/
def twoBidLevels : Heap × OrderBook × Bool :=
  let r := addInSlot (fun _ => .raw, {}, true) 0 { id := 1, price := 97, quantity := 10 }
  let r := addInSlot r 1 { id := 2, side := .ask, price := 103, quantity := 5 }
  addInSlot r 2 { id := 3, price := 100, quantity := 20 }

/-- The best bid is cancelled. -/
def repairedBid : Heap × OrderBook × Bool := twoBidLevels.2.1.cancelOrder twoBidLevels.1 3

theorem twoBidLevels_run : BookRun twoBidLevels.1 twoBidLevels.2.1 := by
  have h₁ := (BookRun.new fun _ => .raw).add_run (x := slotPtr 0)
    (o := { id := 1, price := 97, quantity := 10 }) (by simp) (fun h => by cases h)
  have h₂ := h₁.add_run (x := slotPtr 1)
    (o := { id := 2, side := .ask, price := 103, quantity := 5 })
    (fun id hid => by rcases orderMap_addOrder hid with he | he <;> cases he) (fun _ => by decide)
  refine h₂.add_run (x := slotPtr 2) (o := { id := 3, price := 100, quantity := 20 })
    (fun id hid => ?_) (fun _ => by decide)
  rcases orderMap_addOrder hid with he | hid
  · cases he
  · rcases orderMap_addOrder hid with he | he <;> cases he

/-- The best bid is the higher of the two levels, its cancel rescans, and the rescan finds the
level below although the ask is not far. -/
theorem bookRun_bestPrices_repairedBid :
    (BestPrices twoBidLevels.1 twoBidLevels.2.1 ∧ twoBidLevels.2.1.bestBid = 100 ∧
      twoBidLevels.2.1.bestAsk = 103) ∧
    (∃ r, (twoBidLevels.2.1.unlinkOrder twoBidLevels.1 3 (slotPtr 2)).2.scanBids 100 = some r) ∧
    BestPrices repairedBid.1 repairedBid.2.1 ∧ repairedBid.2.1.bestBid = 97 ∧
      repairedBid.2.1.bestAsk = 103 := by
  have hbefore := bookRun_bestPrices twoBidLevels_run
  have hafter := bookRun_bestPrices (twoBidLevels_run.cancel_run 3)
  obtain ⟨r, hscan, -, -⟩ := (hbefore.2 3 (slotPtr 2) rfl).bid rfl rfl rfl (by decide)
  exact ⟨⟨hbefore.1, by decide, by decide⟩, ⟨r, hscan⟩, hafter.1, by decide, by decide⟩

end LockfreeMatching
