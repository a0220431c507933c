import LockfreeMatching.Core.EngineInvariant
import LockfreeMatching.Core.Reference

/-!
# Viewing engine memory as a reference book

`Views h q ref` relates the queues linked in memory to the reference book: the orders of
side `s` linked at price `p` are the orders of `ref s` at that price, in the same order.
Every change of memory the engine makes is either an edit of resting orders in place or an
append behind one price, and each has its counterpart on the reference.

## Main results

* `Views.edit`, `Views.append`: the two kinds of change.
* `Views.sorted_head`: the oldest order at the best price is the first the reference walks.
* `processNewOrder_eq`: one matching loop for both sides.
-/
namespace LockfreeMatching

open Lib EngineInv

/-- What the reference book remembers of an order. -/
def restingOf (o : Order) : Resting where
  id := o.id
  price := o.price
  remaining := o.remainingQuantity

theorem restingOf_payload {o o' : Order} (h : o.payload = o'.payload) :
    restingOf o = restingOf o' := (congrArg restingOf h :)

/-- The orders of one side in one queue, oldest first. -/
def sideQueue (h : Heap) (q : Int → List Ptr) (s : Side) (p : Int) : List Resting :=
  ((q p).filter fun x => (h.order x).side = s).map fun x => restingOf (h.order x)

structure Views (h : Heap) (q : Int → List Ptr) (ref : RefBook) : Prop where
  queue : ∀ s p, sideQueue h q s p = (ref s).filter (·.price = p)
  ids : ∀ s, ((ref s).map (·.id)).Nodup

namespace Views

variable {h h' : Heap} {b : OrderBook} {q q' : Int → List Ptr} {ref : RefBook}

theorem mem_iff (hv : Views h q ref) {s : Side} {r : Resting} :
    r ∈ ref s ↔ ∃ x ∈ q r.price, (h.order x).side = s ∧ restingOf (h.order x) = r := by
  have hmem : r ∈ ref s ↔ r ∈ sideQueue h q s r.price := by simp [hv.queue]
  rw [hmem]
  simp [sideQueue, and_assoc]

theorem mem (hv : Views h q ref) (hr : BookRep h b q) {p : Int} {x : Ptr} (hx : x ∈ q p) :
    restingOf (h.order x) ∈ ref (h.order x).side :=
  hv.mem_iff.2 ⟨x, (hr.mem_iff.1 hx).1, rfl, rfl⟩

theorem holds_iff (hv : Views h q ref) (hr : BookRep h b q) (id : OrderId) :
    ref.holds id ↔ b.orderMap id ≠ none := by
  constructor
  · rintro ⟨s, r, hmem, rfl⟩ hnone
    obtain ⟨x, hx, -, rfl⟩ := hv.mem_iff.1 hmem
    have hmap := (hr.map (h.order x).id x).2 ⟨hx, rfl⟩
    exact absurd (hmap.symm.trans hnone) (by simp)
  · intro hsome
    obtain ⟨x, hmap⟩ := Option.ne_none_iff_exists'.1 hsome
    obtain ⟨hx, rfl⟩ := (hr.map id x).1 hmap
    exact ⟨_, _, hv.mem hr hx, rfl⟩

/-- The entry that carries an id is the order the book finds under it. -/
theorem entry_eq (hv : Views h q ref) (hr : BookRep h b q) {s : Side} {r : Resting} {x : Ptr}
    (hmem : r ∈ ref s) (hmap : b.orderMap r.id = some x) :
    (h.order x).side = s ∧ restingOf (h.order x) = r := by
  obtain ⟨y, hy, hs, rfl⟩ := hv.mem_iff.1 hmem
  have hmy := (hr.map (h.order y).id y).2 ⟨hy, rfl⟩
  obtain rfl := Option.some.inj (hmy.symm.trans hmap)
  exact ⟨hs, rfl⟩

/-- Orders of a side and entries of the reference book correspond one to one. -/
theorem length_eq (hv : Views h q ref) (hr : BookRep h b q) (s : Side) :
    (ref s).length = (b.count s).toNat := by
  have hids : (fun x => (h.order x).id) '' resting h q s =
      (((ref s).map (·.id)).toFinset : Set OrderId) := by
    ext id
    simp only [Set.mem_image, List.coe_toFinset, Set.mem_ofPred_eq, List.mem_map]
    constructor
    · rintro ⟨x, ⟨hx, rfl⟩, rfl⟩
      exact ⟨_, hv.mem hr hx, rfl⟩
    · rintro ⟨r, hmem, rfl⟩
      obtain ⟨x, hx, hs, rfl⟩ := hv.mem_iff.1 hmem
      exact ⟨x, ⟨hx, hs⟩, rfl⟩
  have hinj : Set.InjOn (fun x => (h.order x).id) (resting h q s) := by
    rintro x ⟨hx, -⟩ y ⟨hy, -⟩ he
    have hmx := (hr.map (h.order x).id x).2 ⟨hx, rfl⟩
    exact Option.some.inj (hmx.symm.trans ((hr.map _ y).2 ⟨hy, he.symm⟩))
  rw [hr.count, ← hinj.ncard_image, hids, Set.ncard_coe_finset,
    List.toFinset_card_of_nodup (hv.ids s), List.length_map]

/-! ## Editing and appending -/

/-- One queue, read before and after an edit of memory. -/
theorem queue_edit {f : Ptr → Option Order} {g : Resting → Option Resting} {s : Side}
    (l : List Ptr) (hpay : ∀ y ∈ l, ∀ o, f y = some o → (h'.order y).payload = o.payload)
    (hfg : ∀ y ∈ l, (f y).map restingOf = g (restingOf (h.order y)))
    (hside : ∀ y ∈ l, ∀ o, f y = some o → o.side = (h.order y).side) :
    (((l.filter fun y => (f y).isSome).filter fun y => (h'.order y).side = s).map
        fun y => restingOf (h'.order y)) =
      ((l.filter fun y => (h.order y).side = s).map
        fun y => restingOf (h.order y)).filterMap g := by
  induction l with
  | nil => rfl
  | cons y l ih =>
    have ih := ih (fun z hz => hpay z (by simp [hz])) (fun z hz => hfg z (by simp [hz]))
      fun z hz => hside z (by simp [hz])
    have hfg := hfg y (by simp)
    cases hf : f y with
    | none =>
      rw [hf] at hfg
      by_cases hs : (h.order y).side = s
      · simp only [hf, hs, ih, ← hfg, List.filter_cons, List.map_cons, List.filterMap_cons,
          Option.isSome_none, Bool.false_eq_true, if_false, decide_true, if_true, Option.map_none]
      · simp only [hf, hs, ih, List.filter_cons, Option.isSome_none, Bool.false_eq_true, if_false,
          decide_false]
    | some o =>
      rw [hf] at hfg
      have hpay := hpay y (by simp) o hf
      have hso : (h'.order y).side = o.side := (congrArg Order.side hpay :)
      have hso := hso.trans (hside y (by simp) o hf)
      have hro := restingOf_payload hpay
      by_cases hs : (h.order y).side = s
      · simp only [hf, hso, hs, ih, ← hfg, hro, List.filter_cons, List.map_cons,
          List.filterMap_cons, Option.isSome_some, decide_true, if_true, Option.map_some]
      · simp only [hf, hso, hs, ih, List.filter_cons, Option.isSome_some, if_true,
          decide_false, Bool.false_eq_true, if_false]

theorem ids_filterMap {g : Resting → Option Resting}
    (hg : ∀ r r', g r = some r' → r'.id = r.id ∧ r'.price = r.price) (l : List Resting) :
    ((l.filterMap g).map (·.id)).Sublist (l.map (·.id)) := by
  induction l with
  | nil => exact List.Sublist.refl _
  | cons r l ih =>
    cases hr : g r with
    | none =>
      rw [List.filterMap_cons_none hr]
      exact ih.cons _
    | some r' =>
      rw [List.filterMap_cons_some hr, List.map_cons, List.map_cons, (hg r r' hr).1]
      exact ih.cons_cons _

/-- An edit of memory that acts on resting orders as `g` does. -/
theorem edit (hv : Views h q ref) {f : Ptr → Option Order} (hed : Edited h q h' q' f)
    {g : Resting → Option Resting}
    (hfg : ∀ p, ∀ y ∈ q p, (f y).map restingOf = g (restingOf (h.order y)))
    (hside : ∀ p, ∀ y ∈ q p, ∀ o, f y = some o → o.side = (h.order y).side)
    (hg : ∀ r r', g r = some r' → r'.id = r.id ∧ r'.price = r.price) :
    Views h' q' fun s => (ref s).filterMap g := by
  refine ⟨fun s p => ?_, fun s => (hv.ids s).sublist (ids_filterMap hg _)⟩
  rw [sideQueue, hed.queue p, queue_edit (q p) (hed.payload p) (hfg p) (hside p), ← sideQueue,
    hv.queue s p, List.filterMap_filter, List.filter_filterMap]
  refine List.filterMap_congr fun r _ => ?_
  cases hr : g r with
  | none => simp
  | some r' =>
    have hprice := (hg r r' hr).2
    by_cases hp : r.price = p
    · simp [Option.filter, hprice, hp]
    · simp [Option.filter, hprice, hp]

/-- Appending an order behind its price level. -/
theorem append (hv : Views h q ref) {x : Ptr} {p : Int} {r : Resting}
    (hkeep : ∀ t, ∀ y ∈ q t, (h'.order y).payload = (h.order y).payload)
    (hx : restingOf (h'.order x) = r) (hp : r.price = p) (hid : ¬ ref.holds r.id) :
    Views h' (appendQueue q p x)
      (Function.update ref (h'.order x).side (ref (h'.order x).side ++ [r])) := by
  have hold : ∀ s t, sideQueue h' q s t = sideQueue h q s t := by
    intro s t
    have hed : Edited h q h' q fun y => some (h.order y) :=
      ⟨fun t => by simp, fun t y hy o ho => by rw [← Option.some.inj ho]; exact hkeep t y hy⟩
    have := queue_edit (s := s) (g := some) (q t) (hed.payload t) (fun y _ => rfl)
      fun y _ o ho => by rw [Option.some.inj ho]
    simpa [sideQueue] using this
  refine ⟨fun s t => ?_, fun s => RefBook.ids_append hv.ids hid⟩
  · by_cases ht : t = p
    · subst ht
      have hq : sideQueue h' (appendQueue q t x) s t = sideQueue h q s t ++
          if (h'.order x).side = s then [r] else [] := by
        rw [← hold s t]
        by_cases hs : (h'.order x).side = s <;> simp [sideQueue, appendQueue, hs, hx]
      rw [hq, hv.queue]
      by_cases hs : (h'.order x).side = s
      · subst hs; simp [hp]
      · simp [hs, Function.update_of_ne (Ne.symm hs)]
    · have hq : sideQueue h' (appendQueue q p x) s t = sideQueue h q s t := by
        rw [← hold s t]
        simp [sideQueue, appendQueue, ht]
      rw [hq, hv.queue]
      by_cases hs : (h'.order x).side = s
      · subst hs
        have : r.price ≠ t := by rw [hp]; exact Ne.symm ht
        simp [this]
      · simp [Function.update_of_ne (Ne.symm hs)]

/-! ## Orders the engine trades with -/

/-- The oldest order at the best price heads the sorted side. -/
theorem sorted_head (hv : Views h q ref) (hr : BookRep h b q) {s : Side} {p : Int} {x : Ptr}
    {l : List Ptr} (hq : q p = x :: l) (hs : (h.order x).side = s)
    (hbest : ∀ t ∈ sidePrices h q s, before s p t) :
    ∃ rs, (ref s).insertionSort (priority s) = restingOf (h.order x) :: rs := by
  have hxp : (h.order x).price = p := hr.price p x (by simp [hq])
  have hmem : restingOf (h.order x) ∈ ref s := hs ▸ hv.mem hr (p := p) (by simp [hq])
  cases hsort : (ref s).insertionSort (priority s) with
  | nil =>
    rw [← List.mem_insertionSort (priority s), hsort] at hmem
    cases hmem
  | cons r rs =>
    obtain ⟨hrmem, hrbest⟩ := insertionSort_head hsort
    have hprice : r.price = p := by
      obtain ⟨y, hy, hys, -⟩ := hv.mem_iff.1 hrmem
      exact before_antisymm (hxp ▸ hrbest _ hmem) (hbest r.price ⟨y, hy, hys⟩)
    -- sorting is stable, so it does not reorder the queue at price `p`
    have hstable := filter_insertionSort_of_equiv (r := priority s) (fun a => a.price = p) (ref s)
      (by
        intro a _ c _ ha hc
        rw [decide_eq_true_eq] at ha hc
        simp only [priority, ha, hc]
        exact before_refl s p)
    rw [hsort, ← hv.queue s p, sideQueue, hq, List.filter_cons_of_pos (by simpa using hprice),
      List.filter_cons_of_pos (by simpa using hs), List.map_cons] at hstable
    exact ⟨rs, by rw [(List.cons.inj hstable).1]⟩

/-- Executing against the order at `x` executes its entry of the reference book. -/
theorem execute (hv : Views h q ref) (hr : BookRep h b q) {p : Int} {x : Ptr} {qty : Quantity}
    (hx : x ∈ q p) (hopen : (h.order x).filledQuantity < (h.order x).quantity)
    (hqty : qty ≤ (h.order x).remainingQuantity) (hed : Edited h q h' q' (fillEdit h x qty)) :
    Views h' q' fun s => LockfreeMatching.execute (ref s) (h.order x).id qty := by
  have hfull := executed_isFilled hopen hqty
  refine hv.edit hed ?_ ?_ ?_
  · intro t y hy
    by_cases hyx : y = x
    · subst hyx
      have hsub : (executed (h.order y) qty).remainingQuantity =
          (h.order y).remainingQuantity - qty := by
        simp only [executed, Order.remainingQuantity]
        grind
      by_cases hf : (h.order y).remainingQuantity ≤ qty
      · simp [fillEdit, hfull.2 hf, restingOf, hf]
      · have hf' : (executed (h.order y) qty).isFilled = false := by
          rw [← Bool.not_eq_true, hfull]
          exact hf
        simp only [fillEdit, if_true, hf', Bool.false_eq_true, if_false, restingOf, hf,
          Option.map_some, hsub]
        rfl
    · have hid : (h.order y).id ≠ (h.order x).id := by
        intro he
        have hmy := (hr.map (h.order x).id y).2 ⟨(hr.mem_iff.1 hy).1, he⟩
        have hmx := (hr.map (h.order x).id x).2 ⟨(hr.mem_iff.1 hx).1, rfl⟩
        exact hyx (Option.some.inj (hmy.symm.trans hmx))
      simp [fillEdit, hyx, restingOf, hid]
  · intro t y hy o ho
    unfold fillEdit at ho
    split_ifs at ho with hyx
    · subst hyx
      obtain rfl := Option.some.inj ho
      rfl
    · rw [Option.some.inj ho]
  · intro r r' hrr
    split_ifs at hrr <;> cases hrr <;> exact ⟨rfl, rfl⟩

end Views

/-! ## The two sides of the book -/

namespace OrderBook

def has (s : Side) (b : OrderBook) : Bool := match s with
  | .bid => b.hasBids
  | .ask => b.hasAsks

def best (s : Side) (b : OrderBook) : Int := match s with
  | .bid => b.bestBid
  | .ask => b.bestAsk

theorem has_iff (b : OrderBook) (s : Side) : has s b = true ↔ b.count s ≠ 0 := by
  cases s
  exacts [hasBids_iff b, hasAsks_iff b]

end OrderBook

theorem EngineRep.has_iff {e : MatchingEngine} {q : Int → List Ptr} {free : List Ptr}
    (he : EngineRep e q free) (s : Side) :
    OrderBook.has s e.book = true ↔ (sidePrices e.heap q s).Nonempty := by
  rw [OrderBook.has_iff, Set.nonempty_iff_ne_empty, ne_eq, ne_eq, he.rep.sidePrices_eq_empty]

/-- The cached best price of a side precedes all its prices. -/
theorem EngineRep.best_first {e : MatchingEngine} {q : Int → List Ptr} {free : List Ptr}
    (he : EngineRep e q free) {s : Side} (hs : OrderBook.has s e.book = true) :
    OrderBook.best s e.book ∈ sidePrices e.heap q s ∧
      ∀ t ∈ sidePrices e.heap q s, before s (OrderBook.best s e.book) t := by
  obtain ⟨p, hp⟩ := (he.has_iff s).1 hs
  cases s with
  | bid =>
    have hg := he.best.isGreatest hp
    exact ⟨hg.1, fun t ht => hg.2 ht⟩
  | ask =>
    have hg := he.best.isLeast hp
    exact ⟨hg.1, fun t ht => hg.2 ht⟩

theorem beyondLimit_bid {msg : NewOrderMessage} (hs : msg.side = .bid) :
    beyondLimit msg = MatchingEngine.aboveLimit msg := by
  funext p
  simp [beyondLimit, before, Side.opposite, hs, MatchingEngine.aboveLimit, MatchingEngine.isLimit]

theorem beyondLimit_ask {msg : NewOrderMessage} (hs : msg.side = .ask) :
    beyondLimit msg = MatchingEngine.belowLimit msg := by
  funext p
  simp [beyondLimit, before, Side.opposite, hs, MatchingEngine.belowLimit, MatchingEngine.isLimit]

/-- The loop an incoming order runs, with the side it trades against as a parameter. -/
theorem processNewOrder_eq (e : MatchingEngine) (msg : NewOrderMessage) :
    e.processNewOrder msg =
      if RefBook.ignored msg then some { e with fills := [] }
      else
        (MatchingEngine.matchLoop (OrderBook.has msg.side.opposite)
          (OrderBook.best msg.side.opposite) (beyondLimit msg) msg
          ({ e with fills := [] }, msg.quantity)).map fun s =>
            if 0 < s.2 ∧ msg.type = .limit then s.1.restRemainder msg s.2 else s.1 := by
  have hrange : (MatchingEngine.isLimit msg &&
      (decide (msg.price < 0) || decide (maxPriceTicks ≤ msg.price))) = true ↔
      (msg.type = .limit ∧ ¬ (0 ≤ msg.price ∧ msg.price < maxPriceTicks)) := by
    simp only [MatchingEngine.isLimit, Bool.and_eq_true, Bool.or_eq_true, decide_eq_true_eq]
    refine and_congr_right fun _ => ?_
    omega
  simp only [MatchingEngine.processNewOrder, hrange]
  by_cases hign : RefBook.ignored msg
  · rw [if_pos hign]
    rcases hign with hzero | hout
    · rw [if_pos hzero]
    · rw [if_pos hout, ite_self]
  · rw [if_neg hign, if_neg fun hzero => hign (.inl hzero), if_neg fun hout => hign (.inr hout)]
    simp only [MatchingEngine.isLimit, Bool.and_eq_true, decide_eq_true_eq]
    cases hs : msg.side with
    | bid => rw [beyondLimit_bid hs]; rfl
    | ask => rw [beyondLimit_ask hs]; rfl

end LockfreeMatching
