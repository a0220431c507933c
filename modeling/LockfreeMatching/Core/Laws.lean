import LockfreeMatching.Core.EngineRun

/-!
# Algebraic laws of the engine

The book is redundant: its arrays, links, counters and cached prices are all determined by
the queues and by what the queued orders carry. Two engines that reach the same queues along
different paths therefore hold the same book, however the intermediate best prices differed.

## Main results

* `EngineRep.book_eq`, `EngineRep.cell_eq`: queues and payloads determine the memory.
* `EngineInv.place_cancel`: placing and cancelling a passive order changes nothing.
* `EngineInv.cancels`: what a list of cancels leaves, whatever its order.
-/
namespace LockfreeMatching

open Lib MatchingEngine

/-! ## Queues determine memory -/

section Determined

variable {h h' : Heap} {b b' : OrderBook} {q : Int → List Ptr}

/-- Two memories whose queued orders carry the same data, links aside. -/
def SamePayload (h h' : Heap) (q : Int → List Ptr) : Prop :=
  ∀ p, ∀ x ∈ q p, (h'.order x).payload = (h.order x).payload

theorem SamePayload.field {A : Type} (hp : SamePayload h h' q) (f : Order → A)
    (hf : ∀ o : Order, f o.payload = f o) {p : Int} {x : Ptr} (hx : x ∈ q p) :
    f (h'.order x) = f (h.order x) := by
  rw [← hf (h'.order x), hp p x hx, hf]

theorem LevelRep.level_eq {lv lv' : PriceLevel} {l : List Ptr} (hr : LevelRep h lv l)
    (hr' : LevelRep h' lv' l)
    (hrem : ∀ x ∈ l, (h'.order x).remainingQuantity = (h.order x).remainingQuantity) :
    lv' = lv := by
  have hhead : lv'.head = lv.head := hr'.links.head.trans hr.links.head.symm
  have htail : lv'.tail = lv.tail := hr'.links.tail.trans hr.links.tail.symm
  have htotal : lv'.totalQuantity = lv.totalQuantity := by
    rw [hr'.total, hr.total, sumRemaining_congr h h' l hrem]
  have hcount : lv'.orderCount = lv.orderCount := hr'.count.trans hr.count.symm
  cases lv
  cases lv'
  simp_all

/-- A linked order's cell is determined by its queue and its payload. -/
theorem BookRep.cell_eq (hr : BookRep h b q) (hr' : BookRep h' b' q) (hp : SamePayload h h' q)
    {p : Int} {x : Ptr} (hx : x ∈ q p) : h' x = h x := by
  obtain ⟨o, ho⟩ := hr.live p x hx
  obtain ⟨o', ho'⟩ := hr'.live p x hx
  have hlinks := (hr.level p).links.seg.links_eq (hr'.level p).links.seg hx
  have hpay := hp p x hx
  simp only [deque, Heap.order, ho, ho', Cell.value] at hlinks hpay
  obtain ⟨hprev, hnext⟩ := hlinks
  rw [ho, ho']
  congr 1
  cases o
  cases o'
  simp_all [Order.payload]

theorem SamePayload.linked_iff (hp : SamePayload h h' q) (x : Ptr) :
    x ∈ q (h'.order x).price ↔ x ∈ q (h.order x).price := by
  constructor
  · intro hx
    rwa [hp.field Order.price (fun _ => rfl) hx] at hx
  · intro hx
    rwa [hp.field Order.price (fun _ => rfl) hx]

theorem SamePayload.sidePrices_eq (hp : SamePayload h h' q) (s : Side) :
    sidePrices h' q s = sidePrices h q s := by
  ext p
  refine exists_congr fun x => and_congr_right fun hx => ?_
  rw [hp.field Order.side (fun _ => rfl) hx]

theorem SamePayload.resting_eq (hp : SamePayload h h' q) (s : Side) :
    resting h' q s = resting h q s := by
  ext x
  simp only [resting, Set.mem_ofPred_eq, hp.linked_iff]
  refine and_congr_right fun hx => ?_
  rw [hp.field Order.side (fun _ => rfl) hx]

/-- A sentinel for the empty set, an extreme element otherwise: there is one such value. -/
theorem extreme_unique {S : Set Int} {extreme : Int → Prop} {d a a' : Int}
    (hmem : ∀ c, extreme c → c ∈ S) (huniq : ∀ c c', extreme c → extreme c' → c = c')
    (h : (S = ∅ ∧ a = d) ∨ extreme a) (h' : (S = ∅ ∧ a' = d) ∨ extreme a') : a' = a := by
  rcases h with ⟨he, rfl⟩ | hx
  · rcases h' with ⟨-, hd⟩ | hx'
    · exact hd
    · exact absurd (hmem _ hx') (by simp [he])
  · rcases h' with ⟨he, -⟩ | hx'
    · exact absurd (hmem _ hx) (by simp [he])
    · exact huniq _ _ hx' hx

theorem BestExact.best_eq (hb : BestExact h b q) (hb' : BestExact h' b' q)
    (hp : SamePayload h h' q) : b'.bestBid = b.bestBid ∧ b'.bestAsk = b.bestAsk := by
  have hbid := hb'.bid
  have hask := hb'.ask
  simp only [hp.sidePrices_eq] at hbid hask
  constructor
  · exact extreme_unique (fun _ hg => hg.1) (fun _ _ hg hg' => hg.unique hg') hb.bid hbid
  · exact extreme_unique (fun _ hl => hl.1) (fun _ _ hl hl' => hl.unique hl') hb.ask hask

theorem BookRep.book_eq (hr : BookRep h b q) (hr' : BookRep h' b' q) (hb : BestExact h b q)
    (hb' : BestExact h' b' q) (hp : SamePayload h h' q) : b' = b := by
  have hlevels : b'.levels = b.levels := by
    funext p
    exact (hr.level p).level_eq (hr'.level p) fun x hx =>
      hp.field Order.remainingQuantity (fun _ => rfl) hx
  have hmap : b'.orderMap = b.orderMap := by
    funext id
    refine Option.ext fun x => ?_
    rw [hr.map, hr'.map, hp.linked_iff]
    refine and_congr_right fun hx => ?_
    rw [hp.field Order.id (fun _ => rfl) hx]
  have hcount : ∀ s, b'.count s = b.count s := by
    intro s
    apply UInt64.toNat_inj.1
    rw [hr.count, hr'.count, hp.resting_eq]
  have hbid : b'.bidCount = b.bidCount := hcount .bid
  have hask : b'.askCount = b.askCount := hcount .ask
  obtain ⟨hbest, hbest'⟩ := hb.best_eq hb' hp
  cases b
  cases b'
  simp_all

end Determined

/-! ## Two engines in the same state -/

/-- The same book in the same slots, and the same free list behind it. -/
structure SameEngine (e e' : MatchingEngine) : Prop where
  book : e'.book = e.book
  freeHead : e'.pool.freeHead = e.pool.freeHead
  available : e'.pool.available = e.pool.available
  slot : ∀ i < orderPoolSize, e'.heap (slotPtr i) = e.heap (slotPtr i)

/-- The same book: every level queues the same orders. Free slots may be threaded in another
order. -/
structure SameQueues (e e' : MatchingEngine) : Prop where
  book : e'.book = e.book
  order : ∀ p x, LinkedAt e.heap e.book p x → e'.heap x = e.heap x
  available : e'.poolAvailable = e.poolAvailable

section Same

variable {e e' : MatchingEngine} {q : Int → List Ptr} {free free' : List Ptr}

theorem EngineRep.sameEngine (he : EngineRep e q free) (he' : EngineRep e' q free)
    (hp : SamePayload e.heap e'.heap q) : SameEngine e e' where
  book := he.rep.book_eq he'.rep he.best he'.best hp
  freeHead := he'.pool.head_eq.trans he.pool.head_eq.symm
  available := UInt64.toNat_inj.1 (he'.pool.available.trans he.pool.available.symm)
  slot i hi := by
    rcases (he.slots (slotPtr i)).2 ⟨i, hi, rfl⟩ with hx | ⟨p, hx⟩
    · exact he.pool.threaded.cell_eq he'.pool.threaded hx
    · exact he.rep.cell_eq he'.rep hp hx

theorem EngineRep.sameQueues (he : EngineRep e q free) (he' : EngineRep e' q free')
    (hp : SamePayload e.heap e'.heap q) : SameQueues e e' := by
  have hbook := he.rep.book_eq he'.rep he.best he'.best hp
  refine ⟨hbook, fun p x hx => ?_, ?_⟩
  · exact he.rep.cell_eq he'.rep hp (he.rep.linkedAt_iff.1 hx)
  · -- what is not resting is free
    have hcount := he.slot_count
    have hcount' := he'.slot_count
    rw [hbook] at hcount'
    apply UInt64.toNat_inj.1
    rw [poolAvailable, poolAvailable, he'.pool.available, he.pool.available]
    omega

end Same

/-! ## Placing and cancelling -/

/-- The order is priced off every resting order of the opposite side. -/
def Passive (e : MatchingEngine) (msg : NewOrderMessage) : Prop :=
  match msg.side with
  | .bid => ∀ p ∈ restingPrices e.heap e.book .ask, msg.price < p
  | .ask => ∀ p ∈ restingPrices e.heap e.book .bid, p < msg.price

/-- No resting order carries `id`. -/
def Unheld (e : MatchingEngine) (id : OrderId) : Prop :=
  ∀ p x, LinkedAt e.heap e.book p x → (e.heap.order x).id ≠ id

section Place

variable {e : MatchingEngine} {q : Int → List Ptr} {free : List Ptr} {msg : NewOrderMessage}

theorem EngineRep.unheld_iff (he : EngineRep e q free) (id : OrderId) :
    Unheld e id ↔ e.book.orderMap id = none := by
  rw [Option.eq_none_iff_forall_ne_some]
  constructor
  · intro hu x hm
    obtain ⟨hx, hid⟩ := (he.rep.map id x).1 hm
    exact hu _ x (he.rep.linkedAt_iff.2 hx) hid
  · intro hn p x hx hid
    have hx := (he.rep.mem_iff.1 (he.rep.linkedAt_iff.1 hx)).1
    exact hn x ((he.rep.map id x).2 ⟨hx, hid⟩)

theorem EngineRep.passive_iff (he : EngineRep e q free) :
    Passive e msg ↔ (msg.side = .bid → ∀ p ∈ sidePrices e.heap q .ask, msg.price < p) ∧
      (msg.side = .ask → ∀ p ∈ sidePrices e.heap q .bid, p < msg.price) := by
  unfold Passive
  simp only [he.rep.restingPrices_eq]
  cases msg.side <;> simp

/-- A passive order does not enter the matching loop. -/
theorem EngineRep.crosses_passive (he : EngineRep e q free) (hlimit : msg.type = .limit)
    (hp : Passive e msg) (rem : Quantity) :
    crosses (OrderBook.has msg.side.opposite) (OrderBook.best msg.side.opposite)
      (beyondLimit msg) (e, rem) = false := by
  obtain ⟨hbid, hask⟩ := he.passive_iff.1 hp
  cases hhas : OrderBook.has msg.side.opposite e.book with
  | false => simp [crosses, hhas]
  | true =>
    obtain ⟨hbest, -⟩ := he.best_first hhas
    have hbeyond : beyondLimit msg (OrderBook.best msg.side.opposite e.book) = true := by
      simp only [beyondLimit, decide_eq_true_eq]
      refine ⟨hlimit, ?_⟩
      cases hs : msg.side with
      | bid =>
        rw [hs] at hbest
        simpa [before, Side.opposite] using hbid hs _ hbest
      | ask =>
        rw [hs] at hbest
        simpa [before, Side.opposite] using hask hs _ hbest
    simp [crosses, hbeyond]

theorem EngineRep.processNewOrder_passive (he : EngineRep e q free) (hlimit : msg.type = .limit)
    (hp : Passive e msg) :
    e.processNewOrder msg =
      some (if RefBook.ignored msg then { e with fills := [] }
        else restRemainder { e with fills := [] } msg msg.quantity) := by
  rw [processNewOrder_eq]
  have hexit : matchLoop (OrderBook.has msg.side.opposite) (OrderBook.best msg.side.opposite)
      (beyondLimit msg) msg ({ e with fills := [] }, msg.quantity) =
      some ({ e with fills := [] }, msg.quantity) :=
    loop_exit ((he.withFills []).crosses_passive hlimit hp msg.quantity) _
  split
  · rfl
  · rename_i hign
    have hpos : 0 < msg.quantity := UInt32.pos_iff_ne_zero.2 (ignored_iff.1 hign).1
    simp only [hexit, Option.map_some, hpos, hlimit, true_and, if_true]

theorem withFills_self {fills : List Fill} (h : e.fills = fills) : { e with fills } = e := by
  subst h
  rfl

theorem processCancel_unheld {c : CancelMessage} (hm : e.book.orderMap c.id = none) :
    e.processCancel c = (e, false) := by
  simp only [processCancel, OrderBook.getOrder, hm]

theorem processCancel_held {c : CancelMessage} {x : Ptr} (hm : e.book.orderMap c.id = some x) :
    e.processCancel c = (EngineRep.releaseOrder e c.id x, true) := by
  simp only [processCancel, OrderBook.getOrder, hm]
  rfl

theorem erase_append_queue (q : Int → List Ptr) {p : Int} {x : Ptr} (hx : x ∉ q p) :
    eraseQueue (appendQueue q p x) p x = q := by
  funext r
  by_cases hr : r = p
  · subst hr
    simp [eraseQueue, appendQueue, List.erase_append_right _ hx]
  · simp [eraseQueue, appendQueue, hr]

/-- Resting an order and cancelling it again: the slot it took is the first free one again. -/
theorem EngineInv.rest_cancel (he : EngineInv e q free) (hlimit : msg.type = .limit)
    (hp : Passive e msg) (hm : e.book.orderMap msg.id = none)
    (hrange : 0 ≤ msg.price ∧ msg.price < maxPriceTicks) (hpos : 0 < msg.quantity)
    (ts : Timestamp) :
    SameEngine e ((restRemainder e msg msg.quantity).processCancel
      { id := msg.id, timestamp := ts }).1 := by
  cases free with
  | nil =>
    rw [restRemainder_exhausted he.toEngineRep, processCancel_unheld hm]
    exact he.sameEngine he.toEngineRep fun _ _ _ => rfl
  | cons x free =>
    obtain ⟨hbid, hask⟩ := he.passive_iff.1 hp
    obtain ⟨he', hkeep, hself⟩ :=
      he.rest_accepted hm hlimit hrange hpos (UInt32.le_refl _) hbid hask
    have hprice : ((restRemainder e msg msg.quantity).heap.order x).price = msg.price :=
      (congrArg Order.price hself :)
    have hid : ((restRemainder e msg msg.quantity).heap.order x).id = msg.id :=
      (congrArg Order.id hself :)
    have hm' : (restRemainder e msg msg.quantity).book.orderMap msg.id = some x :=
      (he'.rep.map _ x).2 ⟨by rw [hprice]; exact mem_appendQueue.2 (.inr ⟨rfl, rfl⟩), hid⟩
    have hxq := unlinked_of_free he.toEngineRep
    have hrel := he'.toEngineRep.release hm'
    rw [hprice, erase_append_queue q (hxq _)] at hrel
    rw [processCancel_held hm']
    refine he.sameEngine hrel fun p y hy => ?_
    have hyx : y ≠ x := by rintro rfl; exact hxq p hy
    rw [he'.release_payload hm' hyx, hkeep p y hy]

/-- Placing and cancelling a passive order, whether or not it could rest. -/
theorem EngineInv.place_cancel (he : EngineInv e q free) (hlimit : msg.type = .limit)
    (hp : Passive e msg) (hu : Unheld e msg.id) (ts : Timestamp) :
    ∃ e₁ e₂, e.process (.newOrder msg) = some e₁ ∧ e₁.fills = [] ∧
      e₁.process (.cancel { id := msg.id, timestamp := ts }) = some e₂ ∧ e₂.fills = [] ∧
      SameEngine e e₂ := by
  have hm := (he.unheld_iff msg.id).1 hu
  refine ⟨_, _, he.processNewOrder_passive hlimit hp, ?_, rfl, ?_, ?_⟩
  · split
    · rfl
    · exact restRemainder_fills ..
  · unfold processCancel
    split <;> rfl
  · split
    · rw [processCancel_unheld hm]
      exact he.sameEngine (he.withFills []).toEngineRep fun _ _ _ => rfl
    · rename_i hign
      obtain ⟨hne, hrange⟩ := ignored_iff.1 hign
      have hsame := (he.withFills []).rest_cancel hlimit hp hm (hrange hlimit)
        (UInt32.pos_iff_ne_zero.2 hne) ts
      rw [withFills_self (restRemainder_fills ..)]
      exact ⟨hsame.book, hsame.freeHead, hsame.available, hsame.slot⟩

/-- After any messages, placing a passive order under an id that is not resting and then
cancelling it restores the engine. -/
theorem run_place_cancel (msgs : List EngineMessage) :
    ∃ e, new.run msgs = some e ∧
      ∀ (msg : NewOrderMessage) (ts : Timestamp), msg.type = .limit → Passive e msg →
        Unheld e msg.id →
        ∃ e₁ e₂, e.process (.newOrder msg) = some e₁ ∧ e₁.fills = [] ∧
          e₁.process (.cancel { id := msg.id, timestamp := ts }) = some e₂ ∧ e₂.fills = [] ∧
          SameEngine e e₂ := by
  obtain ⟨e, hrun, q, free, he, -⟩ := Simulates.new.run msgs
  refine ⟨e, hrun, fun msg ts hlimit hp hu => ?_⟩
  exact he.place_cancel hlimit hp hu ts

/-- A passive order is priced off every opposite entry of the reference. -/
theorem Simulates.passive {ref : RefBook} (hsim : Simulates e ref)
    (hp : ∀ r ∈ ref msg.side.opposite, ¬ before msg.side.opposite r.price msg.price) :
    Passive e msg := by
  obtain ⟨q, free, he, hv⟩ := hsim
  have hmem : ∀ p ∈ sidePrices e.heap q msg.side.opposite,
      ¬ before msg.side.opposite p msg.price := by
    rintro p ⟨x, hx, hs⟩
    have hr := hp _ (hs ▸ hv.mem he.rep hx)
    rwa [restingOf, he.rep.price p x hx] at hr
  rw [he.passive_iff]
  constructor
  · intro hs p hmem'
    have := hmem p (by rwa [hs])
    rw [hs] at this
    simpa [before, Side.opposite] using this
  · intro hs p hmem'
    have := hmem p (by rwa [hs])
    rw [hs] at this
    simpa [before, Side.opposite] using this

theorem Simulates.unheld {ref : RefBook} (hsim : Simulates e ref) {id : OrderId}
    (hid : ¬ ref.holds id) : Unheld e id :=
  fun p x hx he => hid ((hsim.holds_iff id).2 ⟨p, x, hx, he⟩)

/-- A bid below a resting ask becomes the best bid of its side and leaves no trace. -/
theorem run_place_cancel_belowAsk :
    ∃ e, new.run [.newOrder { id := 1, side := .ask, price := 101, quantity := 5 }] = some e ∧
      ∃ e₁ e₂, e.process (.newOrder { id := 2, price := 100, quantity := 7 }) = some e₁ ∧
        e₁.fills = [] ∧ e₁.process (.cancel { id := 2 }) = some e₂ ∧ e₂.fills = [] ∧
        SameEngine e e₂ := by
  obtain ⟨e, hrun, hlaw⟩ :=
    run_place_cancel [.newOrder { id := 1, side := .ask, price := 101, quantity := 5 }]
  obtain ⟨e', hrun', hsim⟩ :=
    Simulates.new.run [.newOrder { id := 1, side := .ask, price := 101, quantity := 5 }]
  obtain rfl := Option.some.inj (hrun.symm.trans hrun')
  refine ⟨e, hrun, hlaw { id := 2, price := 100, quantity := 7 } 0 rfl ?_ ?_⟩
  · exact hsim.passive (by decide +kernel)
  · exact hsim.unheld (by decide +kernel)

end Place

/-! ## Cancels -/

section Cancels

variable {e : MatchingEngine} {q : Int → List Ptr} {free : List Ptr}

/-- The queues without the orders whose id is listed. -/
def unlisted (h : Heap) (q : Int → List Ptr) (ids : List OrderId) (p : Int) : List Ptr :=
  (q p).filter fun x => (h.order x).id ∉ ids

theorem unlisted_subset (h : Heap) (q : Int → List Ptr) (ids : List OrderId) {p : Int} {x : Ptr}
    (hx : x ∈ unlisted h q ids p) : x ∈ q p := List.mem_of_mem_filter hx

theorem unlisted_cons {h h' : Heap} {id : OrderId} (ids : List OrderId)
    (hp : SamePayload h h' (unlisted h q [id])) :
    unlisted h' (unlisted h q [id]) ids = unlisted h q (id :: ids) := by
  funext p
  have hcongr : unlisted h' (unlisted h q [id]) ids p = unlisted h (unlisted h q [id]) ids p := by
    refine List.filter_congr fun x hx => ?_
    rw [hp.field Order.id (fun _ => rfl) hx]
  rw [hcongr]
  simp only [unlisted, List.filter_filter]
  refine List.filter_congr fun x _ => ?_
  simp [Bool.and_comm]

/-- One cancel drops the order that carries the id, if there is one. -/
theorem EngineInv.cancel (he : EngineInv e q free) (c : CancelMessage) :
    ∃ e' free', e.process (.cancel c) = some e' ∧
      EngineInv e' (unlisted e.heap q [c.id]) free' ∧
      SamePayload e.heap e'.heap (unlisted e.heap q [c.id]) := by
  have hcarries : ∀ {p x}, x ∈ q p → ((e.heap.order x).id = c.id ↔
      e.book.orderMap c.id = some x) := fun hx => by
    rw [he.rep.map]
    exact (and_iff_right (he.rep.mem_iff.1 hx).1).symm
  cases hm : e.book.orderMap c.id with
  | none =>
    have hq : unlisted e.heap q [c.id] = q := by
      funext p
      rw [unlisted, List.filter_eq_self]
      intro x hx
      simp [hcarries hx, hm]
    rw [hq]
    refine ⟨_, free, rfl, ?_, ?_⟩
    · rw [processCancel_unheld (e := { e with fills := [] }) hm]
      exact he.withFills []
    · rw [processCancel_unheld (e := { e with fills := [] }) hm]
      exact fun _ _ _ => rfl
  | some x =>
    have hq : unlisted e.heap q [c.id] = eraseQueue q (e.heap.order x).price x := by
      funext p
      rw [he.rep.eraseQueue_eq_filter]
      refine List.filter_congr fun y hy => ?_
      simp [hcarries hy, hm, eq_comm]
    rw [hq]
    refine ⟨_, x :: free, rfl, ?_, ?_⟩
    · rw [processCancel_held (e := { e with fills := [] }) hm]
      exact (he.withFills []).release hm
    · rw [processCancel_held (e := { e with fills := [] }) hm]
      intro p y hy
      exact (he.withFills []).release_payload hm (he.rep.mem_eraseQueue.1 hy).2

theorem SamePayload.trans {h h' h'' : Heap} {q q' : Int → List Ptr} (hp : SamePayload h h' q)
    (hp' : SamePayload h' h'' q') (hsub : ∀ p, ∀ x ∈ q' p, x ∈ q p) : SamePayload h h'' q' :=
  fun p x hx => (hp' p x hx).trans (hp p x (hsub p x hx))

/-- A list of cancels drops the orders whose ids it lists and keeps the others in place. -/
theorem EngineInv.cancels (he : EngineInv e q free) (cs : List CancelMessage) :
    ∃ e' free', e.run (cs.map .cancel) = some e' ∧
      EngineInv e' (unlisted e.heap q (cs.map (·.id))) free' ∧
      SamePayload e.heap e'.heap (unlisted e.heap q (cs.map (·.id))) := by
  induction cs generalizing e q free with
  | nil =>
    have hq : unlisted e.heap q [] = q := by
      funext p
      simp [unlisted]
    exact ⟨e, free, rfl, by simpa [hq] using he, fun _ _ _ => rfl⟩
  | cons c cs ih =>
    obtain ⟨e₁, free₁, hstep, he₁, hp₁⟩ := he.cancel c
    obtain ⟨e₂, free₂, hrun, he₂, hp₂⟩ := ih he₁
    rw [unlisted_cons _ hp₁] at he₂ hp₂
    refine ⟨e₂, free₂, by simp [run, hstep, hrun], he₂, hp₁.trans hp₂ fun p x hx => ?_⟩
    rw [List.map_cons, ← unlisted_cons _ hp₁] at hx
    exact unlisted_subset _ _ _ hx

/-- Cancels commute: only the set of ids matters. -/
theorem EngineInv.cancels_comm (he : EngineInv e q free) {cs cs' : List CancelMessage}
    (hids : ∀ id, id ∈ cs.map (·.id) ↔ id ∈ cs'.map (·.id)) :
    ∃ e₁ e₂, e.run (cs.map .cancel) = some e₁ ∧ e.run (cs'.map .cancel) = some e₂ ∧
      SameQueues e₁ e₂ := by
  obtain ⟨e₁, free₁, hrun₁, he₁, hp₁⟩ := he.cancels cs
  obtain ⟨e₂, free₂, hrun₂, he₂, hp₂⟩ := he.cancels cs'
  have hq : unlisted e.heap q (cs'.map (·.id)) = unlisted e.heap q (cs.map (·.id)) := by
    funext p
    refine List.filter_congr fun x _ => ?_
    simp only [hids]
  rw [hq] at he₂ hp₂
  refine ⟨e₁, e₂, hrun₁, hrun₂, he₁.sameQueues he₂.toEngineRep fun p x hx => ?_⟩
  rw [hp₁ p x hx, hp₂ p x hx]

end Cancels

end LockfreeMatching
