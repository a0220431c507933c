import LockfreeMatching.Core.View

/-!
# The engine refines price-time-priority matching

Every iteration of the level loop is one `matchSide_step` of the reference walk. `Matching`
carries the relation through the two nested loops: what was taken so far, followed by what
the reference would still take from the current side, is always the whole walk.

## Main results

* `matchLoop_total`: the nested loops return, having taken what the reference takes.
* `process_refines`: `process` returns, emits the fills of the reference and leaves the
  engine in the state of the reference.
-/
namespace LockfreeMatching

open Lib EngineInv MatchingEngine

/-- Matching `msg` against a book that started as `ref`: `side` is what is left of the
opposite side and `takes` what was taken from it. -/
structure Matching (msg : NewOrderMessage) (ref : RefBook) (s : MatchingEngine × Quantity)
    (q : Int → List Ptr) (free : List Ptr) (side : List Resting)
    (takes : List (Resting × Quantity)) : Prop where
  inv : EngineInv s.1 q free
  views : Views s.1.heap q (Function.update ref msg.side.opposite side)
  fills : s.1.fills = takes.map (fillOf msg)
  left : s.2 ≤ msg.quantity
  walk : matchSide msg.side.opposite (beyondLimit msg) (ref msg.side.opposite) msg.quantity =
    let m := matchSide msg.side.opposite (beyondLimit msg) side s.2
    { m with takes := takes ++ m.takes }

/-- Level `p` holds nothing but the best orders of the opposite side. -/
structure AtBest (msg : NewOrderMessage) (p : Int) (h : Heap) (q : Int → List Ptr) : Prop where
  side : ∀ y ∈ q p, (h.order y).side = msg.side.opposite
  first : ∀ t ∈ sidePrices h q msg.side.opposite, before msg.side.opposite p t
  within : beyondLimit msg p = false

theorem fillEdit_side {h : Heap} {x y : Ptr} {qty : Quantity} {o : Order}
    (ho : fillEdit h x qty y = some o) : o.side = (h.order y).side := by
  unfold fillEdit at ho
  split_ifs at ho with hyx
  · subst hyx
    obtain rfl := Option.some.inj ho
    rfl
  · rw [Option.some.inj ho]

/-- Executing takes no order to another level or side. -/
theorem AtBest.edited {msg : NewOrderMessage} {p : Int} {h h' : Heap} {q q' : Int → List Ptr}
    {x : Ptr} {qty : Quantity} (hb : AtBest msg p h q)
    (hed : Edited h q h' q' (fillEdit h x qty)) : AtBest msg p h' q' := by
  have hmem : ∀ t, ∀ y ∈ q' t, y ∈ q t ∧ (h'.order y).side = (h.order y).side := by
    intro t y hy
    obtain ⟨hy, o, ho, hpay⟩ := hed.mem hy
    have hside : (h'.order y).side = o.side := (congrArg Order.side hpay :)
    exact ⟨hy, hside.trans (fillEdit_side ho)⟩
  refine ⟨fun y hy => ?_, ?_, hb.within⟩
  · obtain ⟨hy, hs⟩ := hmem p y hy
    exact hs.trans (hb.side y hy)
  · rintro t ⟨y, hy, hs⟩
    obtain ⟨hy, hs'⟩ := hmem t y hy
    exact hb.first t ⟨y, hy, hs' ▸ hs⟩

theorem levelOpen_iff {p : Int} {s : MatchingEngine × Quantity} :
    levelOpen p s = true ↔ 0 < s.2 ∧ (s.1.book.levels p).empty = false := by
  simp [levelOpen]

namespace Matching

variable {msg : NewOrderMessage} {ref : RefBook} {s : MatchingEngine × Quantity}
  {q : Int → List Ptr} {free : List Ptr} {side : List Resting}
  {takes : List (Resting × Quantity)}

/-- One iteration of the level loop is one step of the reference walk. -/
theorem fillFront (hm : Matching msg ref s q free side takes) {p : Int} {x : Ptr} {l : List Ptr}
    (hb : AtBest msg p s.1.heap q) (hq : q p = x :: l) (hpos : 0 < s.2) :
    ∃ t q' free' side' takes',
      MatchingEngine.fillFront p msg.id msg.side msg.timestamp s = some t ∧
      Matching msg ref t q' free' side' takes' ∧ AtBest msg p t.1.heap q' ∧ t.2 < s.2 := by
  have hx : x ∈ q p := by simp [hq]
  have hrep := hm.inv.rep
  obtain ⟨-, hopen⟩ := hm.inv.isOpen p x hx
  have hfront : (s.1.book.levels p).front = some x := by
    rw [(hrep.level p).front_eq, hq]
    rfl
  obtain ⟨e', q', free', hstep, hinv, hed, hfills⟩ :=
    hm.inv.fillFront msg.id msg.side msg.timestamp s.2 hx hfront rfl
  generalize hqty : min s.2 (s.1.heap.order x).remainingQuantity = qty at hstep hed hfills
  have hle : qty ≤ (s.1.heap.order x).remainingQuantity := hqty ▸ quantity_min_le _ _
  have hlt : s.2 - qty < s.2 := by
    rw [← hqty]
    refine quantity_sub_min_lt hpos ?_
    have := UInt32.lt_iff_toNat_lt.1 hopen
    rw [UInt32.lt_iff_toNat_lt, (executed_toNat hopen hle).1]
    simp only [UInt32.toNat_zero]
    omega
  have hxs := hb.side x hx
  have hxp : (s.1.heap.order x).price = p := hrep.price p x hx
  have hviews := hm.views.execute hrep hx hopen hle hed
  obtain ⟨rs, hsort⟩ := hm.views.sorted_head hrep hq hxs hb.first
  have hids := hm.views.ids msg.side.opposite
  rw [Function.update_self] at hsort hids
  refine ⟨(e', s.2 - qty), q', free', execute side (s.1.heap.order x).id qty,
    takes ++ [(restingOf (s.1.heap.order x), qty)], hstep, ⟨hinv, ?_, ?_, ?_, ?_⟩,
    hb.edited hed, hlt⟩
  · -- the executed order is on the opposite side only
    have hother : (fun t => execute (Function.update ref msg.side.opposite side t)
        (s.1.heap.order x).id qty) =
        Function.update ref msg.side.opposite (execute side (s.1.heap.order x).id qty) := by
      funext t
      by_cases ht : t = msg.side.opposite
      · subst ht; simp
      · rw [Function.update_of_ne ht, Function.update_of_ne ht]
        refine execute_of_notMem qty fun r hr hid => ?_
        have hr' : r ∈ Function.update ref msg.side.opposite side t := by
          rwa [Function.update_of_ne ht]
        obtain ⟨y, hy, hys, rfl⟩ := hm.views.mem_iff.1 hr'
        have hmy := (hrep.map (s.1.heap.order x).id y).2 ⟨hy, hid⟩
        have hmx := (hrep.map (s.1.heap.order x).id x).2 ⟨(hrep.mem_iff.1 hx).1, rfl⟩
        obtain rfl := Option.some.inj (hmy.symm.trans hmx)
        exact ht (hys.symm.trans hxs)
    rw [← hother]
    exact hviews
  · rw [hfills, hm.fills, List.map_append, List.map_singleton]
    simp only [fillOf, fillAgainst, restingOf, hxp]
  · exact UInt32.le_trans (UInt32.le_of_lt hlt) hm.left
  · have hne : s.2 ≠ 0 := fun h0 => absurd (h0 ▸ hpos) (by decide)
    have hstep := matchSide_step hsort hids hne
      (show beyondLimit msg (restingOf (s.1.heap.order x)).price = false by
        simp only [restingOf, hxp]; exact hb.within)
    rw [show (restingOf (s.1.heap.order x)).remaining = (s.1.heap.order x).remainingQuantity from
      rfl, hqty] at hstep
    rw [hm.walk, hstep]
    simp only [List.append_assoc, List.singleton_append]
    rfl

/-- The level loop: it executes at least once and stops with the level or the quantity used
up. -/
theorem fillLevel (hm : Matching msg ref s q free side takes) {p : Int}
    (hb : AtBest msg p s.1.heap q) (hp : q p ≠ []) (hpos : 0 < s.2) :
    ∃ t q' free' side' takes',
      MatchingEngine.fillLevel p msg.id msg.side msg.timestamp s = some t ∧
      Matching msg ref t q' free' side' takes' ∧ t.2 < s.2 := by
  have hopen : levelOpen p s = true := by
    have hlevel : (s.1.book.levels p).empty = false := by
      rw [Bool.eq_false_iff, ne_eq, hm.inv.rep.empty_iff]
      exact hp
    exact levelOpen_iff.2 ⟨hpos, hlevel⟩
  have htotal := loop_total_lt (levelOpen p)
    (MatchingEngine.fillFront p msg.id msg.side msg.timestamp)
    (fun t => ∃ q free side takes, Matching msg ref t q free side takes ∧ AtBest msg p t.1.heap q)
    (fun t => t.2.toNat) ?_ ⟨q, free, side, takes, hm, hb⟩ hopen
  · obtain ⟨t, hloop, ⟨q', free', side', takes', hm', -⟩, -, hlt⟩ := htotal
    exact ⟨t, q', free', side', takes', hloop, hm', UInt32.lt_iff_toNat_lt.2 hlt⟩
  · rintro t ⟨q', free', side', takes', hm', hb'⟩ hcond
    obtain ⟨hpos', hlevel⟩ := levelOpen_iff.1 hcond
    obtain ⟨x, l, hq⟩ := hm'.inv.rep.exists_cons hlevel
    obtain ⟨u, q'', free'', side'', takes'', hstep, hm'', hb'', hdec⟩ := hm'.fillFront hb' hq hpos'
    exact ⟨u, hstep, ⟨q'', free'', side'', takes'', hm'', hb''⟩, UInt32.lt_iff_toNat_lt.1 hdec⟩

/-- The opposite best price, when the outer loop looks at it. -/
theorem atBest (hm : Matching msg ref s q free side takes)
    (hc : crosses (OrderBook.has msg.side.opposite) (OrderBook.best msg.side.opposite)
      (beyondLimit msg) s = true) :
    0 < s.2 ∧ q (OrderBook.best msg.side.opposite s.1.book) ≠ [] ∧
      AtBest msg (OrderBook.best msg.side.opposite s.1.book) s.1.heap q := by
  simp only [crosses, Bool.and_eq_true, decide_eq_true_eq, Bool.not_eq_true'] at hc
  obtain ⟨⟨hpos, hhas⟩, hwithin⟩ := hc
  obtain ⟨⟨x, hx, hs⟩, hfirst⟩ := hm.inv.toEngineRep.best_first hhas
  refine ⟨hpos, List.ne_nil_of_mem hx, fun y hy => ?_, hfirst, hwithin⟩
  exact (hm.inv.uncrossed.same_side hy hx).trans hs

/-- What the outer loop leaves for the reference to take: nothing. -/
theorem finished (hm : Matching msg ref s q free side takes)
    (hc : crosses (OrderBook.has msg.side.opposite) (OrderBook.best msg.side.opposite)
      (beyondLimit msg) s = false) :
    s.2 = 0 ∨ ∀ t ∈ sidePrices s.1.heap q msg.side.opposite, beyondLimit msg t = true := by
  by_cases hpos : 0 < s.2
  · right
    intro t ht
    have hhas := (hm.inv.toEngineRep.has_iff _).2 ⟨t, ht⟩
    have hfirst := (hm.inv.toEngineRep.best_first hhas).2 t ht
    simp only [crosses, hpos, hhas, decide_true, Bool.true_and, Bool.not_eq_false'] at hc
    simp only [beyondLimit, decide_eq_true_eq] at hc ⊢
    exact ⟨hc.1, fun h => hc.2 (before_trans hfirst h)⟩
  · left
    have := UInt32.not_lt.1 hpos
    exact UInt32.le_antisymm this (by simp)

/-- The nested loops return, having taken what the reference takes. -/
theorem matchLoop (hm : Matching msg ref s q free side takes) :
    ∃ t q' free' side' takes',
      MatchingEngine.matchLoop (OrderBook.has msg.side.opposite)
        (OrderBook.best msg.side.opposite) (beyondLimit msg) msg s = some t ∧
      Matching msg ref t q' free' side' takes' ∧
      (t.2 = 0 ∨ ∀ r ∈ sidePrices t.1.heap q' msg.side.opposite, beyondLimit msg r = true) := by
  have htotal := loop_total
    (crosses (OrderBook.has msg.side.opposite) (OrderBook.best msg.side.opposite) (beyondLimit msg))
    (fillBest (OrderBook.best msg.side.opposite) msg)
    (fun t => ∃ q free side takes, Matching msg ref t q free side takes)
    (fun t => t.2.toNat) ?_ s.2.toNat s ⟨q, free, side, takes, hm⟩ (le_refl _)
  · obtain ⟨t, hloop, ⟨q', free', side', takes', hm'⟩, hcond⟩ := htotal
    exact ⟨t, q', free', side', takes', hloop, hm', hm'.finished hcond⟩
  · rintro t ⟨q', free', side', takes', hm'⟩ hcond
    obtain ⟨hpos, hne, hb⟩ := hm'.atBest hcond
    obtain ⟨u, q'', free'', side'', takes'', hstep, hm'', hlt⟩ := hm'.fillLevel hb hne hpos
    exact ⟨u, hstep, ⟨q'', free'', side'', takes'', hm''⟩, UInt32.lt_iff_toNat_lt.1 hlt⟩

end Matching

/-! ## Whole messages -/

/-- The engine is consistent and shows the reference book. -/
def Simulates (e : MatchingEngine) (ref : RefBook) : Prop :=
  ∃ q free, EngineInv e q free ∧ Views e.heap q ref

theorem Simulates.new : Simulates .new .empty :=
  ⟨_, _, EngineInv.new, fun s p => by simp [sideQueue, RefBook.empty],
    fun s => by simp [RefBook.empty]⟩

theorem restRemainder_fills (e : MatchingEngine) (msg : NewOrderMessage) (rem : Quantity) :
    (e.restRemainder msg rem).fills = e.fills := by
  unfold restRemainder
  split
  · rfl
  · dsimp only
    split <;> rfl

/-- There is a free slot iff the reference book has room. -/
theorem size_lt_iff {e : MatchingEngine} {q : Int → List Ptr} {free : List Ptr} {ref : RefBook}
    (he : EngineInv e q free) (hv : Views e.heap q ref) :
    ref.size < orderPoolSize ↔ free ≠ [] := by
  have hcount := he.toEngineRep.slot_count
  rw [RefBook.size, hv.length_eq he.rep, hv.length_eq he.rep, ← hcount, ne_eq,
    ← List.length_eq_zero_iff]
  omega

/-- Once no opposite price is within the limit, resting the remainder keeps the book
uncrossed and appends it to the reference. -/
theorem restRemainder_refines {e : MatchingEngine} {q : Int → List Ptr} {free : List Ptr}
    {ref : RefBook} {msg : NewOrderMessage} {rem : Quantity} (he : EngineInv e q free)
    (hv : Views e.heap q ref) (hlimit : msg.type = .limit)
    (hprice : 0 ≤ msg.price ∧ msg.price < maxPriceTicks) (hpos : 0 < rem)
    (hle : rem ≤ msg.quantity)
    (hbeyond : ∀ r ∈ sidePrices e.heap q msg.side.opposite, beyondLimit msg r = true) :
    Simulates (e.restRemainder msg rem) (ref.rest msg rem) := by
  have hsize := size_lt_iff he hv
  have hholds := hv.holds_iff he.rep msg.id
  unfold RefBook.rest
  cases free with
  | nil =>
    rw [if_neg (by rw [hsize]; simp), restRemainder_exhausted he.toEngineRep]
    exact ⟨q, [], he, hv⟩
  | cons x free =>
    cases hm : e.book.orderMap msg.id with
    | some y =>
      rw [if_neg (by rw [hholds, hm]; simp)]
      rw [restRemainder_duplicate he.toEngineRep msg rem (by simp [hm])]
      exact ⟨q, x :: free, he, hv⟩
    | none =>
      have hnot : ¬ ref.holds msg.id := by rw [hholds, hm]; simp
      rw [if_pos ⟨hlimit, hpos, hnot, hsize.2 (by simp)⟩]
      have hopp : ∀ r ∈ sidePrices e.heap q msg.side.opposite,
          ¬ before msg.side.opposite r msg.price := fun r hr => by
        have := hbeyond r hr
        simp only [beyondLimit, decide_eq_true_eq] at this
        exact this.2
      obtain ⟨hinv, hkeep, hself⟩ := he.rest_accepted hm hlimit hprice hpos hle
        (fun hs r hr => by
          have := hopp r (by rw [hs]; exact hr)
          rw [hs] at this
          simp only [Side.opposite, before] at this
          omega)
        (fun hs r hr => by
          have := hopp r (by rw [hs]; exact hr)
          rw [hs] at this
          simp only [Side.opposite, before] at this
          omega)
      refine ⟨_, free, hinv, ?_⟩
      have hrest : restingOf ((e.restRemainder msg rem).heap.order x) =
          ⟨msg.id, msg.price, rem⟩ := by
        rw [restingOf_payload hself]
        simp only [restingOf, (remainder_open hpos hle).1]
        rfl
      have hside : ((e.restRemainder msg rem).heap.order x).side = msg.side :=
        (congrArg Order.side hself :)
      have := hv.append hkeep hrest rfl hnot
      rwa [hside] at this

theorem ignored_iff {msg : NewOrderMessage} : ¬ RefBook.ignored msg ↔
    msg.quantity ≠ 0 ∧ (msg.type = .limit → 0 ≤ msg.price ∧ msg.price < maxPriceTicks) := by
  unfold RefBook.ignored
  tauto

/-- The state in which the matching loop of `msg` starts. -/
theorem Matching.start {e : MatchingEngine} {q : Int → List Ptr} {free : List Ptr}
    {ref : RefBook} (msg : NewOrderMessage) (he : EngineInv e q free) (hv : Views e.heap q ref) :
    Matching msg ref ({ e with fills := [] }, msg.quantity) q free (ref msg.side.opposite) [] where
  inv := he.withFills []
  views := by rw [Function.update_eq_self]; exact hv
  fills := rfl
  left := UInt32.le_refl _
  walk := rfl

/-- The matching loop of `msg` returns what the reference matches. -/
theorem matchLoop_matches {e : MatchingEngine} {q : Int → List Ptr} {free : List Ptr}
    {ref : RefBook} (msg : NewOrderMessage) (he : EngineInv e q free) (hv : Views e.heap q ref) :
    let m := matchSide msg.side.opposite (beyondLimit msg) (ref msg.side.opposite) msg.quantity
    ∃ t q' free',
      MatchingEngine.matchLoop (OrderBook.has msg.side.opposite)
        (OrderBook.best msg.side.opposite) (beyondLimit msg) msg
        ({ e with fills := [] }, msg.quantity) = some t ∧
      Matching msg ref t q' free' m.side m.takes ∧ t.2 = m.left ∧
      (t.2 = 0 ∨ ∀ r ∈ sidePrices t.1.heap q' msg.side.opposite, beyondLimit msg r = true) := by
  obtain ⟨t, q', free', side, takes, hloop, hm, hdone⟩ := (Matching.start msg he hv).matchLoop
  -- nothing is left to take, so the loop took the whole walk
  have hstop : matchSide msg.side.opposite (beyondLimit msg) side t.2 =
      { takes := [], side, left := t.2 } := by
    refine matchSide_stop (hdone.imp id fun h r hr => h r.price ?_)
    have hr' : r ∈ Function.update ref msg.side.opposite side msg.side.opposite := by
      rwa [Function.update_self]
    obtain ⟨x, hx, hs, -⟩ := hm.views.mem_iff.1 hr'
    exact ⟨x, hx, hs⟩
  have hwalk := hm.walk
  simp only [hstop, List.append_nil] at hwalk
  simp only [hwalk]
  exact ⟨t, q', free', hloop, hm, rfl, hdone⟩

theorem processNewOrder_refines {e : MatchingEngine} {ref : RefBook} (hsim : Simulates e ref)
    (msg : NewOrderMessage) :
    ∃ e', e.processNewOrder msg = some e' ∧ e'.fills = (ref.newOrder msg).2 ∧
      Simulates e' (ref.newOrder msg).1 := by
  obtain ⟨q, free, he, hv⟩ := hsim
  rw [processNewOrder_eq]
  unfold RefBook.newOrder
  by_cases hign : RefBook.ignored msg
  · rw [if_pos hign, if_pos hign]
    exact ⟨_, rfl, rfl, q, free, he.withFills [], hv⟩
  · rw [if_neg hign, if_neg hign]
    obtain ⟨hquant, hrange⟩ := ignored_iff.1 hign
    obtain ⟨t, q', free', hloop, hm, hleft, hdone⟩ := matchLoop_matches msg he hv
    simp only [hloop, ← hleft, Option.map_some]
    refine ⟨_, rfl, ?_, ?_⟩
    · rw [← hm.fills]
      split
      · exact restRemainder_fills ..
      · rfl
    · split
      · rename_i hrest
        refine restRemainder_refines hm.inv hm.views hrest.2 (hrange hrest.2) hrest.1 hm.left ?_
        refine hdone.resolve_left fun h0 => ?_
        exact absurd (h0 ▸ hrest.1) (by decide)
      · rename_i hrest
        rw [RefBook.rest, if_neg (by tauto)]
        exact ⟨q', free', hm.inv, hm.views⟩

theorem processCancel_refines {e : MatchingEngine} {ref : RefBook} (hsim : Simulates e ref)
    (msg : CancelMessage) :
    (e.processCancel msg).1.fills = e.fills ∧
      Simulates (e.processCancel msg).1 (ref.cancel msg.id) := by
  obtain ⟨q, free, he, hv⟩ := hsim
  unfold processCancel OrderBook.getOrder
  cases hm : e.book.orderMap msg.id with
  | none =>
    refine ⟨rfl, q, free, he, ?_⟩
    have hnot : ¬ ref.holds msg.id := by rw [hv.holds_iff he.rep, hm]; simp
    rw [RefBook.cancel_of_not_holds hnot]
    exact hv
  | some x =>
    have hed := release_edited he.toEngineRep hm
    obtain ⟨hx, hxid⟩ := (he.rep.map msg.id x).1 hm
    refine ⟨rfl, _, _, he.release hm, ?_⟩
    have hcancel : ref.cancel msg.id = fun s =>
        (ref s).filterMap (Option.guard fun r => r.id ≠ msg.id) := by
      funext s
      rw [RefBook.cancel, List.filterMap_eq_filter]
    rw [hcancel]
    refine hv.edit hed ?_ ?_ ?_
    · intro p y hy
      by_cases hyx : y = x
      · subst hyx
        simp [cancelEdit, Option.guard, restingOf, hxid]
      · have hid : (e.heap.order y).id ≠ msg.id := by
          intro hid
          have hmy := (he.rep.map msg.id y).2 ⟨(he.rep.mem_iff.1 hy).1, hid⟩
          exact hyx (Option.some.inj (hmy.symm.trans hm))
        simp [cancelEdit, Option.guard, restingOf, hyx, hid]
    · intro p y _ o ho
      unfold cancelEdit at ho
      split_ifs at ho
      rw [Option.some.inj ho]
    · intro r r' hr
      obtain ⟨rfl, -⟩ := Option.guard_eq_some_iff.1 hr
      exact ⟨rfl, rfl⟩

/-- One message: `process` returns, and engine and reference agree on fills and book. -/
theorem process_simulates {e : MatchingEngine} {ref : RefBook} (hsim : Simulates e ref)
    (msg : EngineMessage) :
    ∃ e', e.process msg = some e' ∧ e'.fills = (ref.process msg).2 ∧
      Simulates e' (ref.process msg).1 := by
  cases msg with
  | newOrder msg => exact processNewOrder_refines hsim msg
  | cancel msg =>
    obtain ⟨q, free, he, hv⟩ := hsim
    obtain ⟨hfills, hsim'⟩ := processCancel_refines (e := { e with fills := [] })
      ⟨q, free, he.withFills [], hv⟩ msg
    exact ⟨_, rfl, hfills, hsim'⟩

end LockfreeMatching
