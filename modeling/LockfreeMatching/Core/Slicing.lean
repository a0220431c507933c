import LockfreeMatching.Core.EngineRun
import Mathlib.Data.List.Destutter

/-!
# Market orders can be sliced

The two nested matching loops are flattened into single executions at the best opposite price:
`ExecutesBest` is one of them and `Trades` a sequence. A sequence for the quantity `a + b` is cut
where `a` is used up. If that is inside a resting order, its one execution becomes two adjacent
ones, and nothing else changes, since executing twice against the same order adds up.

## Main results

* `processMarket_trades`: processing a market order is a settled sequence of executions.
* `Trades.split`: such a sequence can be cut at any quantity.
* `run_market_sliced`: two market orders do what one order for the sum does.
-/
namespace LockfreeMatching

open Lib MatchingEngine

/-! ## Single executions -/

/-- Who was executed against, where and for how much. -/
structure Trade where
  passiveId : OrderId
  price : Int
  quantity : Quantity

def tradeOf (f : Fill) : Trade := ⟨f.passiveId, f.price, f.quantity⟩

/-- The engine without its output. -/
def bare (e : MatchingEngine) : MatchingEngine := { e with fills := [] }

/-- One execution against the oldest order at the best price of side `s`. -/
inductive ExecutesBest (s : Side) : MatchingEngine × Quantity → Trade → MatchingEngine × Quantity →
    Prop where
  | mk {e : MatchingEngine} {rem : Quantity} {x : Ptr} : 0 < rem →
      OrderBook.has s e.book = true →
      (e.book.levels (OrderBook.best s e.book)).front = some x →
      (e.heap.order x).filledQuantity < (e.heap.order x).quantity →
      ExecutesBest s (e, rem)
        ⟨(e.heap.order x).id, OrderBook.best s e.book,
          min rem (e.heap.order x).remainingQuantity⟩
        (EngineInv.executeOrder e (OrderBook.best s e.book) x
          (min rem (e.heap.order x).remainingQuantity),
          rem - min rem (e.heap.order x).remainingQuantity)

/-- A sequence of executions. -/
inductive Trades (s : Side) : MatchingEngine × Quantity → List Trade → MatchingEngine × Quantity →
    Prop where
  | refl (t : MatchingEngine × Quantity) : Trades s t [] t
  | cons {t u v : MatchingEngine × Quantity} {tr : Trade} {trs : List Trade} :
      ExecutesBest s t tr u → Trades s u trs v → Trades s t (tr :: trs) v

/-- Nothing more can be executed: the quantity or the side is used up. -/
def Settled (s : Side) (t : MatchingEngine × Quantity) : Prop :=
  t.2 = 0 ∨ OrderBook.has s t.1.book = false

theorem ExecutesBest.unique {s : Side} {t u u' : MatchingEngine × Quantity} {tr tr' : Trade}
    (h : ExecutesBest s t tr u) (h' : ExecutesBest s t tr' u') : tr = tr' ∧ u = u' := by
  cases h with
  | mk _ _ hfront _ =>
    cases h' with
    | mk _ _ hfront' _ =>
      obtain rfl := Option.some.inj (hfront.symm.trans hfront')
      exact ⟨rfl, rfl⟩

theorem ExecutesBest.not_settled {s : Side} {t u : MatchingEngine × Quantity} {tr : Trade}
    (h : ExecutesBest s t tr u) : ¬ Settled s t := by
  cases h with
  | mk hpos hhas _ _ =>
    intro hs
    rcases hs with hz | hz
    · simp only at hz
      simp [hz] at hpos
    · exact absurd (hhas.symm.trans hz) (by decide)

namespace Trades

variable {s : Side} {t u v : MatchingEngine × Quantity} {trs trs' : List Trade}

theorem append (h : Trades s t trs u) (h' : Trades s u trs' v) : Trades s t (trs ++ trs') v := by
  induction h with
  | refl => exact h'
  | cons hx _ ih => exact .cons hx (ih h')

theorem unique (h : Trades s t trs u) (hu : Settled s u) (h' : Trades s t trs' v)
    (hv : Settled s v) : trs = trs' ∧ u = v := by
  induction h generalizing trs' with
  | refl t =>
    cases h' with
    | refl => exact ⟨rfl, rfl⟩
    | cons hx _ => exact absurd hu hx.not_settled
  | cons hx _ ih =>
    cases h' with
    | refl => exact absurd hv hx.not_settled
    | cons hx' h' =>
      obtain ⟨rfl, rfl⟩ := hx.unique hx'
      obtain ⟨rfl, rfl⟩ := ih hu h'
      exact ⟨rfl, rfl⟩

end Trades

/-! ## Cutting one execution in two -/

section Cut

variable {e : MatchingEngine} {p : Int} {x : Ptr} {a k : Quantity}

theorem executed_executed (o : Order) (a k : Quantity) :
    executed (executed o a) k = executed o (a + k) := by
  simp [executed, UInt32.add_assoc]

theorem fillOrder_order (e : MatchingEngine) (p : Int) (x : Ptr) (a : Quantity) :
    (EngineRep.fillOrder e p x a).heap.order x = executed (e.heap.order x) a := by
  simp [EngineRep.fillOrder, MatchingEngine.heap]

theorem fillOrder_fillOrder (e : MatchingEngine) (p : Int) (x : Ptr) (a k : Quantity) :
    EngineRep.fillOrder (EngineRep.fillOrder e p x a) p x k =
      EngineRep.fillOrder e p x (a + k) := by
  have hlevel : (e.book.levels p).totalQuantity - a - k =
      (e.book.levels p).totalQuantity - (a + k) := by grind
  have hcell := executed_executed (e.heap.order x) a k
  rw [← fillOrder_order e p x a] at hcell
  rw [EngineRep.fillOrder, hcell]
  simp [EngineRep.fillOrder, reduceLevel, PriceLevel.reduceQuantity, hlevel, MatchingEngine.heap,
    Heap.set]

/-- Executing twice against one order adds up. -/
theorem executeOrder_fillOrder (e : MatchingEngine) (p : Int) (x : Ptr) (a k : Quantity) :
    EngineInv.executeOrder (EngineRep.fillOrder e p x a) p x k =
      EngineInv.executeOrder e p x (a + k) := by
  have hid : (executed (e.heap.order x) a).id = (e.heap.order x).id := rfl
  simp only [EngineInv.executeOrder, fillOrder_order, executed_executed, fillOrder_fillOrder, hid]

theorem fillOrder_best (s : Side) (e : MatchingEngine) (p : Int) (x : Ptr) (a : Quantity) :
    OrderBook.has s (EngineRep.fillOrder e p x a).book = OrderBook.has s e.book ∧
      OrderBook.best s (EngineRep.fillOrder e p x a).book = OrderBook.best s e.book := by
  cases s <;> exact ⟨rfl, rfl⟩

theorem fillOrder_front (e : MatchingEngine) (p : Int) (x : Ptr) (a : Quantity) :
    ((EngineRep.fillOrder e p x a).book.levels p).front = (e.book.levels p).front := by
  simp [EngineRep.fillOrder, reduceLevel, PriceLevel.reduceQuantity, PriceLevel.front]

/-- A resting order that is larger than `a`, met by `a` and then by `b`. -/
theorem quantity_cut {a b r : Quantity} (hsum : a.toNat + b.toNat < 4294967296) (har : a < r) :
    min (a + b) r = a + min b (r - a) ∧ a + b - min (a + b) r = b - min b (r - a) := by
  have hlt := UInt32.lt_iff_toNat_lt.1 har
  have hab : (a + b).toNat = a.toNat + b.toNat := by
    rw [UInt32.toNat_add]
    omega
  have hra : (r - a).toNat = r.toNat - a.toNat := UInt32.toNat_sub_of_le _ _ (UInt32.le_of_lt har)
  by_cases hb : r - a ≤ b
  · have hle : r ≤ a + b := by
      rw [UInt32.le_iff_toNat_le] at hb ⊢
      omega
    rw [quantity_min_right hb, quantity_min_right hle]
    constructor <;> grind
  · have hle : ¬ r ≤ a + b := by
      rw [UInt32.le_iff_toNat_le] at hb ⊢
      omega
    rw [quantity_min_left hb, quantity_min_left hle]
    constructor <;> grind

/-- `a` ends inside the first order, and `b` goes on there. -/
theorem ExecutesBest.cut {s : Side} {b : Quantity} (ha : 0 < a) (hb : 0 < b)
    (hhas : OrderBook.has s e.book = true)
    (hfront : (e.book.levels (OrderBook.best s e.book)).front = some x)
    (hopen : (e.heap.order x).filledQuantity < (e.heap.order x).quantity)
    (har : a < (e.heap.order x).remainingQuantity) :
    let p := OrderBook.best s e.book
    let k := min b ((e.heap.order x).remainingQuantity - a)
    ExecutesBest s (e, a) ⟨(e.heap.order x).id, p, a⟩ (EngineRep.fillOrder e p x a, 0) ∧
      ExecutesBest s (EngineRep.fillOrder e p x a, b) ⟨(e.heap.order x).id, p, k⟩
        (EngineInv.executeOrder e p x (a + k), b - k) := by
  intro p k
  have hpart : (executed (e.heap.order x) a).isFilled = false := by
    rw [← Bool.not_eq_true, executed_isFilled hopen (UInt32.le_of_lt har)]
    exact UInt32.not_le.2 har
  constructor
  · have hx := ExecutesBest.mk ha hhas hfront hopen
    rwa [quantity_min_left (UInt32.not_le.2 har), UInt32.sub_self, EngineInv.executeOrder,
      hpart, if_neg (by decide)] at hx
  · have horder := fillOrder_order e p x a
    have hrem : (executed (e.heap.order x) a).remainingQuantity =
        (e.heap.order x).remainingQuantity - a := by
      simp only [executed, Order.remainingQuantity]
      grind
    have hopen' : (executed (e.heap.order x) a).filledQuantity <
        (executed (e.heap.order x) a).quantity := by
      simpa [Order.isFilled] using hpart
    obtain ⟨hhas', hbest'⟩ := fillOrder_best s e p x a
    have hx := ExecutesBest.mk (s := s) (e := EngineRep.fillOrder e p x a) (x := x) hb
      (hhas'.trans hhas) (by rw [hbest', fillOrder_front]; exact hfront)
      (by rw [horder]; exact hopen')
    rwa [hbest', horder, hrem, executeOrder_fillOrder] at hx

end Cut

/-! ## Cutting a sequence in two -/

/-- `trs'` is `trs`, up to one execution made in two adjacent parts. -/
inductive Slices : List Trade → List Trade → Prop where
  | refl (trs : List Trade) : Slices trs trs
  | cut {id : OrderId} {p : Int} {j k : Quantity} (trs : List Trade) :
      j.toNat + k.toNat < 4294967296 →
      Slices (⟨id, p, j + k⟩ :: trs) (⟨id, p, j⟩ :: ⟨id, p, k⟩ :: trs)
  | cons {trs trs' : List Trade} (tr : Trade) : Slices trs trs' → Slices (tr :: trs) (tr :: trs')

/-- Quantity executed against one order. -/
def tradedWith (id : OrderId) (trs : List Trade) : Nat :=
  ((trs.filter (·.passiveId = id)).map (·.quantity.toNat)).sum

theorem tradedWith_cons (id : OrderId) (tr : Trade) (trs : List Trade) :
    tradedWith id (tr :: trs) =
      (if tr.passiveId = id then tr.quantity.toNat else 0) + tradedWith id trs := by
  by_cases h : tr.passiveId = id <;> simp [tradedWith, h]

theorem Slices.tradedWith_eq {trs trs' : List Trade} (h : Slices trs trs') (id : OrderId) :
    tradedWith id trs' = tradedWith id trs := by
  induction h with
  | refl => rfl
  | cut trs hsum =>
    simp only [tradedWith_cons, UInt32.toNat_add]
    split <;> omega
  | cons tr _ ih => simp only [tradedWith_cons, ih]

/-- Where the executions took place, adjacent repeats merged. -/
def steps (trs : List Trade) : List (OrderId × Int) :=
  (trs.map fun tr => (tr.passiveId, tr.price)).destutter (· ≠ ·)

theorem Slices.destutter_eq {trs trs' : List Trade} (h : Slices trs trs') (c : OrderId × Int) :
    (trs'.map fun tr => (tr.passiveId, tr.price)).destutter' (· ≠ ·) c =
      (trs.map fun tr => (tr.passiveId, tr.price)).destutter' (· ≠ ·) c := by
  induction h generalizing c with
  | refl => rfl
  | cut trs _ => grind [List.destutter'_cons]
  | cons tr _ ih => simp only [List.map_cons, List.destutter'_cons, ih]

theorem Slices.steps_eq {trs trs' : List Trade} (h : Slices trs trs') : steps trs' = steps trs := by
  cases h with
  | refl => rfl
  | cut trs _ => simp [steps, List.destutter_cons']
  | cons tr h => exact h.destutter_eq _

/-- A settled sequence for `a + b` is one for `a` followed by one for `b`. The induction is on
the sequence, and `a` is used up along it. -/
theorem Trades.split {s : Side} {t u : MatchingEngine × Quantity} {trs : List Trade}
    (h : Trades s t trs u) (hu : Settled s u) {a b : Quantity} (ht : t.2 = a + b)
    (hsum : a.toNat + b.toNat < 4294967296) (hb : 0 < b) :
    ∃ trs₁ t₁ trs₂ t₂, Trades s (t.1, a) trs₁ t₁ ∧ Settled s t₁ ∧
      Trades s (t₁.1, b) trs₂ t₂ ∧ Settled s t₂ ∧ t₂.1 = u.1 ∧ Slices trs (trs₁ ++ trs₂) := by
  induction h generalizing a with
  | refl t =>
    rcases hu with hz | hz
    · -- a positive quantity is left
      have hb := UInt32.lt_iff_toNat_lt.1 hb
      have hab := congrArg UInt32.toNat (hz.symm.trans ht)
      simp only [UInt32.toNat_add, UInt32.toNat_zero] at hab hb
      omega
    · exact ⟨[], _, [], _, .refl _, .inr hz, .refl _, .inr hz, rfl, .refl _⟩
  | @cons _ _ u tr trs hx hrest ih =>
    cases hx with
    | @mk e rem x hpos hhas hfront hopen =>
      simp only at ht ⊢
      subst ht
      set p := OrderBook.best s e.book with hp
      set r := (e.heap.order x).remainingQuantity with hr
      by_cases ha : a = 0
      · subst ha
        rw [UInt32.zero_add] at hpos hrest
        refine ⟨[], _, _, u, .refl _, .inl rfl, .cons (.mk hpos hhas hfront hopen) hrest, hu,
          rfl, ?_⟩
        rw [UInt32.zero_add]
        exact .refl _
      have hapos : 0 < a := UInt32.pos_iff_ne_zero.2 ha
      have hab : (a + b).toNat = a.toNat + b.toNat := by
        rw [UInt32.toNat_add]
        omega
      by_cases hra : r ≤ a
      · -- the order is used up by `a`: the first execution is the same
        have hra' := UInt32.le_iff_toNat_le.1 hra
        have hrab : r ≤ a + b := by
          rw [UInt32.le_iff_toNat_le]
          omega
        have hsub : (a - r).toNat = a.toNat - r.toNat := UInt32.toNat_sub_of_le _ _ hra
        rw [quantity_min_right hrab] at hrest ih ⊢
        obtain ⟨trs₁, t₁, trs₂, t₂, h₁, hs₁, h₂, hs₂, heq, hslice⟩ :=
          ih hu (a := a - r) (by grind) (by omega)
        have hx : ExecutesBest s (e, a) ⟨(e.heap.order x).id, p, min a r⟩
            (EngineInv.executeOrder e p x (min a r), a - min a r) := .mk hapos hhas hfront hopen
        rw [quantity_min_right hra] at hx
        exact ⟨_, t₁, trs₂, t₂, .cons hx h₁, hs₁, h₂, hs₂, heq, .cons _ hslice⟩
      · -- `a` ends inside the order, and `b` goes on there
        have hra : a < r := UInt32.not_le.1 hra
        obtain ⟨hmin, hleft⟩ := quantity_cut hsum hra
        rw [hleft, hmin] at hrest
        rw [hmin]
        obtain ⟨hx, hx'⟩ := ExecutesBest.cut hapos hb hhas hfront hopen hra
        refine ⟨_, _, _, u, .cons hx (.refl _), .inl rfl, .cons hx' hrest, hu, rfl, ?_⟩
        refine .cut trs ?_
        have hkb := UInt32.le_iff_toNat_le.1 (quantity_min_le b (r - a))
        have hsub : (r - a).toNat = r.toNat - a.toNat :=
          UInt32.toNat_sub_of_le _ _ (UInt32.le_of_lt hra)
        have hlt := UInt32.lt_iff_toNat_lt.1 hra
        have := r.toNat_lt
        omega

/-! ## The matching loops as executions -/

/-- The loops went from `s₀` to `t`, recording every execution. -/
def Traded (s : Side) (s₀ t : MatchingEngine × Quantity) : Prop :=
  ∃ trs, Trades s (bare s₀.1, s₀.2) trs (bare t.1, t.2) ∧
    t.1.fills.map tradeOf = s₀.1.fills.map tradeOf ++ trs

theorem Traded.refl (s : Side) (t : MatchingEngine × Quantity) : Traded s t t :=
  ⟨[], .refl _, by simp⟩

theorem Traded.trans {s : Side} {t u v : MatchingEngine × Quantity} (h : Traded s t u)
    (h' : Traded s u v) : Traded s t v := by
  obtain ⟨trs, htrs, hfills⟩ := h
  obtain ⟨trs', htrs', hfills'⟩ := h'
  exact ⟨trs ++ trs', htrs.append htrs', by rw [hfills', hfills, List.append_assoc]⟩

theorem bare_executeOrder (e : MatchingEngine) (fills : List Fill) (p : Int) (x : Ptr)
    (qty : Quantity) :
    bare (EngineInv.executeOrder { e with fills } p x qty) =
      EngineInv.executeOrder (bare e) p x qty := by
  unfold EngineInv.executeOrder
  rw [apply_ite bare]
  rfl

theorem executeOrder_fills (e : MatchingEngine) (p : Int) (x : Ptr) (qty : Quantity) :
    (EngineInv.executeOrder e p x qty).fills = e.fills := by
  unfold EngineInv.executeOrder
  split <;> rfl

section Loops

variable {msg : NewOrderMessage} {ref : RefBook} {t u : MatchingEngine × Quantity}
  {q : Int → List Ptr} {free : List Ptr} {side : List Resting} {takes : List (Resting × Quantity)}

/-- One iteration of the level loop, as long as the level is the best one. -/
theorem Matching.traded_fillFront (hm : Matching msg ref t q free side takes) {p : Int}
    (hb : AtBest msg p t.1.heap q) (hopen : levelOpen p t = true)
    (hstep : MatchingEngine.fillFront p msg.id msg.side msg.timestamp t = some u) :
    Traded msg.side.opposite t u := by
  obtain ⟨hpos, hlevel⟩ := levelOpen_iff.1 hopen
  obtain ⟨x, l, hq⟩ := hm.inv.rep.exists_cons hlevel
  have hx : x ∈ q p := by simp [hq]
  have hfront : (t.1.book.levels p).front = some x := by
    rw [(hm.inv.rep.level p).front_eq, hq]
    rfl
  have hmem : p ∈ sidePrices t.1.heap q msg.side.opposite := ⟨x, hx, hb.side x hx⟩
  have hhas := (hm.inv.has_iff msg.side.opposite).2 ⟨p, hmem⟩
  obtain ⟨hbest, hfirst⟩ := hm.inv.best_first hhas
  obtain rfl := before_antisymm (hfirst p hmem) (hb.first _ hbest)
  obtain ⟨-, hless⟩ := hm.inv.isOpen _ x hx
  obtain rfl := Option.some.inj ((EngineInv.fillFront_eq hfront).symm.trans hstep)
  have hx := ExecutesBest.mk (e := bare t.1) hpos hhas hfront hless
  refine ⟨[_], .cons hx ?_, ?_⟩
  · rw [bare_executeOrder]
    exact .refl _
  · rw [executeOrder_fills, List.map_append]
    rfl

/-- The level loop. -/
theorem Matching.traded_fillLevel (hm : Matching msg ref t q free side takes) {p : Int}
    (hb : AtBest msg p t.1.heap q)
    (hstep : MatchingEngine.fillLevel p msg.id msg.side msg.timestamp t = some u) :
    Traded msg.side.opposite t u := by
  obtain ⟨hhead, -⟩ := loop_head hstep
  have hinv := hhead.invariant (I := fun v => Traded msg.side.opposite t v ∧
    ∃ q free side takes, Matching msg ref v q free side takes ∧ AtBest msg p v.1.heap q) ?_
    ⟨.refl _ t, q, free, side, takes, hm, hb⟩
  · exact hinv.1
  · rintro v w ⟨htraded, q, free, side, takes, hm, hb⟩ hopen hstep
    refine ⟨htraded.trans (hm.traded_fillFront hb hopen hstep), ?_⟩
    obtain ⟨hpos, hlevel⟩ := levelOpen_iff.1 hopen
    obtain ⟨x, l, hq⟩ := hm.inv.rep.exists_cons hlevel
    obtain ⟨w', q', free', side', takes', hstep', hm', hb', -⟩ := hm.fillFront hb hq hpos
    obtain rfl := Option.some.inj (hstep'.symm.trans hstep)
    exact ⟨q', free', side', takes', hm', hb'⟩

/-- The outer loop. -/
theorem Matching.traded_matchLoop (hm : Matching msg ref t q free side takes)
    (hloop : MatchingEngine.matchLoop (OrderBook.has msg.side.opposite)
      (OrderBook.best msg.side.opposite) (beyondLimit msg) msg t = some u) :
    Traded msg.side.opposite t u ∧ crosses (OrderBook.has msg.side.opposite)
      (OrderBook.best msg.side.opposite) (beyondLimit msg) u = false := by
  obtain ⟨hhead, hexit⟩ := loop_head hloop
  refine ⟨?_, hexit⟩
  have hinv := hhead.invariant (I := fun v => Traded msg.side.opposite t v ∧
    ∃ q free side takes, Matching msg ref v q free side takes) ?_
    ⟨.refl _ t, q, free, side, takes, hm⟩
  · exact hinv.1
  · rintro v w ⟨htraded, q, free, side, takes, hm⟩ hc hstep
    obtain ⟨hpos, hne, hb⟩ := hm.atBest hc
    refine ⟨htraded.trans (hm.traded_fillLevel hb hstep), ?_⟩
    obtain ⟨w', q', free', side', takes', hstep', hm', -⟩ := hm.fillLevel hb hne hpos
    obtain rfl := Option.some.inj (hstep'.symm.trans hstep)
    exact ⟨q', free', side', takes', hm'⟩

end Loops

/-- A market order executes until its quantity or the opposite side is used up. -/
theorem processMarket_trades {e : MatchingEngine} {ref : RefBook} (hsim : Simulates e ref)
    {msg : NewOrderMessage} (htype : msg.type = .market) (hpos : 0 < msg.quantity) :
    ∃ e' t, e.process (.newOrder msg) = some e' ∧ bare e' = t.1 ∧
      Trades msg.side.opposite (bare e, msg.quantity) (e'.fills.map tradeOf) t ∧
      Settled msg.side.opposite t := by
  obtain ⟨q, free, he, hv⟩ := hsim
  have hign : ¬ RefBook.ignored msg := by
    rw [ignored_iff, htype]
    exact ⟨UInt32.pos_iff_ne_zero.1 hpos, by simp⟩
  obtain ⟨t, q', free', hloop, -⟩ := matchLoop_matches msg he hv
  obtain ⟨⟨trs, htrs, hfills⟩, hexit⟩ := (Matching.start msg he hv).traded_matchLoop hloop
  refine ⟨t.1, (bare t.1, t.2), ?_, rfl, ?_, ?_⟩
  · simp [process, processNewOrder_eq, hign, hloop, htype]
  · rw [hfills]
    exact htrs
  · have hwithin : beyondLimit msg (OrderBook.best msg.side.opposite t.1.book) = false := by
      simp [beyondLimit, htype]
    simp only [crosses, hwithin, Bool.not_false, Bool.and_true, Bool.and_eq_false_iff,
      decide_eq_false_iff_not] at hexit
    rcases hexit with hzero | hhas
    · exact .inl (UInt32.le_zero_iff.1 (UInt32.not_lt.1 hzero))
    · exact .inr hhas

/-- After any messages, a market order does what two market orders do that add up to it: the
engine ends in the same state, every resting order is executed against for the same quantity,
and the same orders are met at the same prices in the same sequence. -/
theorem run_market_sliced (msgs : List EngineMessage) {m m₁ m₂ : NewOrderMessage}
    (htype : m.type = .market ∧ m₁.type = .market ∧ m₂.type = .market)
    (hside : m₁.side = m.side ∧ m₂.side = m.side)
    (hpos : 0 < m₁.quantity ∧ 0 < m₂.quantity)
    (hsum : m.quantity.toNat = m₁.quantity.toNat + m₂.quantity.toNat) :
    ∃ e e' e₁ e₂, new.run msgs = some e ∧ e.process (.newOrder m) = some e' ∧
      e.process (.newOrder m₁) = some e₁ ∧ e₁.process (.newOrder m₂) = some e₂ ∧
      e₂.book = e'.book ∧ e₂.pool = e'.pool ∧
      (∀ id, tradedWith id ((e₁.fills ++ e₂.fills).map tradeOf) =
        tradedWith id (e'.fills.map tradeOf)) ∧
      steps ((e₁.fills ++ e₂.fills).map tradeOf) = steps (e'.fills.map tradeOf) := by
  have hlt := m.quantity.toNat_lt
  have hadd : m.quantity = m₁.quantity + m₂.quantity := by
    apply UInt32.toNat_inj.1
    rw [UInt32.toNat_add]
    omega
  have hmpos : 0 < m.quantity := by
    have := UInt32.lt_iff_toNat_lt.1 hpos.1
    rw [UInt32.lt_iff_toNat_lt]
    omega
  obtain ⟨e, hrun, hsim⟩ := Simulates.new.run msgs
  obtain ⟨e', t', hproc', ht', htrs', hset'⟩ := processMarket_trades hsim htype.1 hmpos
  obtain ⟨e₁, t₁, hproc₁, ht₁, htrs₁, hset₁⟩ := processMarket_trades hsim htype.2.1 hpos.1
  obtain ⟨e₁', hproc₁', -, hsim₁⟩ := process_simulates hsim (.newOrder m₁)
  obtain rfl := Option.some.inj (hproc₁.symm.trans hproc₁')
  obtain ⟨e₂, t₂, hproc₂, ht₂, htrs₂, hset₂⟩ := processMarket_trades hsim₁ htype.2.2 hpos.2
  rw [hside.1] at htrs₁ hset₁
  rw [hside.2, ht₁] at htrs₂
  rw [hside.2] at hset₂
  -- the cut sequence is the one the two orders produce
  obtain ⟨trs₁, u₁, trs₂, u₂, hu₁, hs₁, hu₂, hs₂, heq, hslice⟩ :=
    htrs'.split hset' hadd (by omega) hpos.2
  obtain ⟨rfl, rfl⟩ := htrs₁.unique hset₁ hu₁ hs₁
  obtain ⟨rfl, rfl⟩ := htrs₂.unique hset₂ hu₂ hs₂
  have hbare : bare e₂ = bare e' := ht₂.trans (heq.trans ht'.symm)
  rw [← List.map_append] at hslice
  have hbook : e₂.book = e'.book := (congrArg MatchingEngine.book hbare :)
  have hpool : e₂.pool = e'.pool := (congrArg MatchingEngine.pool hbare :)
  exact ⟨e, e', e₁, e₂, hrun, hproc', hproc₁, hproc₂, hbook, hpool, hslice.tradedWith_eq,
    hslice.steps_eq⟩

/-- Five units, cut inside the second of two resting asks. -/
theorem run_market_sliced_insideOrder :
    ∃ e e' e₁ e₂, new.run [.newOrder { id := 1, side := .ask, price := 101, quantity := 2 },
        .newOrder { id := 2, side := .ask, price := 102, quantity := 4 }] = some e ∧
      e.process (.newOrder { id := 3, type := .market, quantity := 5 }) = some e' ∧
      e.process (.newOrder { id := 4, type := .market, quantity := 3 }) = some e₁ ∧
      e₁.process (.newOrder { id := 5, type := .market, quantity := 2 }) = some e₂ ∧
      e₂.book = e'.book ∧ e₂.pool = e'.pool ∧
      (∀ id, tradedWith id ((e₁.fills ++ e₂.fills).map tradeOf) =
        tradedWith id (e'.fills.map tradeOf)) ∧
      steps ((e₁.fills ++ e₂.fills).map tradeOf) = steps (e'.fills.map tradeOf) :=
  run_market_sliced _ ⟨rfl, rfl, rfl⟩ ⟨rfl, rfl⟩ (by decide) (by decide)

end LockfreeMatching
