import LockfreeMatching.Core.PriceLevel

/-!
# The order book

One flat array of price levels indexed by tick, an id map, a resting-order count per side
and the two cached best prices. Bids and asks share the array. The array is a total map
here; `BookRep.range` shows that only indices in `[0, maxPriceTicks)` are ever occupied.

Best prices are repaired lazily: `addOrder` compares against the cached best, and
`cancelOrder` rescans only after it emptied the best level. The two scans are structural
recursions over exactly the prices the source loops visit.
-/
namespace LockfreeMatching

structure OrderBook where
  levels : Int → PriceLevel := fun _ => {}
  bestBid : Int := 0
  bestAsk : Int := maxPriceTicks - 1
  bidCount : UInt64 := 0
  askCount : UInt64 := 0
  orderMap : OrderId → Option Ptr := fun _ => none

namespace OrderBook

def hasBids (b : OrderBook) : Bool := decide (0 < b.bidCount)

def hasAsks (b : OrderBook) : Bool := decide (0 < b.askCount)

def getOrder (b : OrderBook) (id : OrderId) : Option Ptr := b.orderMap id

/-! ## Rescans -/

/-- First non-empty level among `n - 1, n - 2, ..., 0`. -/
def scanDown (levels : Int → PriceLevel) : Nat → Option Int
  | 0 => none
  | n + 1 => if (levels n).empty then scanDown levels n else some n

/-- First non-empty level among `p, p + 1, ..., p + n - 1`. -/
def scanUp (levels : Int → PriceLevel) : Nat → Int → Option Int
  | 0, _ => none
  | n + 1, p => if (levels p).empty then scanUp levels n (p + 1) else some p

/-- The levels a bid rescan finds below `removed`; nothing is stored if there is none. -/
def scanBids (b : OrderBook) (removed : Int) : Option Int := scanDown b.levels removed.toNat

def scanAsks (b : OrderBook) (removed : Int) : Option Int :=
  scanUp b.levels (maxPriceTicks - (removed + 1)).toNat (removed + 1)

def updateBestBidAfterRemove (b : OrderBook) (removed : Int) : OrderBook :=
  if b.bidCount = 0 then { b with bestBid := 0 }
  else match b.scanBids removed with
    | some p => { b with bestBid := p }
    | none => b

def updateBestAskAfterRemove (b : OrderBook) (removed : Int) : OrderBook :=
  if b.askCount = 0 then { b with bestAsk := maxPriceTicks - 1 }
  else match b.scanAsks removed with
    | some p => { b with bestAsk := p }
    | none => b

/-! ## Adding and cancelling -/

/-- Count a new order and compare its price against the cached best. -/
def noteAdded (b : OrderBook) (side : Side) (price : Int) : OrderBook :=
  match side with
  | .bid =>
    let count := b.bidCount + 1
    { b with
      bidCount := count
      bestBid := if count = 1 ∨ b.bestBid < price then price else b.bestBid }
  | .ask =>
    let count := b.askCount + 1
    { b with
      askCount := count
      bestAsk := if count = 1 ∨ price < b.bestAsk then price else b.bestAsk }

/-- Rest a fully constructed order; `false` on an out-of-range price or a duplicate id. -/
def addOrder (h : Heap) (b : OrderBook) (p : Ptr) : Heap × OrderBook × Bool :=
  let o := h.order p
  if o.price < 0 ∨ maxPriceTicks ≤ o.price then (h, b, false)
  else match b.orderMap o.id with
    | some _ => (h, b, false)
    | none =>
      let r := (b.levels o.price).pushBack h p
      let b := { b with
        orderMap := Function.update b.orderMap o.id (some p)
        levels := Function.update b.levels o.price r.2 }
      (r.1, b.noteAdded o.side o.price, true)

def noteRemoved (b : OrderBook) (side : Side) : OrderBook :=
  match side with
  | .bid => { b with bidCount := b.bidCount - 1 }
  | .ask => { b with askCount := b.askCount - 1 }

/-- Unlink an order from its level, the id map and the side counter. -/
def unlinkOrder (h : Heap) (b : OrderBook) (id : OrderId) (p : Ptr) : Heap × OrderBook :=
  let o := h.order p
  let r := (b.levels o.price).remove h p
  let b := { b with
    levels := Function.update b.levels o.price r.2
    orderMap := Function.update b.orderMap id none }
  (r.1, b.noteRemoved o.side)

/-- Rescan for the new best price if the best level of `side` was just emptied. -/
def repairBest (b : OrderBook) (side : Side) (price : Int) : OrderBook :=
  if (b.levels price).empty then
    if side = .bid ∧ price = b.bestBid then b.updateBestBidAfterRemove price
    else if side = .ask ∧ price = b.bestAsk then b.updateBestAskAfterRemove price
    else b
  else b

/-- Remove an order by id; `false` if the id is unknown. -/
def cancelOrder (h : Heap) (b : OrderBook) (id : OrderId) : Heap × OrderBook × Bool :=
  match b.orderMap id with
  | none => (h, b, false)
  | some p =>
    let r := b.unlinkOrder h id p
    (r.1, r.2.repairBest (h.order p).side (h.order p).price, true)

/-! ## Field updates -/

def count (b : OrderBook) : Side → UInt64
  | .bid => b.bidCount
  | .ask => b.askCount

@[simp] theorem noteAdded_levels (b : OrderBook) (s : Side) (p : Int) :
    (b.noteAdded s p).levels = b.levels := by cases s <;> rfl
@[simp] theorem noteAdded_orderMap (b : OrderBook) (s : Side) (p : Int) :
    (b.noteAdded s p).orderMap = b.orderMap := by cases s <;> rfl
theorem noteAdded_count (b : OrderBook) (s t : Side) (p : Int) :
    (b.noteAdded s p).count t = if s = t then b.count t + 1 else b.count t := by
  cases s <;> cases t <;> rfl

@[simp] theorem noteRemoved_levels (b : OrderBook) (s : Side) :
    (b.noteRemoved s).levels = b.levels := by cases s <;> rfl
@[simp] theorem noteRemoved_orderMap (b : OrderBook) (s : Side) :
    (b.noteRemoved s).orderMap = b.orderMap := by cases s <;> rfl
@[simp] theorem noteRemoved_bestBid (b : OrderBook) (s : Side) :
    (b.noteRemoved s).bestBid = b.bestBid := by cases s <;> rfl
@[simp] theorem noteRemoved_bestAsk (b : OrderBook) (s : Side) :
    (b.noteRemoved s).bestAsk = b.bestAsk := by cases s <;> rfl
theorem noteRemoved_count (b : OrderBook) (s t : Side) :
    (b.noteRemoved s).count t = if s = t then b.count t - 1 else b.count t := by
  cases s <;> cases t <;> rfl

/-- Repairing a best price changes nothing but the two cached prices. -/
theorem repairBest_eq (b : OrderBook) (s : Side) (p : Int) :
    ∃ bid ask, b.repairBest s p = { b with bestBid := bid, bestAsk := ask } := by
  unfold repairBest updateBestBidAfterRemove updateBestAskAfterRemove
  split_ifs
  · exact ⟨_, _, rfl⟩
  · cases b.scanBids p <;> exact ⟨_, _, rfl⟩
  · exact ⟨_, _, rfl⟩
  · cases b.scanAsks p <;> exact ⟨_, _, rfl⟩
  all_goals exact ⟨_, _, rfl⟩

/-! ## What the scans find -/

theorem scanDown_some {levels : Int → PriceLevel} {n : Nat} {p : Int}
    (h : scanDown levels n = some p) :
    0 ≤ p ∧ p < n ∧ (levels p).empty = false ∧
      ∀ r, p < r → r < n → (levels r).empty = true := by
  induction n with
  | zero => simp [scanDown] at h
  | succ n ih =>
    unfold scanDown at h
    split at h
    · rename_i he
      obtain ⟨h0, hlt, hne, hall⟩ := ih h
      refine ⟨h0, by omega, hne, fun r hr hr' => ?_⟩
      by_cases hrn : r = n
      · rw [hrn]; exact he
      · exact hall r hr (by omega)
    · rename_i he
      obtain rfl : (n : Int) = p := Option.some.inj h
      exact ⟨by omega, by omega, by simpa using he, fun r hr hr' => by omega⟩

theorem scanDown_none {levels : Int → PriceLevel} {n : Nat} (h : scanDown levels n = none) :
    ∀ r : Int, 0 ≤ r → r < n → (levels r).empty = true := by
  induction n with
  | zero => intro r h0 hr; omega
  | succ n ih =>
    unfold scanDown at h
    split at h
    · rename_i he
      intro r h0 hr
      by_cases hrn : r = n
      · rw [hrn]; exact he
      · exact ih h r h0 (by omega)
    · simp at h

theorem scanUp_some {levels : Int → PriceLevel} {n : Nat} {a p : Int}
    (h : scanUp levels n a = some p) :
    a ≤ p ∧ p < a + n ∧ (levels p).empty = false ∧
      ∀ r, a ≤ r → r < p → (levels r).empty = true := by
  induction n generalizing a with
  | zero => simp [scanUp] at h
  | succ n ih =>
    unfold scanUp at h
    split at h
    · rename_i he
      obtain ⟨hle, hlt, hne, hall⟩ := ih h
      refine ⟨by omega, by omega, hne, fun r hr hr' => ?_⟩
      by_cases hra : r = a
      · rw [hra]; exact he
      · exact hall r (by omega) hr'
    · rename_i he
      obtain rfl : a = p := Option.some.inj h
      exact ⟨le_refl _, by omega, by simpa using he, fun r hr hr' => by omega⟩

theorem scanUp_none {levels : Int → PriceLevel} {n : Nat} {a : Int}
    (h : scanUp levels n a = none) : ∀ r, a ≤ r → r < a + n → (levels r).empty = true := by
  induction n generalizing a with
  | zero => intro r h0 hr; omega
  | succ n ih =>
    unfold scanUp at h
    split at h
    · rename_i he
      intro r h0 hr
      by_cases hra : r = a
      · rw [hra]; exact he
      · exact ih h r (by omega) (by omega)
    · simp at h

end OrderBook

end LockfreeMatching
