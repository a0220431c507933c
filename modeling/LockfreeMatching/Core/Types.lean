import Mathlib.Algebra.Ring.Nat
import Mathlib.Data.Fintype.Card
import Mathlib.Logic.Function.Basic

/-!
# Core types, orders and messages

Prices are integer ticks. They are signed 64-bit in the source, and no operation on them
can overflow there, so they are plain integers here. Identifiers, quantities and timestamps keep
their machine width, since quantities are added and subtracted without checks.

A `Ptr` is a non-null 64-bit address and `Option Ptr` a nullable one. Distinct objects have
distinct addresses, so no structure can ever link more than `2 ^ 64 - 1` of them.
-/
namespace LockfreeMatching

abbrev OrderId := UInt64
abbrev Quantity := UInt32
abbrev Timestamp := UInt64

inductive Side where
  | bid | ask
  deriving DecidableEq, Repr

/-- The side an incoming order trades against. -/
def Side.opposite : Side → Side
  | .bid => .ask
  | .ask => .bid

inductive OrderType where
  | limit | market
  deriving DecidableEq, Repr

/-- Size of the price level array: `$0.00` to `$99,999.99` in cents. -/
def maxPriceTicks : Int := 10000000

/-! ## Addresses and orders -/

abbrev Ptr := Fin 18446744073709551615

/-- An order is its own list node: `prev` and `next` are managed by the price level. -/
structure Order where
  id : OrderId := 0
  side : Side := .bid
  type : OrderType := .limit
  price : Int := 0
  quantity : Quantity := 0
  filledQuantity : Quantity := 0
  timestamp : Timestamp := 0
  prev : Option Ptr := none
  next : Option Ptr := none
  deriving DecidableEq, Repr

instance : Inhabited Order := ⟨{}⟩

def Order.remainingQuantity (o : Order) : Quantity := o.quantity - o.filledQuantity

def Order.isFilled (o : Order) : Bool := decide (o.quantity ≤ o.filledQuantity)

/-- Everything an order carries besides its list links. -/
def Order.payload (o : Order) : Order := { o with prev := none, next := none }

/-! ## Quantities -/

theorem quantity_min_right {q r : Quantity} (h : r ≤ q) : min q r = r := by
  have hmin : min q r = if q ≤ r then q else r := rfl
  split_ifs at hmin with hq
  · rw [hmin]
    exact UInt32.le_antisymm hq h
  · exact hmin

theorem quantity_min_left {q r : Quantity} (h : ¬ r ≤ q) : min q r = q := by
  have hmin : min q r = if q ≤ r then q else r := rfl
  rwa [if_pos (UInt32.le_of_lt (UInt32.not_le.1 h))] at hmin

theorem quantity_min_le (q r : Quantity) : min q r ≤ r := by
  by_cases h : r ≤ q
  · rw [quantity_min_right h]
    exact UInt32.le_refl r
  · rw [quantity_min_left h]
    exact UInt32.le_of_lt (UInt32.not_le.1 h)

theorem quantity_min_pos {q r : Quantity} (hq : 0 < q) (hr : 0 < r) : 0 < min q r := by
  by_cases h : r ≤ q
  · rwa [quantity_min_right h]
  · rwa [quantity_min_left h]

/-- Trading against a positive quantity leaves less. -/
theorem quantity_sub_min_lt {q r : Quantity} (hq : 0 < q) (hr : 0 < r) : q - min q r < q := by
  by_cases h : r ≤ q
  · rw [quantity_min_right h]
    grind
  · rw [quantity_min_left h]
    grind

/-! ## Messages -/

structure NewOrderMessage where
  id : OrderId := 0
  side : Side := .bid
  type : OrderType := .limit
  price : Int := 0
  quantity : Quantity := 0
  timestamp : Timestamp := 0
  deriving DecidableEq, Repr

structure CancelMessage where
  id : OrderId := 0
  timestamp : Timestamp := 0
  deriving DecidableEq, Repr

/-- A fill is the outbound message itself; `aggressorSide` is the side of the taker. -/
structure FillMessage where
  aggressiveId : OrderId := 0
  passiveId : OrderId := 0
  price : Int := 0
  quantity : Quantity := 0
  timestamp : Timestamp := 0
  aggressorSide : Side := .bid
  deriving DecidableEq, Repr

abbrev Fill := FillMessage

inductive EngineMessage where
  | newOrder (msg : NewOrderMessage)
  | cancel (msg : CancelMessage)
  deriving DecidableEq, Repr

/-- The orders submitted by a message sequence. -/
def submitted (msgs : List EngineMessage) : List NewOrderMessage :=
  msgs.filterMap fun
    | .newOrder msg => some msg
    | .cancel _ => none

@[simp] theorem submitted_append (a b : List EngineMessage) :
    submitted (a ++ b) = submitted a ++ submitted b := List.filterMap_append

@[simp] theorem submitted_newOrder (m : NewOrderMessage) : submitted [.newOrder m] = [m] := rfl

@[simp] theorem submitted_cancel (c : CancelMessage) : submitted [.cancel c] = [] := rfl

theorem mem_submitted {msgs : List EngineMessage} {m : NewOrderMessage} :
    m ∈ submitted msgs ↔ .newOrder m ∈ msgs := by
  simp only [submitted, List.mem_filterMap]
  constructor
  · rintro ⟨msg, hmem, he⟩
    cases msg with
    | newOrder => cases he; exact hmem
    | cancel => cases he
  · exact fun h => ⟨_, h, rfl⟩

def cancelledIds (out : List EngineMessage) : List OrderId :=
  out.filterMap fun
    | .newOrder _ => none
    | .cancel msg => some msg.id

@[simp] theorem cancelledIds_append (a b : List EngineMessage) :
    cancelledIds (a ++ b) = cancelledIds a ++ cancelledIds b := List.filterMap_append

@[simp] theorem cancelledIds_newOrder (m : NewOrderMessage) : cancelledIds [.newOrder m] = [] := rfl

@[simp] theorem cancelledIds_cancel (c : CancelMessage) : cancelledIds [.cancel c] = [c.id] := rfl

end LockfreeMatching
