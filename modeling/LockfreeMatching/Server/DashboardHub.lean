import LockfreeMatching.Core.OrderBook
import LockfreeMatching.Lib.Loop
import LockfreeMatching.Lib.Ring

/-!
# Dashboard hub

The state shared by the engine thread, the output thread and the dashboard server. Every
function runs under the lock of the hub; only `publishBook` may find it taken. The rows of the
two ladders are lists instead of arrays with a count. The tape is an array of `fillKeep` rows
overwritten in a circle.

Price levels are read through `getLevel`, which fails outside the level array, so that a
function that returns has read inside it only.
-/
namespace LockfreeMatching

open Lib

/-- Read one entry of the level array. -/
def OrderBook.getLevel (b : OrderBook) (p : Int) : Option PriceLevel :=
  if 0 ≤ p ∧ p < maxPriceTicks then some (b.levels p) else none

namespace DashboardHub

def bookDepth : Nat := 15

def fillKeep : Nat := 48

/-- How far the ladders are followed from the best price. -/
def scanLimit : Int := 100000

structure Level where
  price : Int := 0
  qty : UInt64 := 0
  orders : UInt32 := 0
  deriving DecidableEq, Repr

structure FillRow where
  seq : UInt64 := 0
  tsMs : UInt64 := 0
  price : Int := 0
  qty : Quantity := 0
  takerIsBid : Bool := false
  deriving DecidableEq, Repr

structure Stats where
  matchP50 : UInt64 := 0
  matchP95 : UInt64 := 0
  matchP99 : UInt64 := 0
  orderP50 : UInt64 := 0
  orderP99 : UInt64 := 0
  processed : UInt64 := 0
  fills : UInt64 := 0
  poolFree : UInt64 := 0
  poolCapacity : UInt64 := 0
  dropped : UInt64 := 0
  clients : UInt64 := 0
  deriving DecidableEq, Repr

end DashboardHub

open DashboardHub in
structure DashboardHub where
  bookWanted : Bool := false
  mode : String := "synthetic"
  product : String := "SYNTH"
  bids : List DashboardHub.Level := []
  asks : List DashboardHub.Level := []
  totalBids : UInt64 := 0
  totalAsks : UInt64 := 0
  fills : List FillRow := List.replicate fillKeep {}
  fillHead : Nat := 0
  fillCount : Nat := 0
  stats : Stats := {}

namespace DashboardHub

def configure (hub : DashboardHub) (mode product : String) : DashboardHub :=
  { hub with mode, product }

def requestBook (hub : DashboardHub) : DashboardHub := { hub with bookWanted := true }

/-! ## Ladders -/

/-- The row shown for a level. -/
def levelRow (p : Int) (lvl : PriceLevel) : Level where
  price := p
  qty := lvl.totalQuantity.toUInt64
  orders := lvl.orderCount

/-- Collect the levels from `best` on, `step` ticks at a time, as long as the price is `inside`
and there is room. -/
def ladder (b : OrderBook) (inside : Int → Bool) (step best : Int) : Option (List Level) :=
  (loop (fun s : Int × List Level => inside s.1 && decide (s.2.length < bookDepth))
    (fun s => (b.getLevel s.1).map fun lvl =>
      (s.1 + step, if lvl.empty then s.2 else s.2 ++ [levelRow s.1 lvl]))
    (scanLimit.toNat + 1) (best, [])).map (·.2)

def bidLadder (b : OrderBook) : Option (List Level) :=
  if b.hasBids then
    let floor := if scanLimit < b.bestBid then b.bestBid - scanLimit else 0
    ladder b (fun p => decide (floor ≤ p)) (-1) b.bestBid
  else some []

def askLadder (b : OrderBook) : Option (List Level) :=
  if b.hasAsks then
    let cap := if b.bestAsk < maxPriceTicks - scanLimit then b.bestAsk + scanLimit
      else maxPriceTicks - 1
    ladder b (fun p => decide (p ≤ cap)) 1 b.bestAsk
  else some []

/-- Publish the top of the book, unless the lock is taken. -/
def publishBook (hub : DashboardHub) (ownsLock : Bool) (b : OrderBook) : Option DashboardHub :=
  if ownsLock then
    (bidLadder b).bind fun bids => (askLadder b).map fun asks =>
      { hub with
        bookWanted := false
        bids
        asks
        totalBids := b.bidCount
        totalAsks := b.askCount }
  else some hub

/-! ## Tape -/

/-- One iteration of the loop that stores the rows. -/
def pushFill (hub : DashboardHub) (row : FillRow) : DashboardHub :=
  { hub with
    fills := hub.fills.set hub.fillHead row
    fillHead := (hub.fillHead + 1) % fillKeep
    fillCount := if hub.fillCount < fillKeep then hub.fillCount + 1 else hub.fillCount }

def publishOutput (hub : DashboardHub) (stats : Stats) (rows : List FillRow) : DashboardHub :=
  rows.foldl pushFill { hub with stats }

/-- The rows of the tape in the order in which a frame lists them. -/
def fillRows (hub : DashboardHub) : List FillRow :=
  (List.range hub.fillCount).map fun i =>
    hub.fills.getD ((hub.fillHead + fillKeep - hub.fillCount + i) % fillKeep) {}

end DashboardHub

end LockfreeMatching
