import LockfreeMatching.Core.Types
import Mathlib.Data.List.AList

/-!
# The feed handler

Exchange frames in, engine messages out. The feed is aggregated depth, a quantity per side and
price, and the handler keeps one synthetic order alive per non-empty level: every change of a
level cancels the old order and places a new one.

JSON parsing and the conversions of decimal strings through doubles are parameters. Row
errors, counters and the hash map are modelled as they are; the order in which the map is
iterated is arbitrary.
-/
namespace LockfreeMatching

/-- A parsed document. `uint64` is any number that reads as one. -/
inductive Element where
  | object (fields : List (String × Element))
  | array (elements : List Element)
  | string (s : String)
  | uint64 (n : UInt64)
  | other
  deriving Repr

namespace Element

/-- The first field of that name; an error on anything but an object. -/
def atKey (key : String) : Element → Option Element
  | .object fields => fields.lookup key
  | _ => none

def getArray : Element → Option (List Element)
  | .array elements => some elements
  | _ => none

def getString : Element → Option String
  | .string s => some s
  | _ => none

def getUint64 : Element → Option UInt64
  | .uint64 n => some n
  | _ => none

end Element

/-- The conversions the handler relies on: the JSON parser, a decimal string to ticks
(`parse_double`, then `dollars_to_ticks`), and a decimal string to lots. -/
structure Conversions where
  parse : String → Option Element
  ticks : String → Option Int
  lots : String → Option Quantity

/-! ## Rows -/

/-- Why a row is not applied. -/
inductive RowError where
  | malformed
  | outOfRange
  deriving DecidableEq, Repr

structure LevelKey where
  price : Int := 0
  side : Side := .bid
  deriving DecidableEq, Repr

def toTicks (conv : Conversions) (s : String) : Except RowError Int :=
  match conv.ticks s with
  | none => .error .malformed
  | some p => if p ≤ 0 ∨ maxPriceTicks ≤ p then .error .outOfRange else .ok p

def toLots (conv : Conversions) (s : String) : Except RowError Quantity :=
  match conv.lots s with
  | none => .error .malformed
  | some qty => .ok qty

def parseSide (s : String) : Except RowError Side :=
  if s = "buy" ∨ s = "bid" then .ok .bid
  else if s = "sell" ∨ s = "ask" then .ok .ask
  else .error .malformed

/-- The strings of a row. One element of another type spoils the whole row, also past the
fields that are read. -/
def rowStrings (row : Element) : Except RowError (List String) :=
  match row.getArray.bind (·.mapM Element.getString) with
  | none => .error .malformed
  | some strings => .ok strings

/-- A row of a snapshot: price and size. -/
def priceSizeRow (conv : Conversions) (side : Side) (row : Element) :
    Except RowError (LevelKey × Quantity) := do
  match ← rowStrings row with
  | price :: size :: _ =>
    let price ← toTicks conv price
    let qty ← toLots conv size
    return (⟨price, side⟩, qty)
  | _ => throw .malformed

/-- A row of an update: side, price and size. -/
def changeRow (conv : Conversions) (row : Element) : Except RowError (LevelKey × Quantity) := do
  match ← rowStrings row with
  | side :: price :: size :: _ =>
    let side ← parseSide side
    let price ← toTicks conv price
    let qty ← toLots conv size
    return (⟨price, side⟩, qty)
  | _ => throw .malformed

/-! ## State -/

/-- The live levels with the id of the order that stands for each. -/
abbrev LiveMap := AList fun _ : LevelKey => OrderId

structure FeedHandler where
  live : LiveMap := ∅
  nextId : OrderId := 1
  lastSequence : UInt64 := 0
  haveSequence : Bool := false
  malformed : UInt64 := 0
  sequenceGaps : UInt64 := 0
  ignored : UInt64 := 0
  skipped : UInt64 := 0

namespace FeedHandler

def noteSequence (h : FeedHandler) (seq : UInt64) : FeedHandler :=
  { h with
    sequenceGaps :=
      if h.haveSequence ∧ seq ≠ h.lastSequence + 1 then h.sequenceGaps + 1 else h.sequenceGaps
    haveSequence := true
    lastSequence := seq }

/-- Count a row or frame that is not applied. -/
def reject (h : FeedHandler) : RowError → FeedHandler
  | .malformed => { h with malformed := h.malformed + 1 }
  | .outOfRange => { h with skipped := h.skipped + 1 }

def ignore (h : FeedHandler) : FeedHandler := { h with ignored := h.ignored + 1 }

def liveLevels (h : FeedHandler) : UInt64 := .ofNat h.live.entries.length

end FeedHandler

/-- An order in which a hash map with given entries may be iterated. -/
abbrev Iteration :=
  {order : List (Sigma fun _ : LevelKey => OrderId) → List (Sigma fun _ : LevelKey => OrderId) //
    ∀ entries, (order entries).Perm entries}

def Iteration.inOrder : Iteration := ⟨id, List.Perm.refl⟩

/-- A frame as it arrives: its text, the clock, and how the map is iterated then. -/
structure Arrival where
  raw : String
  ts : Timestamp := 0
  iteration : Iteration := Iteration.inOrder

/-- A handler together with the vector it appends to. -/
structure Sink where
  handler : FeedHandler := {}
  out : List EngineMessage := []

namespace Sink

/-- Cancel the order of a level, if it has one. -/
def clearLevel (s : Sink) (key : LevelKey) (ts : Timestamp) : Sink :=
  match s.handler.live.lookup key with
  | some id =>
    { handler := { s.handler with live := s.handler.live.erase key }
      out := s.out ++ [.cancel { id, timestamp := ts }] }
  | none => s

/-- Place the order of a level under the next id. Emplacing keeps an entry that is there. -/
def openLevel (s : Sink) (key : LevelKey) (qty : Quantity) (ts : Timestamp) : Sink where
  handler := { s.handler with
    nextId := s.handler.nextId + 1
    live := if key ∈ s.handler.live then s.handler.live
      else s.handler.live.insert key s.handler.nextId }
  out := s.out ++ [.newOrder {
    id := s.handler.nextId, side := key.side, type := .limit, price := key.price,
    quantity := qty, timestamp := ts }]

def applyLevel (s : Sink) (key : LevelKey) (qty : Quantity) (ts : Timestamp) : Sink :=
  let s := s.clearLevel key ts
  if qty = 0 then s else s.openLevel key qty ts

def resetBook (s : Sink) (ts : Timestamp) (iteration : Iteration) : Sink where
  handler := { s.handler with live := ∅ }
  out := s.out ++
    (iteration.1 s.handler.live.entries).map fun e => .cancel { id := e.2, timestamp := ts }

def reject (s : Sink) (e : RowError) : Sink := { s with handler := s.handler.reject e }

def consumeRow (s : Sink) (skipZero : Bool) (ts : Timestamp) :
    Except RowError (LevelKey × Quantity) → Sink
  | .error e => s.reject e
  | .ok (key, qty) => if skipZero ∧ qty = 0 then s else s.applyLevel key qty ts

def consumePriceSizeArray (conv : Conversions) (s : Sink) (levels : List Element) (side : Side)
    (ts : Timestamp) (skipZero : Bool) : Sink :=
  levels.foldl (fun s row => s.consumeRow skipZero ts (priceSizeRow conv side row)) s

def consumeChanges (conv : Conversions) (s : Sink) (changes : List Element) (ts : Timestamp) :
    Sink :=
  changes.foldl (fun s row => s.consumeRow false ts (changeRow conv row)) s

/-- One side of a snapshot; a side that is missing or no array is passed over. -/
def consumeSide (conv : Conversions) (s : Sink) (levels : Option (List Element)) (side : Side)
    (ts : Timestamp) : Sink :=
  match levels with
  | some levels => s.consumePriceSizeArray conv levels side ts true
  | none => s

/-- Consume one frame. Also returns the number of messages appended. -/
def parse (conv : Conversions) (s : Sink) (a : Arrival) : Sink × Nat :=
  match conv.parse a.raw with
  | none => (s.reject .malformed, 0)
  | some doc =>
    match (doc.atKey "type").bind Element.getString with
    | none => (s.reject .malformed, 0)
    | some type =>
      if type = "l2update" then
        match (doc.atKey "changes").bind Element.getArray with
        | none => (s.reject .malformed, 0)
        | some changes =>
          let s' := s.consumeChanges conv changes a.ts
          (s', s'.out.length - s.out.length)
      else if type = "snapshot" then
        let s' := s.resetBook a.ts a.iteration
        let s' := s'.consumeSide conv ((doc.atKey "bids").bind Element.getArray) .bid a.ts
        let s' := s'.consumeSide conv ((doc.atKey "asks").bind Element.getArray) .ask a.ts
        (s', s'.out.length - s.out.length)
      else if type = "match" ∨ type = "last_match" then
        -- trades only carry the sequence number: the book is driven by depth alone
        let h := match (doc.atKey "sequence").bind Element.getUint64 with
          | some seq => s.handler.noteSequence seq
          | none => s.handler
        ({ s with handler := h.ignore }, 0)
      else ({ s with handler := s.handler.ignore }, 0)

/-- Consume frames one after the other, collecting all messages. -/
def run (conv : Conversions) (s : Sink) (arrivals : List Arrival) : Sink :=
  arrivals.foldl (fun s a => (s.parse conv a).1) s

end Sink

end LockfreeMatching
