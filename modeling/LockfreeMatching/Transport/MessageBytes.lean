import LockfreeMatching.Core.Types
import LockfreeMatching.Lib.Records

/-!
# Messages as bytes

The messages are trivially copyable and are written to files as their raw bytes, laid out as on
x86-64: little-endian fields at multiples of their size. The gaps this leaves belong to no field,
so whatever is in them reaches the file and must not matter to a reader.
-/
namespace LockfreeMatching

open Lib

/-! ## Fields -/

/-- A price fits its 64-bit type. -/
def PriceFits (p : Int) : Prop := -9223372036854775808 ≤ p ∧ p < 9223372036854775808

def priceBytes (p : Int) : List UInt8 := leBytes 8 (p % 18446744073709551616).toNat

/-- Read a price in two's complement. -/
def priceOfBytes (bytes : List UInt8) : Int :=
  if leNat bytes < 9223372036854775808 then leNat bytes
  else leNat bytes - 18446744073709551616

def sideByte : Side → UInt8
  | .bid => 0
  | .ask => 1

/-- No enumerator has a value above 1. -/
def sideOfByte (b : UInt8) : Option Side :=
  if b = 0 then some .bid else if b = 1 then some .ask else none

def orderTypeByte : OrderType → UInt8
  | .limit => 0
  | .market => 1

def orderTypeOfByte (b : UInt8) : Option OrderType :=
  if b = 0 then some .limit else if b = 1 then some .market else none

@[simp] theorem length_priceBytes (p : Int) : (priceBytes p).length = 8 := length_leBytes 8 _

theorem priceOfBytes_priceBytes {p : Int} (h : PriceFits p) : priceOfBytes (priceBytes p) = p := by
  have hnat : leNat (priceBytes p) = (p % 18446744073709551616).toNat :=
    leNat_leBytes_of_lt (by omega)
  obtain ⟨hlow, hhigh⟩ := h
  rw [priceOfBytes, hnat]
  split <;> omega

@[simp] theorem ofNat_leNat_uint64 (x : UInt64) :
    UInt64.ofNat (leNat (leBytes 8 x.toNat)) = x := by
  rw [leNat_leBytes_of_lt x.toNat_lt, UInt64.ofNat_toNat]

@[simp] theorem ofNat_leNat_uint32 (x : UInt32) :
    UInt32.ofNat (leNat (leBytes 4 x.toNat)) = x := by
  rw [leNat_leBytes_of_lt x.toNat_lt, UInt32.ofNat_toNat]

@[simp] theorem sideOfByte_sideByte (s : Side) : sideOfByte (sideByte s) = some s := by
  cases s <;> rfl

@[simp] theorem orderTypeOfByte_orderTypeByte (t : OrderType) :
    orderTypeOfByte (orderTypeByte t) = some t := by
  cases t <;> rfl

/-! ## Messages -/

namespace NewOrderMessage

def byteSize : Nat := 40

/-- The gaps of the record. -/
structure Padding where
  afterType : Vector UInt8 6
  afterQuantity : Vector UInt8 4

def toBytes (pad : Padding) (m : NewOrderMessage) : List UInt8 :=
  leBytes 8 m.id.toNat ++ (sideByte m.side :: orderTypeByte m.type ::
    (pad.afterType.toList ++ (priceBytes m.price ++ (leBytes 4 m.quantity.toNat ++
      (pad.afterQuantity.toList ++ leBytes 8 m.timestamp.toNat)))))

def ofBytes (bytes : List UInt8) : Option NewOrderMessage :=
  (sideOfByte (bytes.getD 8 0)).bind fun side =>
    (orderTypeOfByte (bytes.getD 9 0)).map fun type =>
      { id := .ofNat (leNat (field bytes 0 8))
        side
        type
        price := priceOfBytes (field bytes 16 8)
        quantity := .ofNat (leNat (field bytes 24 4))
        timestamp := .ofNat (leNat (field bytes 32 8)) }

theorem length_toBytes (pad : Padding) (m : NewOrderMessage) :
    (toBytes pad m).length = byteSize := by
  simp [toBytes, byteSize]

theorem ofBytes_toBytes (pad : Padding) {m : NewOrderMessage} (h : PriceFits m.price) :
    ofBytes (toBytes pad m) = some m := by
  have hside : (toBytes pad m)[8]?.getD 0 = sideByte m.side := by simp [toBytes]
  have htype : (toBytes pad m)[9]?.getD 0 = orderTypeByte m.type := by simp [toBytes]
  have hid : field (toBytes pad m) 0 8 = leBytes 8 m.id.toNat := field_append_left (by simp)
  have hprice : field (toBytes pad m) 16 8 = priceBytes m.price := by
    simp (disch := simp) [toBytes, field_append_right, field_append_left]
  have hquantity : field (toBytes pad m) 24 4 = leBytes 4 m.quantity.toNat := by
    simp (disch := simp) [toBytes, field_append_right, field_append_left]
  have htimestamp : field (toBytes pad m) 32 8 = leBytes 8 m.timestamp.toNat := by
    simp (disch := simp) [toBytes, field_append_right, field_self]
  simp [ofBytes, hside, htype, hid, hprice, hquantity, htimestamp, priceOfBytes_priceBytes h]

end NewOrderMessage

namespace CancelMessage

def byteSize : Nat := 16

def toBytes (m : CancelMessage) : List UInt8 :=
  leBytes 8 m.id.toNat ++ leBytes 8 m.timestamp.toNat

def ofBytes (bytes : List UInt8) : CancelMessage where
  id := .ofNat (leNat (field bytes 0 8))
  timestamp := .ofNat (leNat (field bytes 8 8))

theorem length_toBytes (m : CancelMessage) : (toBytes m).length = byteSize := by
  simp [toBytes, byteSize]

theorem ofBytes_toBytes (m : CancelMessage) : ofBytes (toBytes m) = m := by
  simp (disch := simp) [ofBytes, toBytes, field_append_right, field_append_left, field_self]

end CancelMessage

namespace FillMessage

def byteSize : Nat := 48

structure Padding where
  afterQuantity : Vector UInt8 4
  afterSide : Vector UInt8 7

def toBytes (pad : Padding) (f : FillMessage) : List UInt8 :=
  leBytes 8 f.aggressiveId.toNat ++ (leBytes 8 f.passiveId.toNat ++ (priceBytes f.price ++
    (leBytes 4 f.quantity.toNat ++ (pad.afterQuantity.toList ++ (leBytes 8 f.timestamp.toNat ++
      (sideByte f.aggressorSide :: pad.afterSide.toList))))))

def ofBytes (bytes : List UInt8) : Option FillMessage :=
  (sideOfByte (bytes.getD 40 0)).map fun side =>
    { aggressiveId := .ofNat (leNat (field bytes 0 8))
      passiveId := .ofNat (leNat (field bytes 8 8))
      price := priceOfBytes (field bytes 16 8)
      quantity := .ofNat (leNat (field bytes 24 4))
      timestamp := .ofNat (leNat (field bytes 32 8))
      aggressorSide := side }

theorem length_toBytes (pad : Padding) (f : FillMessage) : (toBytes pad f).length = byteSize := by
  simp [toBytes, byteSize]

theorem ofBytes_toBytes (pad : Padding) {f : FillMessage} (h : PriceFits f.price) :
    ofBytes (toBytes pad f) = some f := by
  have hside : (toBytes pad f)[40]?.getD 0 = sideByte f.aggressorSide := by simp [toBytes]
  have haggressive : field (toBytes pad f) 0 8 = leBytes 8 f.aggressiveId.toNat :=
    field_append_left (by simp)
  have hpassive : field (toBytes pad f) 8 8 = leBytes 8 f.passiveId.toNat := by
    simp (disch := simp) [toBytes, field_append_right, field_append_left]
  have hprice : field (toBytes pad f) 16 8 = priceBytes f.price := by
    simp (disch := simp) [toBytes, field_append_right, field_append_left]
  have hquantity : field (toBytes pad f) 24 4 = leBytes 4 f.quantity.toNat := by
    simp (disch := simp) [toBytes, field_append_right, field_append_left]
  have htimestamp : field (toBytes pad f) 32 8 = leBytes 8 f.timestamp.toNat := by
    simp (disch := simp) [toBytes, field_append_right, field_append_left]
  simp [ofBytes, hside, haggressive, hpassive, hprice, hquantity, htimestamp,
    priceOfBytes_priceBytes h]

end FillMessage

end LockfreeMatching
