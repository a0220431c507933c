import LockfreeMatching.Feed.FeedHandler

/-!
# The depth a feed describes

The meaning of the exchange's frames, without orders and ids: a quantity for every side and
price. A well-formed row of an update sets its level, a snapshot clears everything and then
sets its levels, and nothing else has an effect.

`changeRow_toOption` and `priceSizeRow_toOption` say that the handler reads rows as this
semantics does, and `Sink.parse_cases` what it does with them.
-/
namespace LockfreeMatching

/-! ## Reference semantics -/

/-- Aggregated depth, zero where there is no level. -/
abbrev Depth := LevelKey → Quantity

def Element.isString : Element → Bool
  | .string _ => true
  | _ => false

/-- A price within the book together with a size. -/
def Conversions.level (conv : Conversions) (price size : String) : Option (Int × Quantity) := do
  let p ← conv.ticks price
  let qty ← conv.lots size
  if 0 < p ∧ p < maxPriceTicks then some (p, qty) else none

/-- What a well-formed row of an update says. -/
def updateRow (conv : Conversions) : Element → Option (LevelKey × Quantity)
  | .array (.string side :: .string price :: .string size :: more) =>
    if more.all Element.isString then do
      let side ← (parseSide side).toOption
      let (price, qty) ← conv.level price size
      some (⟨price, side⟩, qty)
    else none
  | _ => none

/-- What a well-formed row of a snapshot says. -/
def snapshotRow (conv : Conversions) (side : Side) : Element → Option (LevelKey × Quantity)
  | .array (.string price :: .string size :: more) =>
    if more.all Element.isString then
      (conv.level price size).map fun l => (⟨l.1, side⟩, l.2)
    else none
  | _ => none

/-- Frames that concern the depth; everything else is `other`. -/
inductive Frame where
  | update (changes : List Element)
  | snapshot (bids asks : List Element)
  | other

def frameOf (conv : Conversions) (raw : String) : Frame :=
  match (conv.parse raw).bind fun doc =>
      ((doc.atKey "type").bind Element.getString).map (doc, ·) with
  | some (doc, type) =>
    if type = "l2update" then
      match (doc.atKey "changes").bind Element.getArray with
      | some changes => .update changes
      | none => .other
    else if type = "snapshot" then
      .snapshot (((doc.atKey "bids").bind Element.getArray).getD [])
        (((doc.atKey "asks").bind Element.getArray).getD [])
    else .other
  | none => .other

namespace Depth

def zero : Depth := fun _ => 0

/-- An update sets its level, whatever the quantity. -/
def change (conv : Conversions) (d : Depth) (row : Element) : Depth :=
  match updateRow conv row with
  | some (key, qty) => Function.update d key qty
  | none => d

/-- A row of a snapshot sets its level, unless its quantity is zero. -/
def place (conv : Conversions) (side : Side) (d : Depth) (row : Element) : Depth :=
  match snapshotRow conv side row with
  | some (key, qty) => if qty = 0 then d else Function.update d key qty
  | none => d

def frame (conv : Conversions) (d : Depth) : Frame → Depth
  | .update changes => changes.foldl (change conv) d
  | .snapshot bids asks => asks.foldl (place conv .ask) (bids.foldl (place conv .bid) zero)
  | .other => d

/-- The depth described by a sequence of frames. -/
def run (conv : Conversions) (d : Depth) (arrivals : List Arrival) : Depth :=
  arrivals.foldl (fun d a => d.frame conv (frameOf conv a.raw)) d

end Depth

/-! ## Rows and frames -/

theorem toOption_bind {E A B : Type} (x : Except E A) (f : A → Except E B) :
    (x >>= f).toOption = x.toOption.bind fun a => (f a).toOption := by
  cases x <;> rfl

theorem mapM_getString {row : List Element} {strings : List String} :
    row.mapM Element.getString = some strings ↔ row = strings.map .string := by
  induction row generalizing strings with
  | nil => cases strings <;> simp
  | cons e row ih =>
    cases e with
    | string a =>
      rw [List.mapM_cons]
      cases hr : row.mapM Element.getString with
      | none => cases strings <;> simp [Element.getString, ← ih, hr]
      | some l => cases strings <;> simp [Element.getString, ← ih, hr]
    | _ => cases strings <;> simp [Element.getString]

/-- A row is read as strings when it is an array of nothing else. -/
theorem rowStrings_eq_ok {row : Element} {strings : List String} :
    rowStrings row = .ok strings ↔ row = .array (strings.map .string) := by
  unfold rowStrings
  cases row with
  | array elements =>
    rw [Element.array.injEq, ← mapM_getString]
    cases h : elements.mapM Element.getString <;> simp [Element.getArray, h]
  | _ => simp [Element.getArray]

theorem all_isString {row : List Element} :
    row.all Element.isString ↔ ∃ strings : List String, row = strings.map .string := by
  induction row with
  | nil => exact ⟨fun _ => ⟨[], rfl⟩, fun _ => rfl⟩
  | cons e row ih =>
    cases e with
    | string a =>
      simp only [List.all_cons, Element.isString, Bool.true_and, ih]
      constructor
      · rintro ⟨strings, rfl⟩
        exact ⟨a :: strings, rfl⟩
      · rintro ⟨strings, hs⟩
        cases strings with
        | nil => cases hs
        | cons b strings => exact ⟨strings, (List.cons.inj hs).2⟩
    | _ =>
      simp only [List.all_cons, Element.isString, Bool.false_and, Bool.false_eq_true, false_iff]
      rintro ⟨strings, hs⟩
      cases strings <;> cases hs

theorem toTicks_toLots (conv : Conversions) (price size : String) :
    ((toTicks conv price).toOption.bind fun p => (toLots conv size).toOption.map (p, ·)) =
      conv.level price size := by
  unfold toTicks toLots Conversions.level
  cases conv.ticks price with
  | none => rfl
  | some p =>
    by_cases hp : p ≤ 0 ∨ maxPriceTicks ≤ p
    · have hrange : ¬ (0 < p ∧ p < maxPriceTicks) := by omega
      cases conv.lots size <;> simp [hp, hrange, Except.toOption]
    · have hrange : 0 < p ∧ p < maxPriceTicks := by omega
      cases conv.lots size <;> simp [hp, hrange, Except.toOption]

theorem rowStrings_toOption_of_not_all {row : List Element} (h : ¬ row.all Element.isString) :
    (rowStrings (.array row)).toOption = none := by
  cases hr : rowStrings (.array row) with
  | error e => rfl
  | ok strings =>
    have hrow := rowStrings_eq_ok.1 hr
    rw [Element.array.injEq] at hrow
    exact absurd (all_isString.2 ⟨strings, hrow⟩) h

/-- The handler reads a row of an update as the reference does. -/
theorem changeRow_toOption (conv : Conversions) (row : Element) :
    (changeRow conv row).toOption = updateRow conv row := by
  rw [changeRow, toOption_bind]
  unfold updateRow
  split
  · rename_i side price size more
    split_ifs with hall
    · obtain ⟨strings, rfl⟩ := all_isString.1 hall
      have hrow : rowStrings (.array (.string side :: .string price :: .string size ::
          strings.map .string)) = .ok (side :: price :: size :: strings) :=
        rowStrings_eq_ok.2 rfl
      rw [hrow, ← toTicks_toLots]
      simp only [Except.toOption, Option.bind_some]
      cases parseSide side <;> cases toTicks conv price <;> cases toLots conv size <;> rfl
    · rw [rowStrings_toOption_of_not_all (by simpa [Element.isString] using hall)]
      rfl
  · rename_i hshape
    cases hr : rowStrings row with
    | error e => rfl
    | ok strings =>
      match strings with
      | side :: price :: size :: strings =>
        exact absurd (rowStrings_eq_ok.1 hr) (hshape _ _ _ _)
      | [] | [_] | [_, _] => rfl

/-- The handler reads a row of a snapshot as the reference does. -/
theorem priceSizeRow_toOption (conv : Conversions) (side : Side) (row : Element) :
    (priceSizeRow conv side row).toOption = snapshotRow conv side row := by
  rw [priceSizeRow, toOption_bind]
  unfold snapshotRow
  split
  · rename_i price size more
    split_ifs with hall
    · obtain ⟨strings, rfl⟩ := all_isString.1 hall
      have hrow : rowStrings (.array (.string price :: .string size :: strings.map .string)) =
          .ok (price :: size :: strings) := rowStrings_eq_ok.2 rfl
      rw [hrow, ← toTicks_toLots]
      simp only [Except.toOption, Option.bind_some]
      cases toTicks conv price <;> cases toLots conv size <;> rfl
    · rw [rowStrings_toOption_of_not_all (by simpa [Element.isString] using hall)]
      rfl
  · rename_i hshape
    cases hr : rowStrings row with
    | error e => rfl
    | ok strings =>
      match strings with
      | price :: size :: strings => exact absurd (rowStrings_eq_ok.1 hr) (hshape _ _ _)
      | [] | [_] => rfl

theorem Sink.consumeSide_eq (conv : Conversions) (s : Sink) (levels : Option (List Element))
    (side : Side) (ts : Timestamp) :
    s.consumeSide conv levels side ts =
      s.consumePriceSizeArray conv (levels.getD []) side ts true := by
  cases levels <;> rfl

/-- What a frame does, by what it says. -/
theorem Sink.parse_cases (conv : Conversions) (s : Sink) (a : Arrival) :
    match frameOf conv a.raw with
    | .update changes => (s.parse conv a).1 = s.consumeChanges conv changes a.ts
    | .snapshot bids asks => (s.parse conv a).1 =
        ((s.resetBook a.ts a.iteration).consumePriceSizeArray conv bids .bid a.ts true
          ).consumePriceSizeArray conv asks .ask a.ts true
    | .other => ∃ h, (s.parse conv a).1 = { s with handler := h } ∧
        h.live = s.handler.live ∧ h.nextId = s.handler.nextId := by
  unfold frameOf parse
  cases conv.parse a.raw with
  | none => exact ⟨_, rfl, rfl, rfl⟩
  | some doc =>
    cases htype : (doc.atKey "type").bind Element.getString with
    | none =>
      simp only [Option.bind_some, htype, Option.map_none]
      exact ⟨_, rfl, rfl, rfl⟩
    | some type =>
      simp only [Option.bind_some, htype, Option.map_some]
      by_cases hupdate : type = "l2update"
      · cases hchanges : (doc.atKey "changes").bind Element.getArray with
        | none =>
          simp only [hupdate, if_true]
          exact ⟨_, rfl, rfl, rfl⟩
        | some changes => simp only [hupdate, if_true]
      · by_cases hsnapshot : type = "snapshot"
        · simp only [hsnapshot, String.reduceEq, if_false, if_true, consumeSide_eq]
        · by_cases htrade : type = "match" ∨ type = "last_match"
          · simp only [hupdate, hsnapshot, htrade, if_false, if_true]
            refine ⟨_, rfl, ?_, ?_⟩ <;>
              cases (doc.atKey "sequence").bind Element.getUint64 <;> rfl
          · simp only [hupdate, hsnapshot, htrade, if_false]
            exact ⟨_, rfl, rfl, rfl⟩

end LockfreeMatching
