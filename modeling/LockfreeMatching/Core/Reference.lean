import LockfreeMatching.Core.MatchingEngine
import LockfreeMatching.Lib.StableSort

/-!
# Reference: price-time-priority matching

The abstract book keeps, for each side, the resting orders in arrival order and nothing
else: no array, no links, no cached prices. An incoming order walks the opposite side
sorted by price, a stable sort leaving orders of one price in arrival order, and takes what
it can from each until it is satisfied, the side is exhausted, or its limit is reached.

This module states what the engine is for. It is compared with the engine in
`Core.Refinement`; facts about it alone are lemmas about lists.

## Main results

* `matchSide_step`: a walk can be taken one order at a time, the best one first.
* `matchSide_stop`: when it ends.
-/
namespace LockfreeMatching

open Lib

/-- A resting order of one side. -/
structure Resting where
  id : OrderId
  price : Int
  remaining : Quantity
  deriving DecidableEq, Repr

/-- Resting orders per side, in arrival order. -/
abbrev RefBook := Side → List Resting

/-- On side `s` price `a` is at least as good for a taker as price `b`. -/
def before : Side → Int → Int → Prop
  | .ask, a, b => a ≤ b
  | .bid, a, b => b ≤ a

instance (s : Side) : DecidableRel (before s) := fun a b => by
  cases s
  · exact inferInstanceAs (Decidable (b ≤ a))
  · exact inferInstanceAs (Decidable (a ≤ b))

/-- Price priority between resting orders. -/
def priority (s : Side) (a b : Resting) : Prop := before s a.price b.price

instance (s : Side) : DecidableRel (priority s) := fun a b =>
  inferInstanceAs (Decidable (before s a.price b.price))

/-- Take from each order in turn; `beyond` tells which prices are past the limit. Returns
what was taken from whom and what is left of the quantity. -/
def walk (beyond : Int → Bool) : List Resting → Quantity → List (Resting × Quantity) × Quantity
  | [], left => ([], left)
  | r :: rs, left =>
    if left = 0 ∨ beyond r.price then ([], left)
    else
      let w := walk beyond rs (left - min left r.remaining)
      ((r, min left r.remaining) :: w.1, w.2)

/-- Execute `qty` of order `id`: a partly filled order keeps its place, a completely filled
one disappears. -/
def execute (side : List Resting) (id : OrderId) (qty : Quantity) : List Resting :=
  side.filterMap fun r =>
    if r.id = id then
      if r.remaining ≤ qty then none else some { r with remaining := r.remaining - qty }
    else some r

/-- Execute everything a walk took. -/
def settle (side : List Resting) (takes : List (Resting × Quantity)) : List Resting :=
  takes.foldl (fun side t => execute side t.1.id t.2) side

/-- What is traded, what stays on the side, and what is left of the incoming quantity. -/
structure Matched where
  takes : List (Resting × Quantity)
  side : List Resting
  left : Quantity

/-- Match a quantity against one side. -/
def matchSide (s : Side) (beyond : Int → Bool) (side : List Resting) (qty : Quantity) :
    Matched :=
  let w := walk beyond (side.insertionSort (priority s)) qty
  { takes := w.1, side := settle side w.1, left := w.2 }

/-- Prices an incoming order does not trade at. -/
def beyondLimit (msg : NewOrderMessage) (p : Int) : Bool :=
  decide (msg.type = .limit ∧ ¬ before msg.side.opposite p msg.price)

/-- The fill an incoming order generates against a resting one. -/
def fillOf (msg : NewOrderMessage) (t : Resting × Quantity) : Fill where
  aggressiveId := msg.id
  passiveId := t.1.id
  price := t.1.price
  quantity := t.2
  timestamp := msg.timestamp
  aggressorSide := msg.side

namespace RefBook

def empty : RefBook := fun _ => []

/-- Some resting order carries `id`. -/
def holds (ref : RefBook) (id : OrderId) : Prop := ∃ s, ∃ r ∈ ref s, r.id = id

def size (ref : RefBook) : Nat := (ref .bid).length + (ref .ask).length

instance (ref : RefBook) (id : OrderId) : Decidable (ref.holds id) :=
  decidable_of_iff ((∃ r ∈ ref .bid, r.id = id) ∨ ∃ r ∈ ref .ask, r.id = id) (by
    constructor
    · rintro (h | h)
      exacts [⟨.bid, h⟩, ⟨.ask, h⟩]
    · rintro ⟨s, h⟩
      cases s
      exacts [.inl h, .inr h])

/-- An order that is not looked at: nothing to trade, or a limit outside the price range. -/
def ignored (msg : NewOrderMessage) : Prop :=
  msg.quantity = 0 ∨ (msg.type = .limit ∧ ¬ (0 ≤ msg.price ∧ msg.price < maxPriceTicks))

instance (msg : NewOrderMessage) : Decidable (ignored msg) :=
  inferInstanceAs (Decidable (_ ∨ _))

/-- Append a limit remainder, if its id is not resting and there is room for it. -/
def rest (ref : RefBook) (msg : NewOrderMessage) (left : Quantity) : RefBook :=
  if msg.type = .limit ∧ 0 < left ∧ ¬ ref.holds msg.id ∧ ref.size < orderPoolSize then
    Function.update ref msg.side (ref msg.side ++ [⟨msg.id, msg.price, left⟩])
  else ref

def newOrder (ref : RefBook) (msg : NewOrderMessage) : RefBook × List Fill :=
  if ignored msg then (ref, [])
  else
    let opp := msg.side.opposite
    let m := matchSide opp (beyondLimit msg) (ref opp) msg.quantity
    (RefBook.rest (Function.update ref opp m.side) msg m.left, m.takes.map (fillOf msg))

def cancel (ref : RefBook) (id : OrderId) : RefBook := fun s => (ref s).filter (·.id ≠ id)

def process (ref : RefBook) : EngineMessage → RefBook × List Fill
  | .newOrder msg => ref.newOrder msg
  | .cancel msg => (ref.cancel msg.id, [])

end RefBook

/-! ## Price priority -/

theorem before_refl (s : Side) (a : Int) : before s a a := by cases s <;> simp [before]

theorem before_trans {s : Side} {a b c : Int} (h : before s a b) (h' : before s b c) :
    before s a c := by
  cases s <;> simp only [before] at * <;> omega

theorem before_antisymm {s : Side} {a b : Int} (h : before s a b) (h' : before s b a) :
    a = b := by
  cases s <;> simp only [before] at * <;> omega

instance (s : Side) : IsTrans Resting (priority s) := ⟨fun _ _ _ => before_trans⟩

instance (s : Side) : Std.Total (priority s) := ⟨fun a b => by
  cases s <;> simp only [priority, before] <;> omega⟩

/-- Distinct ids per side and across the sides: an id is carried by one order only. -/
theorem RefBook.entry_unique {ref : RefBook} (hids : ∀ s, ((ref s).map (·.id)).Nodup)
    (hsides : ∀ r ∈ ref .bid, ∀ r' ∈ ref .ask, r.id ≠ r'.id) {s t : Side} {r r' : Resting}
    (hr : r ∈ ref s) (hr' : r' ∈ ref t) (hid : r.id = r'.id) : s = t ∧ r = r' := by
  have hside : s = t := by
    cases s <;> cases t
    · rfl
    · exact absurd hid (hsides r hr r' hr')
    · exact absurd hid.symm (hsides r' hr' r hr)
    · rfl
  subst hside
  exact ⟨rfl, List.inj_on_of_nodup_map (hids s) hr hr' hid⟩

/-! ## Executing against one order -/

theorem execute_of_notMem {side : List Resting} {id : OrderId} (qty : Quantity)
    (h : ∀ r ∈ side, r.id ≠ id) : execute side id qty = side := by
  induction side with
  | nil => rfl
  | cons r rs ih =>
    have hr : r.id ≠ id := h r (by simp)
    have := ih fun a ha => h a (by simp [ha])
    simp only [execute] at this
    simp [execute, hr, this]

theorem execute_ids (side : List Resting) (id : OrderId) (qty : Quantity) :
    ((execute side id qty).map (·.id)).Sublist (side.map (·.id)) := by
  induction side with
  | nil => exact List.Sublist.refl _
  | cons r rs ih =>
    unfold execute at ih ⊢
    rw [List.filterMap_cons]
    split
    · exact ih.cons _
    · rename_i a ha
      have hid : a.id = r.id := by
        split_ifs at ha <;> cases ha <;> rfl
      rw [List.map_cons, List.map_cons, hid]
      exact ih.cons_cons _

theorem execute_eq_filter {side : List Resting} {id : OrderId} {qty : Quantity}
    (h : ∀ r ∈ side, r.id = id → r.remaining ≤ qty) :
    execute side id qty = side.filter (·.id ≠ id) := by
  induction side with
  | nil => rfl
  | cons r rs ih =>
    have := ih fun a ha => h a (by simp [ha])
    simp only [execute] at this ⊢
    by_cases hr : r.id = id
    · simp [hr, h r (by simp) hr, this]
    · simp [hr, this]

/-- Executing changes no price. -/
theorem filter_execute (side : List Resting) (id : OrderId) (qty : Quantity) (p : Int) :
    (execute side id qty).filter (·.price = p) = execute (side.filter (·.price = p)) id qty := by
  rw [execute, execute, List.filterMap_filter, List.filter_filterMap]
  refine List.filterMap_congr fun r _ => ?_
  by_cases hp : r.price = p <;> by_cases hid : r.id = id <;>
    by_cases hle : r.remaining ≤ qty <;> simp [Option.filter, hp, hid, hle]

/-! ## Changing one side -/

namespace RefBook

variable {ref : RefBook} {s t : Side} {a b : Resting}

theorem mem_append : a ∈ Function.update ref s (ref s ++ [b]) t ↔ a ∈ ref t ∨ (t = s ∧ a = b) := by
  by_cases hts : t = s
  · subst hts
    simp
  · simp [hts]

theorem ids_append (hids : ∀ s, ((ref s).map (·.id)).Nodup) (hnew : ¬ ref.holds b.id) :
    ((Function.update ref s (ref s ++ [b]) t).map (·.id)).Nodup := by
  by_cases hts : t = s
  · subst hts
    rw [Function.update_self, List.map_append]
    refine List.nodup_append.2 ⟨hids _, by simp, ?_⟩
    rintro i hi j hj rfl
    obtain ⟨r, hr, rfl⟩ := List.mem_map.1 hi
    exact hnew ⟨_, r, hr, by simpa using hj⟩
  · rw [Function.update_of_ne hts]
    exact hids t

theorem sides_append (hsides : ∀ r ∈ ref .bid, ∀ r' ∈ ref .ask, r.id ≠ r'.id)
    (hnew : ¬ ref.holds b.id) : ∀ r ∈ Function.update ref s (ref s ++ [b]) .bid,
      ∀ r' ∈ Function.update ref s (ref s ++ [b]) .ask, r.id ≠ r'.id := by
  intro r hr r' hr' hid
  rw [mem_append] at hr hr'
  rcases hr with hr | ⟨hs, rfl⟩
  · rcases hr' with hr' | ⟨-, rfl⟩
    · exact hsides r hr r' hr' hid
    · exact hnew ⟨_, r, hr, hid⟩
  · rcases hr' with hr' | ⟨hs', -⟩
    · exact hnew ⟨_, r', hr', hid.symm⟩
    · grind

theorem cancel_of_not_holds {id : OrderId} (hid : ¬ ref.holds id) : ref.cancel id = ref := by
  funext s
  rw [cancel, List.filter_eq_self]
  intro r hr
  rw [decide_eq_true_eq]
  exact fun he => hid ⟨s, r, hr, he⟩

variable {side : List Resting}

/-- A side with fewer ids. -/
theorem ids_update (hids : ∀ s, ((ref s).map (·.id)).Nodup)
    (hside : (side.map (·.id)).Sublist ((ref s).map (·.id))) :
    ((Function.update ref s side t).map (·.id)).Nodup := by
  by_cases hts : t = s
  · subst hts
    rw [Function.update_self]
    exact (hids t).sublist hside
  · rw [Function.update_of_ne hts]
    exact hids t

theorem mem_update_ids (hside : (side.map (·.id)).Sublist ((ref s).map (·.id)))
    (ha : a ∈ Function.update ref s side t) : ∃ r ∈ ref t, r.id = a.id := by
  by_cases hts : t = s
  · subst hts
    rw [Function.update_self] at ha
    exact List.mem_map.1 (hside.subset (List.mem_map_of_mem ha))
  · rw [Function.update_of_ne hts] at ha
    exact ⟨a, ha, rfl⟩

theorem sides_update (hsides : ∀ r ∈ ref .bid, ∀ r' ∈ ref .ask, r.id ≠ r'.id)
    (hside : (side.map (·.id)).Sublist ((ref s).map (·.id))) :
    ∀ r ∈ Function.update ref s side .bid, ∀ r' ∈ Function.update ref s side .ask,
      r.id ≠ r'.id := by
  intro r hr r' hr'
  obtain ⟨b, hb, hid⟩ := mem_update_ids hside hr
  obtain ⟨b', hb', hid'⟩ := mem_update_ids hside hr'
  rw [← hid, ← hid']
  exact hsides b hb b' hb'

end RefBook

/-! ## Unfolding a walk -/

theorem walk_zero (beyond : Int → Bool) (l : List Resting) : walk beyond l 0 = ([], 0) := by
  cases l <;> simp [walk]

theorem matchSide_stop {s : Side} {beyond : Int → Bool} {side : List Resting} {qty : Quantity}
    (h : qty = 0 ∨ ∀ r ∈ side, beyond r.price = true) :
    matchSide s beyond side qty = { takes := [], side, left := qty } := by
  have hw : walk beyond (side.insertionSort (priority s)) qty = ([], qty) := by
    cases hl : side.insertionSort (priority s) with
    | nil => rfl
    | cons r rs =>
      rcases h with rfl | h
      · exact walk_zero _ _
      · have hr : beyond r.price = true := by
          apply h
          rw [← List.mem_insertionSort (priority s), hl]
          simp
        simp [walk, hr]
  simp [matchSide, hw, settle]

/-- The rest of the walk, after the best order was executed. -/
theorem walk_execute {s : Side} (beyond : Int → Bool) {side : List Resting} {r : Resting}
    {rs : List Resting} (qty : Quantity) (hsort : side.insertionSort (priority s) = r :: rs)
    (hids : (side.map (·.id)).Nodup) :
    walk beyond ((execute side r.id (min qty r.remaining)).insertionSort (priority s))
      (qty - min qty r.remaining) = walk beyond rs (qty - min qty r.remaining) := by
  have hr := (insertionSort_head hsort).1
  have huniq : ∀ a ∈ side, a.id = r.id → a = r := by
    intro a ha he
    exact List.inj_on_of_nodup_map hids ha hr he
  by_cases hle : r.remaining ≤ qty
  · -- completely filled: the order leaves the side and the sorted list
    have hmin : min qty r.remaining = r.remaining := quantity_min_right hle
    rw [hmin, execute_eq_filter fun a ha he => (huniq a ha he) ▸ UInt32.le_refl _,
      ← filter_insertionSort, hsort]
    have hperm := (List.perm_insertionSort (priority s) side).map (·.id)
    rw [hsort] at hperm
    have hnodup := hperm.nodup_iff.2 hids
    rw [List.map_cons, List.nodup_cons] at hnodup
    have hrs : rs.filter (fun a => decide (a.id ≠ r.id)) = rs := by
      rw [List.filter_eq_self]
      intro a ha
      rw [decide_eq_true_eq]
      rintro he
      exact hnodup.1 (he ▸ List.mem_map_of_mem ha)
    rw [List.filter_cons_of_neg (by simp), hrs]
  · -- partly filled: nothing is left to walk with
    have hmin : min qty r.remaining = qty := quantity_min_left hle
    rw [hmin, show qty - qty = 0 by grind, walk_zero, walk_zero]

/-- One order at a time: the best order is executed first, and the walk goes on from the
side that leaves. -/
theorem matchSide_step {s : Side} {beyond : Int → Bool} {side : List Resting} {r : Resting}
    {rs : List Resting} {qty : Quantity} (hsort : side.insertionSort (priority s) = r :: rs)
    (hids : (side.map (·.id)).Nodup) (hqty : qty ≠ 0) (hr : beyond r.price = false) :
    matchSide s beyond side qty =
      let m := matchSide s beyond (execute side r.id (min qty r.remaining))
        (qty - min qty r.remaining)
      { m with takes := (r, min qty r.remaining) :: m.takes } := by
  have hw := walk_execute beyond qty hsort hids
  simp only [matchSide, hw, hsort, walk, hqty, hr, Bool.false_eq_true, or_false, if_false, settle,
    List.foldl_cons]

end LockfreeMatching
