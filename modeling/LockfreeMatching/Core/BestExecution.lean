import LockfreeMatching.Core.Outcome
import LockfreeMatching.Lib.Greedy
import Mathlib.Algebra.Order.BigOperators.Group.List

/-!
# Best execution

The engine walks the opposite side price by price. Seen from the taker this is the best that could
be done with the orders resting there: as much as possible is traded, and for no other choice of
the same quantity would a buyer pay less or a seller get more.

## Main results

* `run_best_execution`: after any messages, for every order the engine looks at.
-/
namespace LockfreeMatching

open Lib MatchingEngine

/-- What one unit at price `p` costs the taker. A seller pays less the higher the price. -/
def costTo : Side → Int → Int
  | .bid, p => p
  | .ask, p => -p

theorem before_iff_costTo (s : Side) (a b : Int) :
    before s.opposite a b ↔ costTo s a ≤ costTo s b := by
  cases s <;> simp [before, costTo, Side.opposite]

/-- A way to execute an order against the resting ones: so much from each, nothing beyond the limit
and not more than the quantity of the order. -/
structure Feasible (msg : NewOrderMessage) (side : List Resting) (take : Resting → Nat) : Prop where
  remaining : ∀ r ∈ side, take r ≤ r.remaining.toNat
  limit : ∀ r ∈ side, beyondLimit msg r.price = true → take r = 0
  quantity : (side.map take).sum ≤ msg.quantity.toNat

/-- What an order can take from a resting one. -/
def withinLimit (msg : NewOrderMessage) (r : Resting) : Nat :=
  if beyondLimit msg r.price then 0 else r.remaining.toNat

theorem Feasible.le_withinLimit {msg : NewOrderMessage} {side : List Resting} {take : Resting → Nat}
    (h : Feasible msg side take) : ∀ r ∈ side, take r ≤ withinLimit msg r := by
  intro r hr
  unfold withinLimit
  split_ifs with hbeyond
  · exact (h.limit r hr hbeyond).le
  · exact h.remaining r hr

theorem feasible_of_le {msg : NewOrderMessage} {side : List Resting} {take : Resting → Nat}
    (h : ∀ r ∈ side, take r ≤ withinLimit msg r)
    (hquantity : (side.map take).sum ≤ msg.quantity.toNat) : Feasible msg side take where
  remaining r hr := (h r hr).trans (by unfold withinLimit; split_ifs <;> simp)
  limit r hr hbeyond := by simpa [withinLimit, hbeyond] using h r hr
  quantity := hquantity

theorem toNat_quantity_min (a b : Quantity) : (min a b).toNat = min a.toNat b.toNat := by
  by_cases h : b ≤ a
  · rw [quantity_min_right h, Nat.min_eq_right (UInt32.le_iff_toNat_le.1 h)]
  · rw [quantity_min_left h, Nat.min_eq_left]
    exact (UInt32.lt_iff_toNat_lt.1 (UInt32.not_le.1 h)).le

/-- A walk is a greedy allocation. -/
theorem walk_greedy {msg : NewOrderMessage} {l : List Resting}
    (hl : l.Pairwise (priority msg.side.opposite)) (cost : Resting → Int) (left : Quantity) :
    takeCount ((walk (beyondLimit msg) l left).1.map fun t => (t.1, t.2.toNat)) =
        takeCount (greedy (withinLimit msg) l left.toNat) ∧
      takeCost cost ((walk (beyondLimit msg) l left).1.map fun t => (t.1, t.2.toNat)) =
        takeCost cost (greedy (withinLimit msg) l left.toNat) := by
  induction l generalizing left with
  | nil => exact ⟨rfl, rfl⟩
  | cons r rs ih =>
    obtain ⟨hr, hrs⟩ := List.pairwise_cons.1 hl
    by_cases hstop : left = 0 ∨ beyondLimit msg r.price = true
    · -- nothing more is wanted, or all that follows is beyond the limit
      have hnothing : left.toNat = 0 ∨ ∀ a ∈ r :: rs, withinLimit msg a = 0 := by
        refine hstop.imp (by rintro rfl; rfl) fun hbeyond a ha => ?_
        rcases List.mem_cons.1 ha with rfl | ha
        · simp [withinLimit, hbeyond]
        · simp [withinLimit, beyondLimit_mono hbeyond (hr a ha)]
      obtain ⟨hcount, hcost⟩ := greedy_nothing (withinLimit msg) cost hnothing
      rw [hcount, hcost, walk, if_pos hstop]
      exact ⟨rfl, rfl⟩
    · have hwithin : withinLimit msg r = r.remaining.toNat := by
        simp [withinLimit, not_or.1 hstop]
      have hleft : (left - min left r.remaining).toNat =
          left.toNat - min left.toNat r.remaining.toNat := by
        rw [UInt32.toNat_sub_of_le, toNat_quantity_min]
        rw [UInt32.le_iff_toNat_le, toNat_quantity_min]
        exact Nat.min_le_left _ _
      obtain ⟨hcount, hcost⟩ := ih hrs (left - min left r.remaining)
      rw [hleft] at hcount hcost
      rw [walk, if_neg hstop]
      simp only [List.map_cons, takeCount_cons, takeCost_cons, greedy, hwithin, hcount, hcost,
        toNat_quantity_min, and_self]

/-! ## What the fills take -/

/-- The quantity that the fills take from a resting order. -/
def takenFrom (fills : List Fill) (r : Resting) : Nat :=
  ((fills.filter (·.passiveId = r.id)).map (·.quantity.toNat)).sum

theorem takenFrom_cons_of_eq {f : Fill} {r : Resting} (h : f.passiveId = r.id)
    (fills : List Fill) : takenFrom (f :: fills) r = f.quantity.toNat + takenFrom fills r := by
  simp [takenFrom, h]

theorem takenFrom_cons_of_ne {f : Fill} {r : Resting} (h : f.passiveId ≠ r.id)
    (fills : List Fill) : takenFrom (f :: fills) r = takenFrom fills r := by
  simp [takenFrom, h]

/-- Fills that name none of the orders take nothing from them. -/
theorem takenFrom_eq_zero {fills : List Fill} {r : Resting}
    (h : ∀ f ∈ fills, f.passiveId ≠ r.id) : takenFrom fills r = 0 := by
  have hnone : fills.filter (·.passiveId = r.id) = [] :=
    List.filter_eq_nil_iff.2 (by simpa using h)
  simp [takenFrom, hnone]

theorem sum_takenFrom_congr {fills fills' : List Fill} {l : List Resting}
    (h : ∀ r ∈ l, takenFrom fills r = takenFrom fills' r) :
    (l.map (takenFrom fills)).sum = (l.map (takenFrom fills')).sum :=
  congrArg List.sum (List.map_congr_left h)

/-- A walk takes from every order at most what it may, and nothing from others. -/
theorem walk_takenFrom (msg : NewOrderMessage) {l : List Resting} (hids : (l.map (·.id)).Nodup)
    (left : Quantity) :
    (∀ r ∈ l, takenFrom ((walk (beyondLimit msg) l left).1.map (fillOf msg)) r ≤
        withinLimit msg r) ∧
      (l.map (takenFrom ((walk (beyondLimit msg) l left).1.map (fillOf msg)))).sum =
        (((walk (beyondLimit msg) l left).1.map (fillOf msg)).map (·.quantity.toNat)).sum := by
  induction l generalizing left with
  | nil => simp [walk]
  | cons a as ih =>
    rw [List.map_cons, List.nodup_cons] at hids
    obtain ⟨ha, has⟩ := hids
    have hne : ∀ r ∈ as, a.id ≠ r.id := fun r hr he => ha (he ▸ List.mem_map_of_mem hr)
    by_cases hstop : left = 0 ∨ beyondLimit msg a.price = true
    · rw [walk, if_pos hstop]
      have hnothing : takenFrom [] = fun _ => 0 := rfl
      simp [hnothing]
    · rw [walk, if_neg hstop]
      obtain ⟨hle, hsum⟩ := ih has (left - min left a.remaining)
      -- the later takes name other orders
      have hlater : takenFrom ((walk (beyondLimit msg) as (left - min left a.remaining)).1.map
          (fillOf msg)) a = 0 := by
        refine takenFrom_eq_zero fun f hf => ?_
        obtain ⟨t, ht, rfl⟩ := List.mem_map.1 hf
        exact (hne t.1 (mem_walk ht).1).symm
      have hfirst := takenFrom_cons_of_eq (f := fillOf msg (a, min left a.remaining)) (r := a) rfl
        ((walk (beyondLimit msg) as (left - min left a.remaining)).1.map (fillOf msg))
      have hothers : ∀ r ∈ as, _ := fun r hr =>
        takenFrom_cons_of_ne (f := fillOf msg (a, min left a.remaining)) (hne r hr)
          ((walk (beyondLimit msg) as (left - min left a.remaining)).1.map (fillOf msg))
      have hcap : (min left a.remaining).toNat ≤ withinLimit msg a := by
        rw [withinLimit, if_neg (not_or.1 hstop).2, toNat_quantity_min]
        exact Nat.min_le_right _ _
      rw [List.map_cons]
      constructor
      · refine List.forall_mem_cons.2 ⟨?_, fun r hr => ?_⟩
        · rw [hfirst, hlater]
          exact hcap
        · rw [hothers r hr]
          exact hle r hr
      · rw [List.map_cons, List.sum_cons, hfirst, hlater, sum_takenFrom_congr hothers, hsum]
        simp

/-- The execution of an order. Its fills are at the prices of the orders they name and take from
these what is allowed, no allowed execution has more units, and none with as many costs less. -/
structure BestFor (msg : NewOrderMessage) (side : List Resting) (fills : List Fill) : Prop where
  named : ∀ f ∈ fills, f.aggressiveId = msg.id ∧
    ∃ r ∈ side, f.passiveId = r.id ∧ f.price = r.price
  feasible : Feasible msg side (takenFrom fills)
  whole : (side.map (takenFrom fills)).sum = (fills.map (·.quantity.toNat)).sum
  most : ∀ take, Feasible msg side take →
    (side.map take).sum ≤ (fills.map (·.quantity.toNat)).sum
  cheapest : ∀ take, Feasible msg side take →
    (side.map take).sum = (fills.map (·.quantity.toNat)).sum →
    (fills.map fun f => costTo msg.side f.price * f.quantity.toNat).sum ≤
      (side.map fun r => costTo msg.side r.price * take r).sum

section Matched

variable {msg : NewOrderMessage} {side : List Resting}

/-- The orders of the other side as the engine meets them. -/
def met (msg : NewOrderMessage) (side : List Resting) : List Resting :=
  side.insertionSort (priority msg.side.opposite)

/-- The fills of an order. -/
def fillsOf (msg : NewOrderMessage) (side : List Resting) : List Fill :=
  (matchSide msg.side.opposite (beyondLimit msg) side msg.quantity).takes.map (fillOf msg)

theorem met_perm (msg : NewOrderMessage) (side : List Resting) : (met msg side).Perm side :=
  List.perm_insertionSort _ _

theorem met_pairwise (msg : NewOrderMessage) (side : List Resting) :
    (met msg side).Pairwise (priority msg.side.opposite) := List.pairwise_insertionSort _ _

/-- The fills are the greedy allocation. -/
theorem fillsOf_greedy (msg : NewOrderMessage) (side : List Resting) :
    ((fillsOf msg side).map (·.quantity.toNat)).sum =
        takeCount (greedy (withinLimit msg) (met msg side) msg.quantity.toNat) ∧
      ((fillsOf msg side).map fun f => costTo msg.side f.price * f.quantity.toNat).sum =
        takeCost (fun r => costTo msg.side r.price)
          (greedy (withinLimit msg) (met msg side) msg.quantity.toNat) := by
  obtain ⟨hcount, hcost⟩ := walk_greedy (met_pairwise msg side)
    (fun r => costTo msg.side r.price) msg.quantity
  rw [← hcount, ← hcost]
  simp [takeCount, takeCost, fillsOf, matchSide, fillOf, Function.comp_def, met]

theorem fillsOf_named : ∀ f ∈ fillsOf msg side, f.aggressiveId = msg.id ∧
    ∃ r ∈ side, f.passiveId = r.id ∧ f.price = r.price := by
  intro f hf
  obtain ⟨t, ht, rfl⟩ := List.mem_map.1 hf
  exact ⟨rfl, t.1, (met_perm msg side).mem_iff.1 (mem_walk ht).1, rfl, rfl⟩

theorem fillsOf_takenFrom (msg : NewOrderMessage) (hids : (side.map (·.id)).Nodup) :
    (∀ r ∈ side, takenFrom (fillsOf msg side) r ≤ withinLimit msg r) ∧
      (side.map (takenFrom (fillsOf msg side))).sum =
        ((fillsOf msg side).map (·.quantity.toNat)).sum := by
  have hperm := met_perm msg side
  obtain ⟨hle, hsum⟩ := walk_takenFrom msg
    ((hperm.map (·.id)).nodup_iff.2 hids) msg.quantity
  refine ⟨fun r hr => hle r (hperm.mem_iff.2 hr), ?_⟩
  rw [← (hperm.map (takenFrom (fillsOf msg side))).sum_eq]
  exact hsum

theorem fillsOf_best (hids : (side.map (·.id)).Nodup) : BestFor msg side (fillsOf msg side) := by
  have hperm := met_perm msg side
  obtain ⟨hcount, hcost⟩ := fillsOf_greedy msg side
  obtain ⟨hwithin, hwhole⟩ := fillsOf_takenFrom msg hids
  refine ⟨fillsOf_named, feasible_of_le hwithin ?_, hwhole, fun take htake => ?_,
    fun take htake hequal => ?_⟩
  · rw [hwhole, hcount, greedy_takeCount]
    exact Nat.min_le_left _ _
  · have hle : (side.map take).sum ≤ (side.map (withinLimit msg)).sum :=
      List.sum_le_sum htake.le_withinLimit
    rw [← (hperm.map (withinLimit msg)).sum_eq] at hle
    rw [hcount, greedy_takeCount]
    exact Nat.le_min.2 ⟨htake.quantity, hle⟩
  · have hcosts : (met msg side).Pairwise fun a b =>
        costTo msg.side a.price ≤ costTo msg.side b.price :=
      (met_pairwise msg side).imp fun h => (before_iff_costTo msg.side _ _).1 h
    rw [hcount, ← (hperm.map take).sum_eq] at hequal
    rw [hcost, ← (hperm.map _).sum_eq]
    exact greedy_takeCost_le hcosts (fun r hr => htake.le_withinLimit r (hperm.mem_iff.1 hr)) hequal

end Matched

/-- After any messages, the fills of an order that the engine looks at are its best execution
against the orders resting on the other side. -/
theorem run_best_execution (msgs : List EngineMessage) {msg : NewOrderMessage}
    (hmsg : ¬ RefBook.ignored msg) :
    ∃ e e', new.run msgs = some e ∧ Shows e (RefBook.run .empty msgs) ∧
      e.process (.newOrder msg) = some e' ∧
      BestFor msg (RefBook.run .empty msgs msg.side.opposite) e'.fills := by
  obtain ⟨e, hrun, hsim⟩ := Simulates.new.run msgs
  obtain ⟨e', hstep, hfills, -⟩ := process_simulates hsim (.newOrder msg)
  have hids : ((RefBook.run .empty msgs msg.side.opposite).map (·.id)).Nodup := by
    obtain ⟨q, free, -, hviews⟩ := hsim
    exact hviews.ids _
  refine ⟨e, e', hrun, hsim.shows, hstep, ?_⟩
  rw [hfills, RefBook.process, RefBook.newOrder, if_neg hmsg]
  exact fillsOf_best hids

/-- The cheaper ask arrives second. -/
def cheaperSecond : List EngineMessage :=
  [.newOrder { id := 1, side := .ask, price := 101, quantity := 5 },
    .newOrder { id := 2, side := .ask, price := 100, quantity := 5 }]

theorem cheaperSecond_asks :
    RefBook.run .empty cheaperSecond .ask = [⟨1, 101, 5⟩, ⟨2, 100, 5⟩] := by
  decide +kernel

/-- Seven units, at no more than five of them at 100 and two at 101 cost. -/
theorem run_best_execution_cheaperSecond : ∃ e e', new.run cheaperSecond = some e ∧
    e.process (.newOrder { id := 3, side := .bid, price := 101, quantity := 7 }) = some e' ∧
    BestFor { id := 3, side := .bid, price := 101, quantity := 7 }
      [⟨1, 101, 5⟩, ⟨2, 100, 5⟩] e'.fills ∧
    (e'.fills.map (·.quantity.toNat)).sum = 7 ∧
    (e'.fills.map fun f => f.price * (f.quantity.toNat : Int)).sum ≤ 702 := by
  obtain ⟨e, e', hrun, -, hstep, hbest⟩ := run_best_execution cheaperSecond
    (show ¬ RefBook.ignored { id := 3, side := .bid, price := 101, quantity := 7 } by decide)
  simp only [Side.opposite, cheaperSecond_asks] at hbest
  have htwo : Feasible { id := 3, side := .bid, price := 101, quantity := 7 }
      [⟨1, 101, 5⟩, ⟨2, 100, 5⟩] fun r => if r.id = 2 then 5 else 2 := by
    constructor <;> decide
  have hseven : (e'.fills.map (·.quantity.toNat)).sum = 7 :=
    le_antisymm (hbest.whole ▸ hbest.feasible.quantity) (hbest.most _ htwo)
  exact ⟨e, e', hrun, hstep, hbest, hseven, hbest.cheapest _ htwo hseven.symm⟩

end LockfreeMatching
