import LockfreeMatching.Core.EngineRun
import LockfreeMatching.Server.DashboardHub
import Mathlib.Tactic.Ring

/-!
# The published ladders

The walk of a ladder looks at level after level and takes the rows of those that are not empty,
without asking which side they belong to. In an uncrossed book every level at or behind the best
price of a side belongs to it, so that what the walk collects are the best prices of the side.

## Main results

* `DashboardHub.ladder_eq`: the loop, as a filter of consecutive prices.
* `run_publishBook`: a publish stores the top of the book of any reachable engine.
-/
namespace LockfreeMatching

open Lib MatchingEngine

/-! ## The walk -/

namespace DashboardHub

/-- The non-empty levels among the first `n` prices from `best` on. -/
def walked (b : OrderBook) (step best : Int) (n : Nat) : List Int :=
  ((List.range n).map fun k : Nat => best + step * k).filter fun p => !(b.levels p).empty

theorem walked_succ (b : OrderBook) (step best : Int) (n : Nat) :
    walked b step best (n + 1) = walked b step best n ++
      if (b.levels (best + step * n)).empty then [] else [best + step * n] := by
  by_cases h : (b.levels (best + step * n)).empty <;> simp [walked, List.range_succ, h]

theorem walked_prefix (b : OrderBook) (step best : Int) {k n : Nat} (h : k ≤ n) :
    walked b step best k <+: walked b step best n := by
  induction n, h using Nat.le_induction with
  | base => exact List.prefix_rfl
  | succ n _ ih =>
    rw [walked_succ]
    exact ih.trans (List.prefix_append _ _)

variable {b : OrderBook} {inside : Int → Bool} {step best : Int} {n : Nat}

/-- The loop collects the first rows of the walk, and every level it reads is in the array. -/
theorem ladder_eq (hstep : step * step = 1)
    (hinside : ∀ k : Nat, inside (best + step * k) = true ↔ k < n)
    (hrange : ∀ k : Nat, k < n → 0 ≤ best + step * k ∧ best + step * k < maxPriceTicks)
    (hfuel : n ≤ scanLimit.toNat + 1) :
    ladder b inside step best =
      some (((walked b step best n).take bookDepth).map fun p => levelRow p (b.levels p)) := by
  have hcount : ∀ k : Nat, (step * (best + step * k - best)).toNat = k := by
    intro k
    rw [add_sub_cancel_left, ← mul_assoc, hstep, one_mul, Int.toNat_natCast]
  -- the state is the number of prices seen and their rows
  have htotal := loop_total
    (fun s : Int × List DashboardHub.Level => inside s.1 && decide (s.2.length < bookDepth))
    (fun s => (b.getLevel s.1).map fun lvl =>
      (s.1 + step, if lvl.empty then s.2 else s.2 ++ [levelRow s.1 lvl]))
    (fun s => ∃ k ≤ n, s.1 = best + step * k ∧
      s.2 = (walked b step best k).map (fun p => levelRow p (b.levels p)) ∧
      s.2.length ≤ bookDepth)
    (fun s => n - (step * (s.1 - best)).toNat) ?_ (scanLimit.toNat + 1) (best, [])
    ⟨0, Nat.zero_le n, by simp, by simp [walked], by simp⟩ (by omega)
  · obtain ⟨⟨p, rows⟩, hloop, ⟨k, hkn, rfl, rfl, hle⟩, hexit⟩ := htotal
    have hle : (walked b step best k).length ≤ bookDepth := by simpa using hle
    obtain ⟨rest, hrest⟩ := walked_prefix b step best hkn
    have htake : walked b step best k = (walked b step best n).take bookDepth := by
      by_cases hk : k < n
      · -- there was no more room
        have hfull : (walked b step best k).length = bookDepth := by
          simp only [(hinside k).2 hk, Bool.true_and, decide_eq_false_iff_not, List.length_map,
            not_lt] at hexit
          omega
        rw [← hrest, List.take_left' hfull]
      · obtain rfl : k = n := by omega
        rw [List.take_of_length_le hle]
    rw [ladder, hloop, Option.map_some, htake]
  · rintro ⟨p, rows⟩ ⟨k, hkn, rfl, rfl, hle⟩ hc
    simp only [Bool.and_eq_true, decide_eq_true_eq] at hc
    obtain ⟨hin, hroom⟩ := hc
    have hk := (hinside k).1 hin
    refine ⟨_, by rw [OrderBook.getLevel, if_pos (hrange k hk), Option.map_some],
      ⟨k + 1, hk, ?_, ?_, ?_⟩, ?_⟩
    · push_cast
      ring
    · rw [walked_succ]
      split <;> simp
    · split
      · exact hle
      · simpa using hroom
    · have hnext : best + step * (k : Int) + step = best + step * ((k + 1 : Nat) : Int) := by
        push_cast
        ring
      simp only [hnext, hcount]
      omega

end DashboardHub

/-! ## The top of the book -/

open DashboardHub

/-- The best of a set of prices of side `s`. -/
def IsBest (s : Side) (prices : Set Int) (best : Int) : Prop :=
  best ∈ prices ∧ ∀ p ∈ prices, before s best p

/-- The rows are the best prices of side `s`: the prices of its resting orders within `scanLimit`
of the best one, best first, as many as fit, with what their levels hold. -/
structure TopOfBook (e : MatchingEngine) (s : Side) (rows : List DashboardHub.Level) : Prop where
  empty : restingPrices e.heap e.book s = ∅ → rows = []
  prices : ∀ best, IsBest s (restingPrices e.heap e.book s) best →
    ∃ all : List Int, all.Pairwise (fun a b => before s a b ∧ a ≠ b) ∧
      (∀ p, p ∈ all ↔ p ∈ restingPrices e.heap e.book s ∧ |p - best| ≤ scanLimit) ∧
      rows.map (·.price) = all.take bookDepth
  first : ∀ best, IsBest s (restingPrices e.heap e.book s) best →
    rows.head?.map (·.price) = some best
  level : ∀ r ∈ rows, r.qty.toNat = (e.book.levels r.price).totalQuantity.toNat ∧
    r.orders = (e.book.levels r.price).orderCount
  oneSide : ∀ r ∈ rows, r.price ∉ restingPrices e.heap e.book s.opposite

/-- The direction in which the prices of a side get worse. -/
def worse : Side → Int
  | .bid => -1
  | .ask => 1

theorem before_iff (s : Side) (a b : Int) : before s a b ↔ ∃ k : Nat, b = a + worse s * k := by
  cases s with
  | bid =>
    simp only [before, worse]
    exact ⟨fun h => ⟨(a - b).toNat, by omega⟩, by rintro ⟨k, rfl⟩; omega⟩
  | ask =>
    simp only [before, worse]
    exact ⟨fun h => ⟨(b - a).toNat, by omega⟩, by rintro ⟨k, rfl⟩; omega⟩

theorem abs_worse (s : Side) (k : Nat) : |worse s * (k : Int)| = k := by
  cases s <;> simp only [worse, neg_mul, one_mul, abs_neg, Int.abs_natCast]

section Top

variable {e : MatchingEngine} {q : Int → List Ptr} {free : List Ptr} {s : Side} {best : Int}
  {n : Nat}

theorem IsBest.unique {prices : Set Int} {best' : Int} (h : IsBest s prices best)
    (h' : IsBest s prices best') : best = best' :=
  before_antisymm (h.2 _ h'.1) (h'.2 _ h.1)

/-- From the best price of a side on, levels hold orders of that side only. -/
theorem EngineRep.mem_sidePrices_iff (he : EngineRep e q free)
    (hbest : IsBest s (sidePrices e.heap q s) best) {p : Int} (hp : before s best p) :
    p ∈ sidePrices e.heap q s ↔ (e.book.levels p).empty = false := by
  have hopp : p ∉ sidePrices e.heap q s.opposite := by
    intro hmem
    cases s with
    | bid =>
      have := he.uncrossed best hbest.1 p hmem
      simp only [before] at hp
      omega
    | ask =>
      have := he.uncrossed p hmem best hbest.1
      simp only [before] at hp
      omega
  constructor
  · intro hmem
    obtain ⟨x, hx, -⟩ := hmem
    rw [Bool.eq_false_iff, ne_eq, he.rep.empty_iff]
    exact List.ne_nil_of_mem hx
  · intro hne
    obtain ⟨x, -, hmem⟩ := he.rep.nonempty_level hne
    cases hs : (e.heap.order x).side <;> cases s <;> simp_all [Side.opposite]

theorem EngineRep.mem_walked (he : EngineRep e q free)
    (hbest : IsBest s (sidePrices e.heap q s) best) {p : Int} :
    p ∈ walked e.book (worse s) best n ↔
      p ∈ sidePrices e.heap q s ∧ ∃ k : Nat, k < n ∧ p = best + worse s * k := by
  simp only [walked, List.mem_filter, List.mem_map, List.mem_range, Bool.not_eq_true']
  constructor
  · rintro ⟨⟨k, hk, rfl⟩, hne⟩
    exact ⟨(he.mem_sidePrices_iff hbest ((before_iff s _ _).2 ⟨k, rfl⟩)).2 hne, k, hk, rfl⟩
  · rintro ⟨hmem, k, hk, rfl⟩
    exact ⟨⟨k, hk, rfl⟩, (he.mem_sidePrices_iff hbest (hbest.2 _ hmem)).1 hmem⟩

theorem walked_pairwise (b : OrderBook) (s : Side) (best : Int) (n : Nat) :
    (walked b (worse s) best n).Pairwise fun a b => before s a b ∧ a ≠ b := by
  refine List.Pairwise.filter _ (List.pairwise_map.2 ?_)
  refine List.pairwise_lt_range.imp fun {i j} hij => ?_
  cases s <;> simp only [before, worse] <;> omega

/-- The rows of a walk far enough. -/
theorem EngineRep.topOfBook (he : EngineRep e q free)
    (hbest : IsBest s (sidePrices e.heap q s) best)
    (hn : ∀ k : Nat, k < n ↔ (k : Int) ≤ scanLimit ∧ 0 ≤ best + worse s * k ∧
      best + worse s * k < maxPriceTicks) :
    TopOfBook e s (((walked e.book (worse s) best n).take bookDepth).map fun p =>
      levelRow p (e.book.levels p)) := by
  have hprices := fun t => he.rep.restingPrices_eq t
  have hrange := he.rep.sidePrices_range hbest.1
  have hpos : 0 < n := (hn 0).2 (by simpa [scanLimit] using hrange)
  have hmemrow : ∀ r ∈ ((walked e.book (worse s) best n).take bookDepth).map (fun p =>
      levelRow p (e.book.levels p)), r = levelRow r.price (e.book.levels r.price) ∧
      r.price ∈ sidePrices e.heap q s := by
    intro r hr
    obtain ⟨p, hp, rfl⟩ := List.mem_map.1 hr
    exact ⟨rfl, ((he.mem_walked hbest).1 (List.mem_of_mem_take hp)).1⟩
  refine ⟨fun hempty => ?_, fun best' hbest' => ?_, fun best' hbest' => ?_, fun r hr => ?_,
    fun r hr => ?_⟩
  · rw [hprices] at hempty
    exact absurd hbest.1 (by simp [hempty])
  · rw [hprices] at hbest' ⊢
    obtain rfl := hbest.unique hbest'
    refine ⟨walked e.book (worse s) best n, walked_pairwise .., fun p => ?_, ?_⟩
    · rw [he.mem_walked hbest]
      refine and_congr_right fun hp => ?_
      obtain ⟨k, rfl⟩ := (before_iff s _ _).1 (hbest.2 p hp)
      have hr := he.rep.sidePrices_range hp
      rw [add_sub_cancel_left, abs_worse]
      constructor
      · rintro ⟨j, hj, hjk⟩
        have hj := ((hn j).1 hj).1
        have : (j : Int) = k := by cases s <;> simp only [worse] at hjk <;> omega
        omega
      · intro hk
        exact ⟨k, (hn k).2 ⟨hk, hr⟩, rfl⟩
    · rw [List.map_map]
      exact List.map_id _
  · rw [hprices] at hbest'
    obtain rfl := hbest.unique hbest'
    -- the first price walked is the best one, whose level is not empty
    have hne := (he.mem_sidePrices_iff hbest (before_refl s best)).1 hbest.1
    obtain ⟨n, rfl⟩ := Nat.exists_eq_add_of_le' hpos
    simp [walked, List.range_succ_eq_map, hne, bookDepth, levelRow]
  · rw [(hmemrow r hr).1]
    exact ⟨by simp [levelRow], rfl⟩
  · rw [hprices]
    intro hopp
    have hmem := (hmemrow r hr).2
    cases s with
    | bid => exact absurd (he.uncrossed _ hmem _ hopp) (lt_irrefl _)
    | ask => exact absurd (he.uncrossed _ hopp _ hmem) (lt_irrefl _)

theorem TopOfBook.nil (hempty : restingPrices e.heap e.book s = ∅) : TopOfBook e s [] where
  empty _ := rfl
  prices best h := absurd h.1 (by simp [hempty])
  first best h := absurd h.1 (by simp [hempty])
  level := by simp
  oneSide := by simp

/-- A ladder that is walked as far as the scan limit and the array allow. -/
theorem EngineRep.ladder_top (he : EngineRep e q free) {inside : Int → Bool}
    (hbest : IsBest s (sidePrices e.heap q s) best)
    (hinside : ∀ k : Nat, inside (best + worse s * k) = true ↔ k < n)
    (hn : ∀ k : Nat, k < n ↔ (k : Int) ≤ scanLimit ∧ 0 ≤ best + worse s * k ∧
      best + worse s * k < maxPriceTicks) :
    ∃ rows, ladder e.book inside (worse s) best = some rows ∧ TopOfBook e s rows := by
  refine ⟨_, ladder_eq ?_ hinside (fun k hk => ((hn k).1 hk).2) ?_, he.topOfBook hbest hn⟩
  · cases s <;> rfl
  · by_contra hlt
    have := ((hn (n - 1)).1 (by omega)).1
    simp only [scanLimit] at *
    omega

theorem EngineRep.topOfBook_nil (he : EngineRep e q free)
    (hhas : OrderBook.has s e.book = false) : TopOfBook e s [] := by
  apply TopOfBook.nil
  rw [he.rep.restingPrices_eq, ← Set.not_nonempty_iff_eq_empty, ← he.has_iff, hhas]
  exact Bool.false_ne_true

/-- The bids are walked down to the scan limit or the bottom of the array. -/
theorem EngineRep.bidLadder (he : EngineRep e q free) :
    ∃ rows, bidLadder e.book = some rows ∧ TopOfBook e .bid rows := by
  unfold DashboardHub.bidLadder
  split
  · rename_i hhas
    have hbest : IsBest .bid _ e.book.bestBid := he.best_first (s := .bid) hhas
    obtain ⟨hlow, hhigh⟩ := he.rep.sidePrices_range hbest.1
    generalize hfloor : (if scanLimit < e.book.bestBid then e.book.bestBid - scanLimit else 0) =
      floor
    apply he.ladder_top (n := (e.book.bestBid - floor + 1).toNat) hbest
    · intro k
      rw [decide_eq_true_iff, worse]
      omega
    · intro k
      simp only [worse]
      split at hfloor <;> simp only [scanLimit, maxPriceTicks] at * <;> omega
  · rename_i hhas
    exact ⟨[], rfl, he.topOfBook_nil (s := .bid) (Bool.eq_false_iff.2 hhas)⟩

/-- The asks are walked up to the scan limit or the top of the array. -/
theorem EngineRep.askLadder (he : EngineRep e q free) :
    ∃ rows, askLadder e.book = some rows ∧ TopOfBook e .ask rows := by
  unfold DashboardHub.askLadder
  split
  · rename_i hhas
    have hbest : IsBest .ask _ e.book.bestAsk := he.best_first (s := .ask) hhas
    obtain ⟨hlow, hhigh⟩ := he.rep.sidePrices_range hbest.1
    generalize hcap : (if e.book.bestAsk < maxPriceTicks - scanLimit
      then e.book.bestAsk + scanLimit else maxPriceTicks - 1) = cap
    apply he.ladder_top (n := (cap - e.book.bestAsk + 1).toNat) hbest
    · intro k
      rw [decide_eq_true_iff, worse]
      omega
    · intro k
      simp only [worse]
      split at hcap <;> simp only [scanLimit, maxPriceTicks] at * <;> omega
  · rename_i hhas
    exact ⟨[], rfl, he.topOfBook_nil (s := .ask) (Bool.eq_false_iff.2 hhas)⟩

end Top

/-- After any messages, a publish that gets the lock reads inside the level array only and stores
the top of the book. -/
theorem run_publishBook (msgs : List EngineMessage) (hub : DashboardHub) :
    ∃ e hub', new.run msgs = some e ∧ hub.publishBook true e.book = some hub' ∧
      TopOfBook e .bid hub'.bids ∧ TopOfBook e .ask hub'.asks := by
  obtain ⟨e, hrun, q, free, he, -⟩ := Simulates.new.run msgs
  obtain ⟨bids, hbids, htop⟩ := he.bidLadder
  obtain ⟨asks, hasks, htop'⟩ := he.askLadder
  have hpub : hub.publishBook true e.book = some { hub with
      bookWanted := false
      bids
      asks
      totalBids := e.book.bidCount
      totalAsks := e.book.askCount } := by
    simp only [publishBook, if_true, hbids, hasks, Option.bind_some, Option.map_some]
  exact ⟨e, _, hrun, hpub, htop, htop'⟩

end LockfreeMatching
