import Mathlib.Order.WellFounded

/-!
# Fair runs

Runs without end of threads that take turns in any order. `ready t s` says that thread `t` has
something to do in state `s`. A run is fair if no thread stays ready forever without a step.

`FairRun.eventually` is the rule for progress: if thread `t` is ready as long as the goal is not
reached, its steps lower a rank and the steps of all others do not raise it, the goal is reached.
-/
namespace LockfreeMatching.Lib

variable {σ τ : Type*}

/-- Thread `who n` takes the step from `run n` to `run (n + 1)`. -/
structure FairRun (step : τ → σ → σ → Prop) (ready : τ → σ → Prop) (run : Nat → σ)
    (who : Nat → τ) : Prop where
  step : ∀ n, step (who n) (run n) (run (n + 1))
  fair : ∀ t n, ∃ m, n ≤ m ∧ (who m = t ∨ ¬ ready t (run m))

namespace FairRun

variable {step : τ → σ → σ → Prop} {ready : τ → σ → Prop} {run : Nat → σ} {who : Nat → τ}

/-- What every step keeps holds from the first time on. -/
theorem stable (h : FairRun step ready run who) (I : σ → Prop)
    (hkeep : ∀ t s s', I s → step t s s' → I s') {n : Nat} (hn : I (run n)) :
    ∀ m, n ≤ m → I (run m) := by
  intro m hm
  induction m, hm using Nat.le_induction with
  | base => exact hn
  | succ m _ ih => exact hkeep _ _ _ ih (h.step m)

/-- Progress by the steps of one thread, in states that satisfy `I`. -/
theorem eventually {ρ : Type*} [Preorder ρ] [WellFoundedLT ρ] (h : FairRun step ready run who)
    (rank : σ → ρ) (t : τ) (I goal : σ → Prop) {n : Nat} (hI : ∀ m, n ≤ m → I (run m))
    (hready : ∀ s, I s → ¬ goal s → ready t s)
    (hstep : ∀ s s', I s → ¬ goal s → step t s s' → goal s' ∨ rank s' < rank s)
    (hothers : ∀ u s s', u ≠ t → I s → ¬ goal s → step u s s' → goal s' ∨ rank s' ≤ rank s) :
    ∃ m, n ≤ m ∧ goal (run m) := by
  suffices hrank : ∀ (r : ρ) (k : Nat), n ≤ k → rank (run k) ≤ r → ∃ m, n ≤ m ∧ goal (run m) from
    hrank _ n le_rfl le_rfl
  intro r
  induction r using WellFoundedLT.induction with
  | ind r ih =>
    intro k hk hr
    obtain ⟨m, hkm, hm⟩ := h.fair t k
    by_contra hnever
    have hgoal : ∀ j, n ≤ j → ¬ goal (run j) := fun j hj hg => hnever ⟨j, hj, hg⟩
    -- until the turn of `t` comes the rank is not raised
    have hle : ∀ j, k ≤ j → rank (run j) ≤ r := by
      intro j hj
      induction j, hj using Nat.le_induction with
      | base => exact hr
      | succ j hj ihj =>
        have hnj := hk.trans hj
        have hafter := hgoal (j + 1) (by omega)
        by_cases hwho : who j = t
        · have hlt := (hstep _ _ (hI j hnj) (hgoal j hnj) (hwho ▸ h.step j)).resolve_left hafter
          exact hlt.le.trans ihj
        · have hmoved := hothers _ _ _ hwho (hI j hnj) (hgoal j hnj) (h.step j)
          exact (hmoved.resolve_left hafter).trans ihj
    have hnm := hk.trans hkm
    rcases hm with hwho | hidle
    · have hmoved := hstep _ _ (hI m hnm) (hgoal m hnm) (hwho ▸ h.step m)
      have hlt := hmoved.resolve_left (hgoal (m + 1) (by omega))
      exact hnever (ih _ (hlt.trans_le (hle m hkm)) (m + 1) (by omega) le_rfl)
    · exact hidle (hready _ (hI m hnm) (hgoal m hnm))

end FairRun

/-! ## Runs that end -/

/-- The steps of a run that ends after `length` steps in `last`. -/
structure Schedule (step : τ → σ → σ → Prop) where
  run : Nat → σ
  who : Nat → τ
  length : Nat
  last : σ
  run_length : run length = last
  step : ∀ n, n < length → step (who n) (run n) (run (n + 1))

namespace Schedule

variable {step : τ → σ → σ → Prop} {ready : τ → σ → Prop}

/-- No step is taken. The thread stands for those after the end. -/
def start (step : τ → σ → σ → Prop) (idle : τ) (s : σ) : Schedule step where
  run _ := s
  who _ := idle
  length := 0
  last := s
  run_length := rfl
  step _ hn := absurd hn (Nat.not_lt_zero _)

def snoc (p : Schedule step) (t : τ) {s : σ} (h : step t p.last s) : Schedule step where
  run n := if n ≤ p.length then p.run n else s
  who n := if n = p.length then t else p.who n
  length := p.length + 1
  last := s
  run_length := if_neg (by omega)
  step n hn := by
    rcases Nat.lt_succ_iff_lt_or_eq.1 hn with hlt | rfl
    · rw [if_pos hlt.le, if_pos (Nat.succ_le_of_lt hlt), if_neg hlt.ne]
      exact p.step n hlt
    · rw [if_neg (Nat.not_succ_le_self _), if_pos rfl, if_pos le_rfl, p.run_length]
      exact h

/-- No thread is ready at the end, and the steps of `idle` change nothing there. -/
theorem fairRun (p : Schedule step) {idle : τ} (hidle : step idle p.last p.last)
    (hdone : ∀ t, ¬ ready t p.last) :
    FairRun step ready (fun n => p.run (min n p.length))
      (fun n => if n < p.length then p.who n else idle) := by
  refine ⟨fun n => ?_, fun t n => ⟨max n p.length, le_max_left n _, .inr ?_⟩⟩
  · by_cases hn : n < p.length
    · simpa [hn, Nat.min_eq_left hn.le, Nat.min_eq_left (Nat.succ_le_of_lt hn)] using p.step n hn
    · have hle : p.length ≤ n := Nat.le_of_not_lt hn
      simpa [hn, Nat.min_eq_right hle, Nat.min_eq_right (hle.trans n.le_succ), p.run_length]
        using hidle
  · simpa [p.run_length] using hdone t

end Schedule

end LockfreeMatching.Lib
