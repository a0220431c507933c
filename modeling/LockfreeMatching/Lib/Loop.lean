import Mathlib.Order.Basic

/-!
# Fuelled while loops

`loop cond body n s` runs `body` while `cond` holds and gives up with `none` when `n`
iterations were not enough or when the body itself gave up. `loop_total` is the
total-correctness rule: an invariant and a measure that every iteration decreases
show that the loop returns, and that it returns a state satisfying the invariant. A loop that
is entered ends with a lower measure (`loop_total_lt`).

`Head` collects the states in which the loop test is evaluated, so that a property
can be claimed of every iteration and not only of the final state.
-/
namespace LockfreeMatching.Lib

variable {σ : Type*}

/-- Iterate `body` while `cond` holds, one unit of fuel per iteration. -/
def loop (cond : σ → Bool) (body : σ → Option σ) : Nat → σ → Option σ
  | 0, s => if cond s then none else some s
  | n + 1, s => if cond s then (body s).bind (loop cond body n) else some s

theorem loop_exit {cond : σ → Bool} {body : σ → Option σ} {s : σ} (h : cond s = false)
    (n : Nat) : loop cond body n s = some s := by
  cases n <;> simp [loop, h]

/-- Total correctness: the invariant is kept and the measure drops in every iteration. -/
theorem loop_total (cond : σ → Bool) (body : σ → Option σ) (I : σ → Prop) (μ : σ → Nat)
    (step : ∀ s, I s → cond s = true → ∃ t, body s = some t ∧ I t ∧ μ t < μ s) :
    ∀ (n : Nat) (s : σ), I s → μ s ≤ n →
      ∃ t, loop cond body n s = some t ∧ I t ∧ cond t = false := by
  intro n
  induction n with
  | zero =>
    intro s hs hn
    cases hc : cond s with
    | false => exact ⟨s, loop_exit hc 0, hs, hc⟩
    | true =>
      -- an iteration would have to lower a measure that is already zero
      obtain ⟨t, _, _, hlt⟩ := step s hs hc
      omega
  | succ n ih =>
    intro s hs hn
    cases hc : cond s with
    | false => exact ⟨s, loop_exit hc _, hs, hc⟩
    | true =>
      obtain ⟨u, hu, hI, hlt⟩ := step s hs hc
      obtain ⟨t, ht, hIt, hct⟩ := ih u hI (by omega)
      exact ⟨t, by simp [loop, hc, hu, ht], hIt, hct⟩

/-- A loop that is entered lowers the measure. -/
theorem loop_total_lt (cond : σ → Bool) (body : σ → Option σ) (I : σ → Prop) (μ : σ → Nat)
    (step : ∀ s, I s → cond s = true → ∃ t, body s = some t ∧ I t ∧ μ t < μ s)
    {s : σ} (hs : I s) (hc : cond s = true) :
    ∃ t, loop cond body (μ s) s = some t ∧ I t ∧ cond t = false ∧ μ t < μ s := by
  -- the loop is about to run its first iteration, or has run it
  have htotal := loop_total cond body (fun t => I t ∧ (t = s ∨ μ t < μ s)) μ ?_ (μ s) s
    ⟨hs, .inl rfl⟩ (Nat.le_refl _)
  · obtain ⟨t, hloop, ⟨hI, rfl | hlt⟩, hexit⟩ := htotal
    · rw [hc] at hexit
      cases hexit
    · exact ⟨t, hloop, hI, hexit, hlt⟩
  · rintro u ⟨hI, hu⟩ hcond
    obtain ⟨v, hbody, hI', hlt⟩ := step u hI hcond
    refine ⟨v, hbody, ⟨hI', .inr ?_⟩, hlt⟩
    rcases hu with rfl | hu <;> omega

/-- The states in which the loop started at `s` evaluates its test. -/
inductive Head (cond : σ → Bool) (body : σ → Option σ) (s : σ) : σ → Prop where
  | start : Head cond body s s
  | next {t u : σ} : Head cond body s t → cond t = true → body t = some u → Head cond body s u

/-- An invariant of the body holds at every loop test. -/
theorem Head.invariant {cond : σ → Bool} {body : σ → Option σ} {I : σ → Prop} {s t : σ}
    (h : Head cond body s t)
    (step : ∀ u v, I u → cond u = true → body u = some v → I v) (hs : I s) : I t := by
  induction h with
  | start => exact hs
  | next _ hc hb ih => exact step _ _ ih hc hb

theorem Head.cons {cond : σ → Bool} {body : σ → Option σ} {s t u : σ} (hc : cond s = true)
    (hb : body s = some t) (h : Head cond body t u) : Head cond body s u := by
  induction h with
  | start => exact .next .start hc hb
  | next _ hc' hb' ih => exact .next ih hc' hb'

/-- A loop that returns does so in one of its heads, where the test failed. -/
theorem loop_head {cond : σ → Bool} {body : σ → Option σ} {n : Nat} {s t : σ}
    (h : loop cond body n s = some t) : Head cond body s t ∧ cond t = false := by
  induction n generalizing s with
  | zero =>
    cases hc : cond s with
    | true => simp [loop, hc] at h
    | false =>
      obtain rfl : s = t := by simpa [loop, hc] using h
      exact ⟨.start, hc⟩
  | succ n ih =>
    cases hc : cond s with
    | false =>
      obtain rfl : s = t := by simpa [loop, hc] using h
      exact ⟨.start, hc⟩
    | true =>
      simp only [loop, hc, if_true] at h
      obtain ⟨u, hu, hrest⟩ := Option.bind_eq_some_iff.1 h
      obtain ⟨hhead, hexit⟩ := ih hrest
      exact ⟨.cons hc hu hhead, hexit⟩

/-- Two loops in step: if `f` carries tests and bodies of one loop to those of the other, it
carries the result. The correspondence is needed at states satisfying an invariant only. -/
theorem loop_map {τ : Type*} {cond : σ → Bool} {body : σ → Option σ} {cond' : τ → Bool}
    {body' : τ → Option τ} (f : σ → τ) (I : σ → Prop)
    (hcond : ∀ s, I s → cond' (f s) = cond s)
    (hbody : ∀ s, I s → cond s = true → body' (f s) = (body s).map f)
    (hstep : ∀ s t, I s → cond s = true → body s = some t → I t) (n : Nat) {s : σ} (hs : I s) :
    loop cond' body' n (f s) = (loop cond body n s).map f := by
  induction n generalizing s with
  | zero =>
    rw [loop, loop, hcond s hs]
    cases cond s <;> rfl
  | succ n ih =>
    rw [loop, loop, hcond s hs]
    cases hc : cond s with
    | false => rfl
    | true =>
      simp only [if_true, hbody s hs hc]
      cases hb : body s with
      | none => rfl
      | some t => exact ih (hstep s t hs hc hb)

end LockfreeMatching.Lib
