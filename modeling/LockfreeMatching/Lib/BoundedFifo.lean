import Mathlib.Data.List.Basic

/-!
# Bounded FIFO queues as labelled transition systems

A bounded FIFO is a list of at most `n` items. Its events are the successful operations:
`push x` appends to a queue with room, `pop x` removes the oldest item. `FifoRun n q es q'`
says that the events `es` lead from `q` to `q'`. An implementation refines the queue if the
events it emits always form such a run.

## Main results

* `FifoRun.conserve`: items come out in the order they went in, and the rest is still queued.
-/
namespace LockfreeMatching.Lib

variable {T : Type*}

inductive FifoEvent (T : Type*) where
  | push (x : T)
  | pop (x : T)

/-- The items pushed, in order. -/
def pushes : List (FifoEvent T) → List T
  | [] => []
  | .push x :: es => x :: pushes es
  | .pop _ :: es => pushes es

/-- The items popped, in order. -/
def pops : List (FifoEvent T) → List T
  | [] => []
  | .push _ :: es => pops es
  | .pop x :: es => x :: pops es

inductive FifoStep (n : Nat) : List T → FifoEvent T → List T → Prop where
  | push {q : List T} (x : T) : q.length < n → FifoStep n q (.push x) (q ++ [x])
  | pop (x : T) (q : List T) : FifoStep n (x :: q) (.pop x) q

inductive FifoRun (n : Nat) : List T → List (FifoEvent T) → List T → Prop where
  | nil (q : List T) : FifoRun n q [] q
  | cons {q q' q'' : List T} {e : FifoEvent T} {es : List (FifoEvent T)} :
      FifoStep n q e q' → FifoRun n q' es q'' → FifoRun n q (e :: es) q''

theorem FifoRun.append {n : Nat} {q q' q'' : List T} {es es' : List (FifoEvent T)}
    (h : FifoRun n q es q') (h' : FifoRun n q' es' q'') : FifoRun n q (es ++ es') q'' := by
  induction h with
  | nil => exact h'
  | cons step _ ih => exact .cons step (ih h')

theorem FifoRun.conserve {n : Nat} {q q' : List T} {es : List (FifoEvent T)}
    (h : FifoRun n q es q') : q ++ pushes es = pops es ++ q' := by
  induction h with
  | nil q => simp [pushes, pops]
  | cons step _ ih =>
    cases step with
    | push x _ => simpa [pushes, pops] using ih
    | pop x q => simpa [pushes, pops] using ih

end LockfreeMatching.Lib
