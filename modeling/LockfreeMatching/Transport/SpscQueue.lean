import LockfreeMatching.Lib.BoundedFifo
import LockfreeMatching.Lib.Ring

/-!
# The single-producer single-consumer queue

One producer thread repeats `try_push` and one consumer thread repeats `try_pop`. Every load
of a shared index, update of a cached index, copy of a slot and store of a shared index is one
step, and a schedule interleaves the steps of the two threads in any order. Memory is
sequentially consistent, which for this queue is what its release stores and acquire loads
provide: whoever sees an index store sees the slot access before it.

`tryPush item` reads

* load `head_`, compare the next index with `tail_cache_`;
* if they are equal, load `tail_`, store it in `tail_cache_` and compare again, refusing the
  item if they are still equal;
* write the slot, store `head_`.

`tryPop` is symmetric, with the slot read before `tail_` is stored.
-/
namespace LockfreeMatching

open Lib

/-- What the two assertions on `Capacity` guarantee. -/
structure Capacity where
  val : Nat
  powerOfTwo : val &&& (val - 1) = 0
  one_lt : 1 < val

namespace Capacity

def indexMask (c : Capacity) : Nat := c.val - 1

/-- Index of the slot after `i`. -/
def next (c : Capacity) (i : Nat) : Nat := (i + 1) &&& c.indexMask

/-- Masking is reduction modulo the capacity. -/
theorem and_indexMask (c : Capacity) (i : Nat) : i &&& c.indexMask = i % c.val := by
  have hne : c.val ≠ 0 := by have := c.one_lt; omega
  obtain ⟨k, hk⟩ := (Nat.and_sub_one_eq_zero_iff_isPowerOfTwo hne).1 c.powerOfTwo
  rw [indexMask, hk]
  exact Nat.and_two_pow_sub_one_eq_mod i k

theorem next_mod (c : Capacity) (i : Nat) : c.next (i % c.val) = (i + 1) % c.val := by
  rw [next, and_indexMask, Nat.mod_add_mod]

end Capacity

/-- The fields of the queue. -/
structure SpscQueue (T : Type) where
  buffer : Nat → T
  head : Nat := 0
  tailCache : Nat := 0
  tail : Nat := 0
  headCache : Nat := 0

/-- Where the producer is inside `tryPush item`; `head` is the index it loaded. -/
inductive PushPc (T : Type) where
  | idle
  | compare (item : T) (head : Nat)
  | loadTail (item : T) (head : Nat)
  | cacheTail (item : T) (head loaded : Nat)
  | recompare (item : T) (head : Nat)
  | write (item : T) (head : Nat)
  | publish (item : T) (head : Nat)

/-- Where the consumer is inside `tryPop`; `tail` is the index it loaded. -/
inductive PopPc (T : Type) where
  | idle
  | compare (tail : Nat)
  | loadHead (tail : Nat)
  | cacheHead (tail loaded : Nat)
  | recompare (tail : Nat)
  | copy (tail : Nat)
  | publish (tail : Nat) (item : T)

/-- The queue with its two threads. -/
structure Spsc (T : Type) where
  queue : SpscQueue T
  producer : PushPc T := .idle
  consumer : PopPc T := .idle

namespace Spsc

variable {T : Type} (c : Capacity)

/-- A fresh queue: slots are value-initialised. -/
def new (T : Type) [Inhabited T] : Spsc T where
  queue := { buffer := fun _ => default }

/-- The next step of the producer, which starts a call with `item` if it is idle. A call that
accepts its item emits a push as it stores `head_` and returns true. -/
def tryPush (s : Spsc T) (item : T) : Spsc T × List (FifoEvent T) :=
  match s.producer with
  | .idle => ({ s with producer := .compare item s.queue.head }, [])
  | .compare item head =>
    if c.next head = s.queue.tailCache then ({ s with producer := .loadTail item head }, [])
    else ({ s with producer := .write item head }, [])
  | .loadTail item head => ({ s with producer := .cacheTail item head s.queue.tail }, [])
  | .cacheTail item head loaded =>
    ({ s with
      queue := { s.queue with tailCache := loaded }
      producer := .recompare item head }, [])
  | .recompare item head =>
    if c.next head = s.queue.tailCache then ({ s with producer := .idle }, [])
    else ({ s with producer := .write item head }, [])
  | .write item head =>
    ({ s with
      queue := { s.queue with buffer := Function.update s.queue.buffer head item }
      producer := .publish item head }, [])
  | .publish item head =>
    ({ s with
      queue := { s.queue with head := c.next head }
      producer := .idle }, [.push item])

/-- The next step of the consumer. A call that delivers an item emits a pop as it stores
`tail_` and returns true. -/
def tryPop (s : Spsc T) : Spsc T × List (FifoEvent T) :=
  match s.consumer with
  | .idle => ({ s with consumer := .compare s.queue.tail }, [])
  | .compare tail =>
    if tail = s.queue.headCache then ({ s with consumer := .loadHead tail }, [])
    else ({ s with consumer := .copy tail }, [])
  | .loadHead tail => ({ s with consumer := .cacheHead tail s.queue.head }, [])
  | .cacheHead tail loaded =>
    ({ s with
      queue := { s.queue with headCache := loaded }
      consumer := .recompare tail }, [])
  | .recompare tail =>
    if tail = s.queue.headCache then ({ s with consumer := .idle }, [])
    else ({ s with consumer := .copy tail }, [])
  | .copy tail => ({ s with consumer := .publish tail (s.queue.buffer tail) }, [])
  | .publish tail item =>
    ({ s with
      queue := { s.queue with tail := c.next tail }
      consumer := .idle }, [.pop item])

/-- Which thread moves next, and the item a producer that is idle goes on to push. -/
inductive Move (T : Type) where
  | producer (item : T)
  | consumer

def step (s : Spsc T) : Move T → Spsc T × List (FifoEvent T)
  | .producer item => s.tryPush c item
  | .consumer => s.tryPop c

/-- Follow a schedule, collecting the events. -/
def run (s : Spsc T) : List (Move T) → Spsc T × List (FifoEvent T)
  | [] => (s, [])
  | m :: ms =>
    let r := s.step c m
    let r' := run r.1 ms
    (r'.1, r.2 ++ r'.2)

end Spsc

end LockfreeMatching
