import Mathlib.Data.List.Basic
import LockfreeMatching.Transport.SpscSafety

/-!
# What the callers of the queue see

`Watch` puts the two callers beside the threads: the variable the consumer passes to
`try_pop`, and a note of what the published indices showed when the running call loaded the
index of the other side. A call that returns leaves a `Return` with its argument, its result
and that note.

## Main results

* `run_refuses_only_when_must`: under every schedule a refused push has loaded `tail_` while
  the indices showed `capacity - 1` items, and a refused pop has loaded `head_` while they
  showed none; `size()` is the number of items accepted and not delivered; and without
  overlapping calls the results are those of `PlainQueue`, which caches no index.
-/
namespace LockfreeMatching

open Lib

/-- The items that a pair of published indices shows, in 64-bit words. -/
def Capacity.shown (c : Capacity) (head tail : Nat) : UInt64 :=
  (UInt64.ofNat head - UInt64.ofNat tail) &&& UInt64.ofNat c.indexMask

def SpscQueue.size {T : Type} (c : Capacity) (q : SpscQueue T) : UInt64 :=
  c.shown q.head q.tail

/-- A capacity below `2^64` divides it, so the subtraction may wrap. -/
theorem Capacity.shown_toNat (c : Capacity) (hword : c.val < 2 ^ 64) {k : Nat} (pos : Nat)
    (hk : k < c.val) : (c.shown ((pos + k) % c.val) (pos % c.val)).toNat = k := by
  have hpos : 0 < c.val := by omega
  have hhead : (pos + k) % c.val < c.val := Nat.mod_lt _ hpos
  have htail : pos % c.val < c.val := Nat.mod_lt _ hpos
  obtain ⟨e, he⟩ := (Nat.and_sub_one_eq_zero_iff_isPowerOfTwo (by omega)).1 c.powerOfTwo
  have hdvd : c.val ∣ 2 ^ 64 := by
    rw [he] at hword ⊢
    exact Nat.pow_dvd_pow 2 ((Nat.pow_lt_pow_iff_right (by omega)).1 hword).le
  have hmask : c.indexMask < 2 ^ 64 := by
    rw [Capacity.indexMask]
    omega
  rw [shown, UInt64.toNat_and, UInt64.toNat_sub, UInt64.toNat_ofNat', UInt64.toNat_ofNat',
    UInt64.toNat_ofNat', Nat.mod_eq_of_lt hmask, Nat.mod_eq_of_lt (hhead.trans hword),
    Nat.mod_eq_of_lt (htail.trans hword), c.and_indexMask, Nat.mod_mod_of_dvd _ hdvd]
  -- modulo the capacity the subtraction is exact
  have hmod : (2 ^ 64 - pos % c.val + (pos + k) % c.val) % c.val = k % c.val := by
    apply Nat.ModEq.add_left_cancel' (pos % c.val)
    have hsum : pos % c.val + (2 ^ 64 - pos % c.val + (pos + k) % c.val) =
        2 ^ 64 + (pos + k) % c.val := by omega
    rw [hsum]
    obtain ⟨m, hm⟩ := hdvd
    rw [Nat.ModEq, hm, Nat.mul_add_mod, Nat.mod_mod, Nat.mod_add_mod]
  rw [hmod, Nat.mod_eq_of_lt hk]

/-- A next index that meets the tail shows a full queue. -/
theorem Capacity.shown_next (c : Capacity) (hword : c.val < 2 ^ 64) (i : Nat) :
    c.shown (i % c.val) (c.next (i % c.val)) = UInt64.ofNat (c.val - 1) := by
  have h1 := c.one_lt
  have hlt : c.val - 1 < 2 ^ 64 := by omega
  have hlap := c.shown_toNat hword (k := c.val - 1) (i + 1) (by omega)
  rw [show i + 1 + (c.val - 1) = i + c.val by omega, Nat.add_mod_right] at hlap
  apply UInt64.toNat.inj
  rw [c.next_mod, hlap, UInt64.toNat_ofNat', Nat.mod_eq_of_lt hlt]

theorem Capacity.shown_self (c : Capacity) (i : Nat) : c.shown i i = 0 := by
  simp [shown]

/-! ## Calls and returns -/

/-- A call; `pop item` passes a variable that holds `item`. -/
inductive Call (T : Type) where
  | push (item : T)
  | pop (item : T)
deriving DecidableEq

/-- What the caller gets; `popped` says what its variable holds afterwards. -/
inductive Result (T : Type) where
  | pushed (accepted : Bool)
  | popped (delivered : Bool) (item : T)
deriving DecidableEq

/-- A call that returned. If it loaded the index of the other side, `shown` is the number of
items that the published indices showed at that moment. -/
structure Return (T : Type) where
  call : Call T
  result : Result T
  shown : Option UInt64

/-- The event of the FIFO behind a return: a refused call is none. -/
def Return.event {T : Type} (r : Return T) : Option (FifoEvent T) :=
  match r.call, r.result with
  | .push item, .pushed true => some (.push item)
  | .pop _, .popped true item => some (.pop item)
  | _, _ => none

/-- The thread that moves for a turn; an idle thread begins the call. -/
def Call.move {T : Type} : Call T → Spsc.Move T
  | .push item => .producer item
  | .pop _ => .consumer

/-- The threads with what their callers see. -/
structure Watch (T : Type) where
  threads : Spsc T
  /-- The variable passed to the running `try_pop`, and what it held when the call began. -/
  item : T
  entry : T
  tailShown : Option UInt64 := none
  headShown : Option UInt64 := none

namespace Watch

variable {T : Type} (c : Capacity)

def new (T : Type) [Inhabited T] : Watch T where
  threads := .new T
  item := default
  entry := default

/-- A turn of the producer. -/
def push (w : Watch T) (x : T) : Watch T × List (Return T) :=
  let w' := { w with threads := (w.threads.tryPush c x).1 }
  match w.threads.producer with
  | .idle => ({ w' with tailShown := none }, [])
  | .loadTail _ _ => ({ w' with tailShown := some (w.threads.queue.size c) }, [])
  | .recompare item head =>
    if c.next head = w.threads.queue.tailCache then
      (w', [⟨.push item, .pushed false, w.tailShown⟩])
    else (w', [])
  | .publish item _ => (w', [⟨.push item, .pushed true, w.tailShown⟩])
  | _ => (w', [])

/-- A turn of the consumer. The copy of the slot goes to the variable of the caller. -/
def pop (w : Watch T) (x : T) : Watch T × List (Return T) :=
  let w' := { w with threads := (w.threads.tryPop c).1 }
  match w.threads.consumer with
  | .idle => ({ w' with item := x, entry := x, headShown := none }, [])
  | .loadHead _ => ({ w' with headShown := some (w.threads.queue.size c) }, [])
  | .recompare tail =>
    if tail = w.threads.queue.headCache then
      (w', [⟨.pop w.entry, .popped false w.item, w.headShown⟩])
    else (w', [])
  | .copy tail => ({ w' with item := w.threads.queue.buffer tail }, [])
  | .publish _ _ => (w', [⟨.pop w.entry, .popped true w.item, w.headShown⟩])
  | _ => (w', [])

def turn (w : Watch T) : Call T → Watch T × List (Return T)
  | .push x => w.push c x
  | .pop x => w.pop c x

/-- Follow a schedule, collecting the returns. -/
def run (w : Watch T) : List (Call T) → Watch T × List (Return T)
  | [] => (w, [])
  | m :: ms =>
    let r := w.turn c m
    let r' := run r.1 ms
    (r'.1, r.2 ++ r'.2)

end Watch

/-! ## Every schedule -/

namespace Spsc

variable {T : Type} {c : Capacity}

theorem tryPush_consumer (s : Spsc T) (x : T) : (s.tryPush c x).1.consumer = s.consumer := by
  unfold tryPush
  cases s.producer <;> dsimp only <;> split_ifs <;> rfl

theorem tryPush_headCache (s : Spsc T) (x : T) :
    (s.tryPush c x).1.queue.headCache = s.queue.headCache := by
  unfold tryPush
  cases s.producer <;> dsimp only <;> split_ifs <;> rfl

theorem tryPush_tail (s : Spsc T) (x : T) :
    (s.tryPush c x).1.queue.tail = s.queue.tail := by
  unfold tryPush
  cases s.producer <;> dsimp only <;> split_ifs <;> rfl

theorem tryPop_producer (s : Spsc T) : (s.tryPop c).1.producer = s.producer := by
  unfold tryPop
  cases s.consumer <;> dsimp only <;> split_ifs <;> rfl

theorem tryPop_tailCache (s : Spsc T) :
    (s.tryPop c).1.queue.tailCache = s.queue.tailCache := by
  unfold tryPop
  cases s.consumer <;> dsimp only <;> split_ifs <;> rfl

theorem tryPop_head (s : Spsc T) : (s.tryPop c).1.queue.head = s.queue.head := by
  unfold tryPop
  cases s.consumer <;> dsimp only <;> split_ifs <;> rfl

end Spsc

namespace Watch

variable {T : Type} {c : Capacity}

/-- What the note of the producer says: the indices at the load were its own and the one it
loaded. -/
def TailNoted (c : Capacity) (q : SpscQueue T) (note : Option UInt64) : PushPc T → Prop
  | .cacheTail _ head loaded => note = some (c.shown head loaded)
  | .recompare _ head => note = some (c.shown head q.tailCache)
  | _ => True

def HeadNoted (c : Capacity) (q : SpscQueue T) (note : Option UInt64) : PopPc T → Prop
  | .cacheHead tail loaded => note = some (c.shown loaded tail)
  | .recompare tail => note = some (c.shown q.headCache tail)
  | _ => True

/-- The variable of the caller changes with the copy of the slot, and not before. -/
def ItemKept (item entry : T) : PopPc T → Prop
  | .idle => True
  | .publish _ x => item = x
  | _ => item = entry

structure Inv (c : Capacity) (w : Watch T) (pos : Nat) (l : List T) : Prop where
  threads : Spsc.Inv c w.threads pos l
  tailNoted : TailNoted c w.threads.queue w.tailShown w.threads.producer
  headNoted : HeadNoted c w.threads.queue w.headShown w.threads.consumer
  kept : ItemKept w.item w.entry w.threads.consumer

theorem Inv.new [Inhabited T] (c : Capacity) : Inv c (Watch.new T) 0 [] where
  threads := .new c
  tailNoted := trivial
  headNoted := trivial
  kept := trivial

/-- Why a call may refuse. -/
structure Justified (c : Capacity) (r : Return T) : Prop where
  full : r.result = .pushed false → r.shown = some (UInt64.ofNat (c.val - 1))
  empty : ∀ item, r.result = .popped false item → r.shown = some 0 ∧ r.call = .pop item

theorem push_threads (w : Watch T) (x : T) :
    (w.push c x).1.threads = (w.threads.tryPush c x).1 := by
  unfold push
  cases w.threads.producer with
  | recompare item head => dsimp only; split_ifs <;> rfl
  | _ => rfl

theorem pop_threads (w : Watch T) (x : T) :
    (w.pop c x).1.threads = (w.threads.tryPop c).1 := by
  unfold pop
  cases w.threads.consumer with
  | recompare tail => dsimp only; split_ifs <;> rfl
  | _ => rfl

/-- What a turn of the producer can do: move on, refuse its item, or publish it. -/
theorem push_cases (c : Capacity) (w : Watch T) (x : T) :
    ((w.push c x).2 = [] ∧ (w.threads.tryPush c x).2 = [] ∧
      (w.threads.tryPush c x).1.queue.head = w.threads.queue.head) ∨
    (∃ item head, w.threads.producer = .recompare item head ∧
      c.next head = w.threads.queue.tailCache ∧
      (w.push c x).2 = [⟨.push item, .pushed false, w.tailShown⟩] ∧
      (w.threads.tryPush c x).2 = [] ∧
      (w.threads.tryPush c x).1.queue.head = w.threads.queue.head) ∨
    ∃ item head, w.threads.producer = .publish item head ∧
      (w.push c x).2 = [⟨.push item, .pushed true, w.tailShown⟩] ∧
      (w.threads.tryPush c x).2 = [.push item] ∧
      (w.threads.tryPush c x).1.queue.head = c.next head := by
  unfold push Spsc.tryPush
  cases w.threads.producer with
  | compare item head => left; dsimp only; split_ifs <;> exact ⟨rfl, rfl, rfl⟩
  | recompare item head =>
    dsimp only
    split_ifs with hfull
    · exact .inr (.inl ⟨item, head, rfl, hfull, rfl, rfl, rfl⟩)
    · exact .inl ⟨rfl, rfl, rfl⟩
  | publish item head => exact .inr (.inr ⟨item, head, rfl, rfl, rfl, rfl⟩)
  | _ => exact .inl ⟨rfl, rfl, rfl⟩

theorem pop_cases (c : Capacity) (w : Watch T) (x : T) :
    ((w.pop c x).2 = [] ∧ (w.threads.tryPop c).2 = [] ∧
      (w.threads.tryPop c).1.queue.tail = w.threads.queue.tail) ∨
    (∃ tail, w.threads.consumer = .recompare tail ∧ tail = w.threads.queue.headCache ∧
      (w.pop c x).2 = [⟨.pop w.entry, .popped false w.item, w.headShown⟩] ∧
      (w.threads.tryPop c).2 = [] ∧
      (w.threads.tryPop c).1.queue.tail = w.threads.queue.tail) ∨
    ∃ tail item, w.threads.consumer = .publish tail item ∧
      (w.pop c x).2 = [⟨.pop w.entry, .popped true w.item, w.headShown⟩] ∧
      (w.threads.tryPop c).2 = [.pop item] ∧
      (w.threads.tryPop c).1.queue.tail = c.next tail := by
  unfold pop Spsc.tryPop
  cases w.threads.consumer with
  | compare tail => left; dsimp only; split_ifs <;> exact ⟨rfl, rfl, rfl⟩
  | recompare tail =>
    dsimp only
    split_ifs with hempty
    · exact .inr (.inl ⟨tail, rfl, hempty, rfl, rfl, rfl⟩)
    · exact .inl ⟨rfl, rfl, rfl⟩
  | publish tail item => exact .inr (.inr ⟨tail, item, rfl, rfl, rfl, rfl⟩)
  | _ => exact .inl ⟨rfl, rfl, rfl⟩

/-- The events of the threads are those of the returns. -/
theorem push_events (w : Watch T) (x : T) :
    (w.push c x).2.filterMap Return.event = (w.threads.tryPush c x).2 := by
  obtain ⟨hret, hev, -⟩ | ⟨item, head, -, -, hret, hev, -⟩ | ⟨item, head, -, hret, hev, -⟩ :=
    push_cases c w x
  all_goals simp [hret, hev, Return.event]

theorem Inv.pop_events {w : Watch T} {pos : Nat} {l : List T} (h : Inv c w pos l) (x : T) :
    (w.pop c x).2.filterMap Return.event = (w.threads.tryPop c).2 := by
  have hkept := h.kept
  obtain ⟨hret, hev, -⟩ | ⟨tail, -, -, hret, hev, -⟩ | ⟨tail, item, hpc, hret, hev, -⟩ :=
    pop_cases c w x
  · simp [hret, hev]
  · simp [hret, hev, Return.event]
  · rw [hpc] at hkept
    simp [hret, hev, Return.event, show w.item = item from hkept]

theorem Inv.push_noted {w : Watch T} {pos : Nat} {l : List T} (h : Inv c w pos l) (x : T) :
    TailNoted c (w.push c x).1.threads.queue (w.push c x).1.tailShown
      (w.push c x).1.threads.producer := by
  have hnoted := h.tailNoted
  rw [push_threads]
  unfold push Spsc.tryPush
  cases hpc : w.threads.producer with
  | loadTail item head =>
    -- the producer is the only one to store `head_`, so its own index is still published
    obtain ⟨seen, -, -, -, hok⟩ := h.threads.producer
    rw [hpc] at hok
    have hown : head = w.threads.queue.head := hok.trans h.threads.head.symm
    simp only [TailNoted, SpscQueue.size, hown]
  | cacheTail item head loaded =>
    rw [hpc] at hnoted
    exact hnoted
  | compare item head => dsimp only; split_ifs <;> trivial
  | recompare item head => dsimp only; split_ifs <;> trivial
  | _ => trivial

theorem Inv.pop_noted {w : Watch T} {pos : Nat} {l : List T} (h : Inv c w pos l) (x : T) :
    HeadNoted c (w.pop c x).1.threads.queue (w.pop c x).1.headShown
      (w.pop c x).1.threads.consumer := by
  have hnoted := h.headNoted
  rw [pop_threads]
  unfold pop Spsc.tryPop
  cases hpc : w.threads.consumer with
  | loadHead tail =>
    obtain ⟨seen, -, -, -, hok⟩ := h.threads.consumer
    rw [hpc] at hok
    have hown : tail = w.threads.queue.tail := hok.trans h.threads.tail.symm
    simp only [HeadNoted, SpscQueue.size, hown]
  | cacheHead tail loaded =>
    rw [hpc] at hnoted
    exact hnoted
  | compare tail => dsimp only; split_ifs <;> trivial
  | recompare tail => dsimp only; split_ifs <;> trivial
  | _ => trivial

theorem Inv.pop_kept {w : Watch T} {pos : Nat} {l : List T} (h : Inv c w pos l) (x : T) :
    ItemKept (w.pop c x).1.item (w.pop c x).1.entry (w.pop c x).1.threads.consumer := by
  have hkept := h.kept
  rw [pop_threads]
  unfold pop Spsc.tryPop
  cases hpc : w.threads.consumer with
  | idle => rfl
  | copy tail => rfl
  | publish tail item => trivial
  | compare tail =>
    rw [hpc] at hkept
    dsimp only
    split_ifs <;> exact hkept
  | recompare tail =>
    rw [hpc] at hkept
    dsimp only
    split_ifs
    · trivial
    · exact hkept
  | _ =>
    rw [hpc] at hkept
    exact hkept

theorem push_item (w : Watch T) (x : T) :
    (w.push c x).1.item = w.item ∧ (w.push c x).1.entry = w.entry ∧
      (w.push c x).1.headShown = w.headShown := by
  unfold push
  cases w.threads.producer with
  | recompare item head => dsimp only; split_ifs <;> exact ⟨rfl, rfl, rfl⟩
  | _ => exact ⟨rfl, rfl, rfl⟩

theorem pop_tailShown (w : Watch T) (x : T) : (w.pop c x).1.tailShown = w.tailShown := by
  unfold pop
  cases w.threads.consumer with
  | recompare tail => dsimp only; split_ifs <;> rfl
  | _ => rfl

theorem Inv.push_justified {w : Watch T} {pos : Nat} {l : List T} (h : Inv c w pos l)
    (hword : c.val < 2 ^ 64) (x : T) : ∀ r ∈ (w.push c x).2, Justified c r := by
  have hnoted := h.tailNoted
  obtain ⟨hret, -⟩ | ⟨item, head, hpc, hfull, hret, -⟩ | ⟨item, head, -, hret, -⟩ :=
    push_cases c w x
  · simp [hret]
  · obtain ⟨seen, -, -, -, hok⟩ := h.threads.producer
    rw [hpc] at hok hnoted
    intro r hr
    obtain rfl := List.mem_singleton.1 (hret ▸ hr)
    refine ⟨fun _ => ?_, nofun⟩
    rw [show w.tailShown = _ from hnoted, ← hfull, show head = _ from hok, c.shown_next hword]
  · intro r hr
    obtain rfl := List.mem_singleton.1 (hret ▸ hr)
    exact ⟨nofun, nofun⟩

theorem Inv.pop_justified {w : Watch T} {pos : Nat} {l : List T} (h : Inv c w pos l) (x : T) :
    ∀ r ∈ (w.pop c x).2, Justified c r := by
  have hnoted := h.headNoted
  have hkept := h.kept
  obtain ⟨hret, -⟩ | ⟨tail, hpc, hempty, hret, -⟩ | ⟨tail, item, -, hret, -⟩ := pop_cases c w x
  · simp [hret]
  · rw [hpc] at hnoted hkept
    intro r hr
    obtain rfl := List.mem_singleton.1 (hret ▸ hr)
    refine ⟨nofun, fun item hres => ?_⟩
    cases hres
    refine ⟨?_, ?_⟩
    · rw [show w.headShown = _ from hnoted, ← hempty, c.shown_self]
    · rw [show w.item = w.entry from hkept]
  · intro r hr
    obtain rfl := List.mem_singleton.1 (hret ▸ hr)
    exact ⟨nofun, nofun⟩

/-- One turn. -/
theorem Inv.turn {w : Watch T} {pos : Nat} {l : List T} (h : Inv c w pos l) (m : Call T) :
    ∃ pos' l', Inv c (w.turn c m).1 pos' l' ∧
      FifoRun (c.val - 1) l ((w.turn c m).2.filterMap Return.event) l' := by
  cases m with
  | push x =>
    obtain ⟨l', hinv, hrun⟩ := h.threads.tryPush x
    obtain ⟨hitem, hentry, hshown⟩ := push_item (c := c) w x
    refine ⟨pos, l', ⟨?_, h.push_noted x, ?_, ?_⟩, ?_⟩
    · exact (push_threads w x).symm ▸ hinv
    · have hnoted := h.headNoted
      simp only [Watch.turn, push_threads, hshown, Spsc.tryPush_consumer]
      cases hpc : w.threads.consumer with
      | recompare tail =>
        rw [hpc] at hnoted
        rw [HeadNoted, Spsc.tryPush_headCache]
        exact hnoted
      | _ => rw [hpc] at hnoted; exact hnoted
    · simp only [Watch.turn, push_threads, hitem, hentry, Spsc.tryPush_consumer]
      exact h.kept
    · exact (push_events w x).symm ▸ hrun
  | pop x =>
    obtain ⟨pos', l', hinv, hrun⟩ := h.threads.tryPop
    refine ⟨pos', l', ⟨?_, ?_, h.pop_noted x, h.pop_kept x⟩, ?_⟩
    · exact (pop_threads w x).symm ▸ hinv
    · have hnoted := h.tailNoted
      simp only [Watch.turn, pop_threads, pop_tailShown, Spsc.tryPop_producer]
      cases hpc : w.threads.producer with
      | recompare item head =>
        rw [hpc] at hnoted
        rw [TailNoted, Spsc.tryPop_tailCache]
        exact hnoted
      | _ => rw [hpc] at hnoted; exact hnoted
    · exact (h.pop_events x).symm ▸ hrun

theorem Inv.turn_justified {w : Watch T} {pos : Nat} {l : List T} (h : Inv c w pos l)
    (hword : c.val < 2 ^ 64) (m : Call T) : ∀ r ∈ (w.turn c m).2, Justified c r := by
  cases m with
  | push x => exact h.push_justified hword x
  | pop x => exact h.pop_justified x

theorem Inv.run {w : Watch T} {pos : Nat} {l : List T} (h : Inv c w pos l)
    (hword : c.val < 2 ^ 64) (ms : List (Call T)) :
    ∃ pos' l', Inv c (w.run c ms).1 pos' l' ∧
      FifoRun (c.val - 1) l ((w.run c ms).2.filterMap Return.event) l' ∧
      ∀ r ∈ (w.run c ms).2, Justified c r := by
  induction ms generalizing w pos l with
  | nil => exact ⟨pos, l, h, .nil l, by simp [Watch.run]⟩
  | cons m ms ih =>
    obtain ⟨pos₁, l₁, h₁, hturn⟩ := h.turn m
    obtain ⟨pos', l', h', hrun, hjust⟩ := ih h₁
    refine ⟨pos', l', h', ?_, ?_⟩
    · rw [Watch.run, List.filterMap_append]
      exact hturn.append hrun
    · intro r hr
      rcases List.mem_append.1 hr with hr | hr
      · exact h.turn_justified hword m r hr
      · exact hjust r hr

theorem Inv.size {w : Watch T} {pos : Nat} {l : List T} (h : Inv c w pos l)
    (hword : c.val < 2 ^ 64) : (w.threads.queue.size c).toNat = l.length := by
  rw [SpscQueue.size, h.threads.head, h.threads.tail]
  exact c.shown_toNat hword pos h.threads.room

end Watch

/-! ## Calls that do not overlap -/

/-- The same ring without cached indices. -/
structure PlainQueue (T : Type) where
  buffer : Nat → T
  head : Nat := 0
  tail : Nat := 0

namespace PlainQueue

variable {T : Type} (c : Capacity)

def new (T : Type) [Inhabited T] : PlainQueue T where
  buffer := fun _ => default

def call (q : PlainQueue T) : Call T → PlainQueue T × Result T
  | .push item =>
    if c.next q.head = q.tail then (q, .pushed false)
    else
      ({ q with
        buffer := Function.update q.buffer q.head item
        head := c.next q.head }, .pushed true)
  | .pop item =>
    if q.tail = q.head then (q, .popped false item)
    else ({ q with tail := c.next q.tail }, .popped true (q.buffer q.tail))

def run (q : PlainQueue T) : List (Call T) → PlainQueue T × List (Result T)
  | [] => (q, [])
  | m :: ms =>
    let r := q.call c m
    let r' := run r.1 ms
    (r'.1, r.2 :: r'.2)

theorem run_append (q : PlainQueue T) (a b : List (Call T)) :
    q.run c (a ++ b) =
      (((q.run c a).1.run c b).1, (q.run c a).2 ++ ((q.run c a).1.run c b).2) := by
  induction a generalizing q with
  | nil => rfl
  | cons m a ih => simp [run, ih]

end PlainQueue

namespace Watch

variable {T : Type} {c : Capacity}

/-- No call is under way on the other side. -/
def Alone (s : Spsc T) : Call T → Prop
  | .push _ => s.consumer = .idle
  | .pop _ => s.producer = .idle

/-- A schedule in which no two calls overlap. -/
def Sequential (c : Capacity) (w : Watch T) : List (Call T) → Prop
  | [] => True
  | m :: ms => Alone w.threads m ∧ Sequential c (w.turn c m).1 ms

/-- Without overlap the loaded index is still the published one. -/
def TailFresh (q : SpscQueue T) : PushPc T → Prop
  | .cacheTail _ _ loaded => loaded = q.tail
  | .recompare _ _ => q.tailCache = q.tail
  | _ => True

def HeadFresh (q : SpscQueue T) : PopPc T → Prop
  | .cacheHead _ loaded => loaded = q.head
  | .recompare _ => q.headCache = q.head
  | _ => True

/-- The plain queue has the published indices and holds the same items. -/
structure Tracks (c : Capacity) (w : Watch T) (q : PlainQueue T) (l : List T) : Prop where
  head : q.head = w.threads.queue.head
  tail : q.tail = w.threads.queue.tail
  holds : Holds c.val q.buffer q.tail l
  tailFresh : TailFresh w.threads.queue w.threads.producer
  headFresh : HeadFresh w.threads.queue w.threads.consumer

theorem Tracks.new [Inhabited T] (c : Capacity) : Tracks c (Watch.new T) (.new T) [] where
  head := rfl
  tail := rfl
  holds := by intro j x hj; simp at hj
  tailFresh := trivial
  headFresh := trivial

theorem Tracks.push_fresh {w : Watch T} {l : List T} {q : PlainQueue T}
    (ht : Tracks c w q l) (x : T) :
    TailFresh (w.push c x).1.threads.queue (w.push c x).1.threads.producer := by
  have hfresh := ht.tailFresh
  rw [push_threads]
  unfold Spsc.tryPush
  cases hpc : w.threads.producer with
  | cacheTail item head loaded =>
    rw [hpc] at hfresh
    exact hfresh
  | loadTail item head => rfl
  | compare item head => dsimp only; split_ifs <;> trivial
  | recompare item head => dsimp only; split_ifs <;> trivial
  | _ => trivial

theorem Tracks.pop_fresh {w : Watch T} {l : List T} {q : PlainQueue T}
    (ht : Tracks c w q l) (x : T) :
    HeadFresh (w.pop c x).1.threads.queue (w.pop c x).1.threads.consumer := by
  have hfresh := ht.headFresh
  rw [pop_threads]
  unfold Spsc.tryPop
  cases hpc : w.threads.consumer with
  | cacheHead tail loaded =>
    rw [hpc] at hfresh
    exact hfresh
  | loadHead tail => rfl
  | compare tail => dsimp only; split_ifs <;> trivial
  | recompare tail => dsimp only; split_ifs <;> trivial
  | _ => trivial

/-- A turn of the producer while the consumer is idle. -/
theorem Tracks.push {w : Watch T} {pos : Nat} {l l' : List T} {q : PlainQueue T}
    (h : Inv c w pos l) (ht : Tracks c w q l) (hidle : w.threads.consumer = .idle) (x : T)
    (hrun : FifoRun (c.val - 1) l ((w.push c x).2.filterMap Return.event) l') :
    ∃ q', q.run c ((w.push c x).2.map (·.call)) = (q', (w.push c x).2.map (·.result)) ∧
      Tracks c (w.push c x).1 q' l' := by
  have hhead := ht.head
  have htail : q.tail = (w.push c x).1.threads.queue.tail := by
    rw [push_threads, Spsc.tryPush_tail, ht.tail]
  have hquiet : HeadFresh (w.push c x).1.threads.queue (w.push c x).1.threads.consumer := by
    rw [push_threads, Spsc.tryPush_consumer, hidle]
    trivial
  have hstop : q.head = (q.tail + l.length) % c.val := by
    rw [hhead, ht.tail, h.threads.head, h.threads.tail, Nat.mod_add_mod]
  obtain ⟨seen, hcache, hseen, -, hok⟩ := h.threads.producer
  obtain ⟨hret, -, hsame⟩ | ⟨item, head, hpc, hfull, hret, -, hsame⟩ |
    ⟨item, head, hpc, hret, -, hnext⟩ := push_cases c w x
  · rw [hret] at hrun ⊢
    cases hrun
    exact ⟨q, rfl, ⟨by rw [push_threads, hsame, hhead], htail, ht.holds, ht.push_fresh x, hquiet⟩⟩
  · have hfresh := ht.tailFresh
    rw [hpc] at hok hfresh
    rw [hret] at hrun ⊢
    cases hrun
    -- the cached index is the published one, so the plain queue is full as well
    have hplain : c.next q.head = q.tail := by
      rw [hhead, h.threads.head, ← show head = _ from hok, hfull, ht.tail]
      exact hfresh
    refine ⟨q, by simp [PlainQueue.run, PlainQueue.call, hplain], ?_⟩
    exact ⟨by rw [push_threads, hsame, hhead], htail, ht.holds, ht.push_fresh x, hquiet⟩
  · rw [hpc] at hok
    obtain ⟨hown, hfree, -⟩ := hok
    rw [hret] at hrun ⊢
    obtain rfl : l' = l ++ [item] := by
      rcases hrun with _ | ⟨step, rest⟩
      cases step
      cases rest
      rfl
    have hplain : c.next q.head ≠ q.tail := by
      rw [hhead, ht.tail, h.threads.head, h.threads.tail]
      exact (Spsc.next_ne_iff (by omega) (by have := h.threads.room; omega)).2 (by omega)
    refine ⟨⟨Function.update q.buffer q.head item, c.next q.head, q.tail⟩,
      by simp [PlainQueue.run, PlainQueue.call, hplain], ?_, htail, ?_, ht.push_fresh x, hquiet⟩
    · rw [push_threads, hnext, hhead, h.threads.head, hown]
    · have hwrite := ht.holds.write h.threads.room item
      rw [← hstop] at hwrite
      apply hwrite.append
      rw [← hstop]
      exact Function.update_self ..

/-- A turn of the consumer while the producer is idle. -/
theorem Tracks.pop {w : Watch T} {pos : Nat} {l l' : List T} {q : PlainQueue T}
    (h : Inv c w pos l) (ht : Tracks c w q l) (hidle : w.threads.producer = .idle) (x : T)
    (hrun : FifoRun (c.val - 1) l ((w.pop c x).2.filterMap Return.event) l') :
    ∃ q', q.run c ((w.pop c x).2.map (·.call)) = (q', (w.pop c x).2.map (·.result)) ∧
      Tracks c (w.pop c x).1 q' l' := by
  have htail := ht.tail
  have hhead : q.head = (w.pop c x).1.threads.queue.head := by
    rw [pop_threads, Spsc.tryPop_head, ht.head]
  have hquiet : TailFresh (w.pop c x).1.threads.queue (w.pop c x).1.threads.producer := by
    rw [pop_threads, Spsc.tryPop_producer, hidle]
    trivial
  have hkept := h.kept
  obtain ⟨seen, hcache, hseen, hstop, hok⟩ := h.threads.consumer
  obtain ⟨hret, -, hsame⟩ | ⟨tail, hpc, hempty, hret, -, hsame⟩ |
    ⟨tail, item, hpc, hret, -, hnext⟩ := pop_cases c w x
  · rw [hret] at hrun ⊢
    cases hrun
    exact ⟨q, rfl, ⟨hhead, by rw [pop_threads, hsame, htail], ht.holds, hquiet, ht.pop_fresh x⟩⟩
  · have hfresh := ht.headFresh
    rw [hpc] at hok hfresh hkept
    rw [hret] at hrun ⊢
    cases hrun
    have hplain : q.tail = q.head := by
      rw [htail, h.threads.tail, ← show tail = _ from hok, hempty, ht.head]
      exact hfresh
    refine ⟨q, by simp [PlainQueue.run, PlainQueue.call, hplain, show w.item = _ from hkept], ?_⟩
    exact ⟨hhead, by rw [pop_threads, hsame, htail], ht.holds, hquiet, ht.pop_fresh x⟩
  · rw [hpc] at hok hkept
    obtain ⟨hown, hlt, hitem⟩ := hok
    rw [hret] at hrun ⊢
    obtain rfl : l = w.item :: l' := by
      rcases hrun with _ | ⟨step, rest⟩
      cases step
      cases rest
      rfl
    have hplain : q.tail ≠ q.head := by
      rw [htail, ht.head, h.threads.tail, h.threads.head, ne_comm, ne_eq,
        mod_eq_mod_iff (by omega) (by have := h.threads.room; omega)]
      have := h.threads.room
      simp only [List.length_cons] at this ⊢
      omega
    have hslot : q.buffer q.tail = w.item := by
      have := ht.holds.head
      rwa [htail, h.threads.tail, Nat.mod_mod, ← h.threads.tail, ← htail] at this
    refine ⟨⟨q.buffer, q.head, c.next q.tail⟩,
      by simp [PlainQueue.run, PlainQueue.call, hplain, hslot], hhead, ?_, ?_, hquiet,
      ht.pop_fresh x⟩
    · rw [pop_threads, hnext, htail, h.threads.tail, hown]
    · simp only [Capacity.next, c.and_indexMask, holds_mod]
      exact ht.holds.tail

theorem Tracks.run {w : Watch T} {pos : Nat} {l : List T} {q : PlainQueue T}
    (h : Inv c w pos l) (ht : Tracks c w q l) (ms : List (Call T)) (hseq : Sequential c w ms) :
    (q.run c ((w.run c ms).2.map (·.call))).2 = (w.run c ms).2.map (·.result) := by
  induction ms generalizing w pos l q with
  | nil => rfl
  | cons m ms ih =>
    obtain ⟨halone, hrest⟩ := hseq
    obtain ⟨pos', l', h', hrun⟩ := h.turn m
    obtain ⟨q', hcall, ht'⟩ : ∃ q', q.run c ((w.turn c m).2.map (·.call)) =
        (q', (w.turn c m).2.map (·.result)) ∧ Tracks c (w.turn c m).1 q' l' := by
      cases m with
      | push x => exact ht.push h halone x hrun
      | pop x => exact ht.pop h halone x hrun
    rw [Watch.run, List.map_append, List.map_append, PlainQueue.run_append, hcall,
      ih h' ht' hrest]

/-- Under every schedule a refused call is justified by what its load showed, `size()` is the
number of items accepted and not delivered, and calls that do not overlap have the results
they have without cached indices. -/
theorem run_refuses_only_when_must [Inhabited T] (c : Capacity) (hword : c.val < 2 ^ 64)
    (schedule : List (Call T)) :
    (∀ r ∈ ((Watch.new T).run c schedule).2, r.result = .pushed false →
      r.shown = some (UInt64.ofNat (c.val - 1))) ∧
    (∀ r ∈ ((Watch.new T).run c schedule).2, ∀ item, r.result = .popped false item →
      r.shown = some 0 ∧ r.call = .pop item) ∧
    (∃ undelivered, pushes (((Watch.new T).run c schedule).2.filterMap Return.event) =
        pops (((Watch.new T).run c schedule).2.filterMap Return.event) ++ undelivered ∧
      (((Watch.new T).run c schedule).1.threads.queue.size c).toNat = undelivered.length) ∧
    (Sequential c (Watch.new T) schedule →
      ((PlainQueue.new T).run c (((Watch.new T).run c schedule).2.map (·.call))).2 =
        ((Watch.new T).run c schedule).2.map (·.result)) := by
  obtain ⟨pos, l, h, hrun, hjust⟩ := (Inv.new (T := T) c).run hword schedule
  refine ⟨fun r hr => (hjust r hr).full, fun r hr => (hjust r hr).empty, ⟨l, ?_, h.size hword⟩,
    fun hseq => (Tracks.new c).run (.new c) schedule hseq⟩
  simpa using hrun.conserve

/-- Two pushes and two pops on two slots, one after the other. -/
def fillAndDrain : List (Call Nat) :=
  List.replicate 4 (.push 7) ++ List.replicate 5 (.push 8) ++ List.replicate 7 (.pop 0) ++
    List.replicate 5 (.pop 9)

def twoSlots : Capacity where
  val := 2
  powerOfTwo := by decide
  one_lt := by decide

theorem run_fillAndDrain :
    ((Watch.new Nat).run twoSlots fillAndDrain).2.map (·.result) =
      [.pushed true, .pushed false, .popped true 7, .popped false 9] ∧
    ((PlainQueue.new Nat).run twoSlots
      (((Watch.new Nat).run twoSlots fillAndDrain).2.map (·.call))).2 =
        ((Watch.new Nat).run twoSlots fillAndDrain).2.map (·.result) := by
  refine ⟨by decide, (run_refuses_only_when_must twoSlots (by decide) fillAndDrain).2.2.2 ?_⟩
  repeat' constructor

end Watch

end LockfreeMatching
