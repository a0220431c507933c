import LockfreeMatching.Transport.SpscQueue

/-!
# The queue refines a bounded FIFO

Indices and caches are wrapped counters. The invariant keeps the counters themselves as ghost
values: `pos` items were popped, the items `l` are queued behind them, each cache holds some
earlier value of the other thread's counter, and each thread's program counter says what its
last comparison established. A stale cache only errs on the safe side: the producer sees a
consumer that is further behind, the consumer a producer that is.

## Main results

* `Inv.step`: every step keeps the invariant and emits a step of the FIFO, or nothing.
* `run_refines_fifo`: every schedule emits a run of the FIFO of `capacity - 1` items, and the
  producer only ever writes a free slot.
-/
namespace LockfreeMatching.Spsc

open Lib

variable {T : Type} {c : Capacity}

/-- What the producer knows: `seen` is the consumer's counter behind `tail_cache_`, `stop`
the counter behind `head_`. -/
def ProducerOk (n : Nat) (q : SpscQueue T) (seen pos stop : Nat) : PushPc T → Prop
  | .idle => True
  | .compare _ head | .loadTail _ head | .recompare _ head => head = stop % n
  | .cacheTail _ head loaded => head = stop % n ∧ ∃ t, loaded = t % n ∧ seen ≤ t ∧ t ≤ pos
  | .write _ head => head = stop % n ∧ stop + 1 < seen + n
  | .publish item head => head = stop % n ∧ stop + 1 < seen + n ∧ q.buffer head = item

/-- What the consumer knows: `seen` is the producer's counter behind `head_cache_`. -/
def ConsumerOk (n : Nat) (seen pos stop : Nat) (l : List T) : PopPc T → Prop
  | .idle => True
  | .compare tail | .loadHead tail | .recompare tail => tail = pos % n
  | .cacheHead tail loaded => tail = pos % n ∧ ∃ t, loaded = t % n ∧ seen ≤ t ∧ t ≤ stop
  | .copy tail => tail = pos % n ∧ pos < seen
  | .publish tail item => tail = pos % n ∧ pos < seen ∧ l.head? = some item

structure Inv (c : Capacity) (s : Spsc T) (pos : Nat) (l : List T) : Prop where
  head : s.queue.head = (pos + l.length) % c.val
  tail : s.queue.tail = pos % c.val
  room : l.length < c.val
  holds : Holds c.val s.queue.buffer pos l
  producer : ∃ seen, s.queue.tailCache = seen % c.val ∧ seen ≤ pos ∧
    pos + l.length < seen + c.val ∧
    ProducerOk c.val s.queue seen pos (pos + l.length) s.producer
  consumer : ∃ seen, s.queue.headCache = seen % c.val ∧ pos ≤ seen ∧ seen ≤ pos + l.length ∧
    ConsumerOk c.val seen pos (pos + l.length) l s.consumer

theorem Inv.new [Inhabited T] (c : Capacity) : Inv c (Spsc.new T) 0 [] := by
  have := c.one_lt
  refine ⟨rfl, rfl, by simpa using by omega, by intro j x hj; simp at hj,
    ⟨0, rfl, le_refl _, by simpa using by omega, trivial⟩,
    ⟨0, rfl, le_refl _, le_refl _, trivial⟩⟩

/-- The comparison of the producer: the next index meets a stale tail only a full lap ahead. -/
theorem next_ne_iff {seen stop : Nat} (hle : seen ≤ stop) (hlt : stop < seen + c.val) :
    c.next (stop % c.val) ≠ seen % c.val ↔ stop + 1 < seen + c.val := by
  rw [c.next_mod, ne_eq, mod_eq_mod_iff (by omega) (by omega)]
  omega

theorem Inv.tryPush {s : Spsc T} {pos : Nat} {l : List T} (h : Inv c s pos l) (item : T) :
    ∃ l', Inv c (s.tryPush c item).1 pos l' ∧
      FifoRun (c.val - 1) l (s.tryPush c item).2 l' := by
  obtain ⟨hhead, htail, hroom, hholds, ⟨seen, hcache, hseen, hlap, hok⟩, hcons⟩ := h
  unfold Spsc.tryPush
  cases hpc : s.producer with
  | idle =>
    exact ⟨l, ⟨hhead, htail, hroom, hholds, ⟨seen, hcache, hseen, hlap, hhead⟩, hcons⟩, .nil l⟩
  | compare item head =>
    rw [hpc] at hok
    have hhd : head = (pos + l.length) % c.val := hok
    dsimp only
    split_ifs with hfull
    · exact ⟨l, ⟨hhead, htail, hroom, hholds, ⟨seen, hcache, hseen, hlap, hhd⟩, hcons⟩, .nil l⟩
    · rw [hhd, hcache] at hfull
      have hfree := (next_ne_iff (by omega) hlap).1 hfull
      exact ⟨l, ⟨hhead, htail, hroom, hholds, ⟨seen, hcache, hseen, hlap, hhd, hfree⟩, hcons⟩,
        .nil l⟩
  | loadTail item head =>
    rw [hpc] at hok
    exact ⟨l, ⟨hhead, htail, hroom, hholds,
      ⟨seen, hcache, hseen, hlap, hok, pos, htail, hseen, le_refl _⟩, hcons⟩, .nil l⟩
  | cacheTail item head loaded =>
    rw [hpc] at hok
    obtain ⟨hhd, t, ht, hst, htp⟩ := hok
    exact ⟨l, ⟨hhead, htail, hroom, hholds, ⟨t, ht, htp, by omega, hhd⟩, hcons⟩, .nil l⟩
  | recompare item head =>
    rw [hpc] at hok
    have hhd : head = (pos + l.length) % c.val := hok
    dsimp only
    split_ifs with hfull
    · exact ⟨l, ⟨hhead, htail, hroom, hholds, ⟨seen, hcache, hseen, hlap, trivial⟩, hcons⟩, .nil l⟩
    · rw [hhd, hcache] at hfull
      have hfree := (next_ne_iff (by omega) hlap).1 hfull
      exact ⟨l, ⟨hhead, htail, hroom, hholds, ⟨seen, hcache, hseen, hlap, hhd, hfree⟩, hcons⟩,
        .nil l⟩
  | write item head =>
    rw [hpc] at hok
    obtain ⟨hhd, hfree⟩ := hok
    refine ⟨l, ⟨hhead, htail, hroom, ?_, ⟨seen, hcache, hseen, hlap, hhd, hfree, ?_⟩, hcons⟩,
      .nil l⟩
    · rw [hhd]
      exact hholds.write hroom item
    · exact Function.update_self ..
  | publish item head =>
    rw [hpc] at hok
    obtain ⟨hhd, hfree, hslot⟩ := hok
    obtain ⟨hseen', hhc, hps, hss, hco⟩ := hcons
    -- the item enters the FIFO as the new head becomes visible
    refine ⟨l ++ [item], ⟨?_, htail, ?_, hholds.append (hhd ▸ hslot),
      ⟨seen, hcache, hseen, ?_, trivial⟩, ⟨hseen', hhc, hps, ?_, ?_⟩⟩,
      .cons (.push item ?_) (.nil _)⟩
    · simp only [hhd, c.next_mod, List.length_append, List.length_singleton]
      rfl
    · simp only [List.length_append, List.length_singleton]
      omega
    · simp only [List.length_append, List.length_singleton]
      omega
    · simp only [List.length_append, List.length_singleton]
      omega
    · simp only [List.length_append, List.length_singleton]
      cases hcp : s.consumer with
      | cacheHead tail loaded =>
        rw [hcp] at hco
        obtain ⟨htl, t, ht, hst, hts⟩ := hco
        exact ⟨htl, t, ht, hst, by omega⟩
      | publish tail x =>
        rw [hcp] at hco
        obtain ⟨htl, hlt, hx⟩ := hco
        refine ⟨htl, hlt, ?_⟩
        cases l with
        | nil => cases hx
        | cons y ys => exact hx
      | _ => rw [hcp] at hco; exact hco
    · omega

theorem Inv.tryPop {s : Spsc T} {pos : Nat} {l : List T} (h : Inv c s pos l) :
    ∃ pos' l', Inv c (s.tryPop c).1 pos' l' ∧ FifoRun (c.val - 1) l (s.tryPop c).2 l' := by
  obtain ⟨hhead, htail, hroom, hholds, hprod, ⟨seen, hcache, hps, hstop, hok⟩⟩ := h
  unfold Spsc.tryPop
  cases hpc : s.consumer with
  | idle =>
    exact ⟨pos, l, ⟨hhead, htail, hroom, hholds, hprod, ⟨seen, hcache, hps, hstop, htail⟩⟩, .nil l⟩
  | compare tail =>
    rw [hpc] at hok
    have htl : tail = pos % c.val := hok
    dsimp only
    split_ifs with hempty
    · exact ⟨pos, l, ⟨hhead, htail, hroom, hholds, hprod, ⟨seen, hcache, hps, hstop, htl⟩⟩, .nil l⟩
    · have hne : pos ≠ seen := by rintro rfl; exact hempty (htl.trans hcache.symm)
      exact ⟨pos, l, ⟨hhead, htail, hroom, hholds, hprod,
        ⟨seen, hcache, hps, hstop, htl, by omega⟩⟩, .nil l⟩
  | loadHead tail =>
    rw [hpc] at hok
    exact ⟨pos, l, ⟨hhead, htail, hroom, hholds, hprod,
      ⟨seen, hcache, hps, hstop, hok, _, hhead, hstop, le_refl _⟩⟩, .nil l⟩
  | cacheHead tail loaded =>
    rw [hpc] at hok
    obtain ⟨htl, t, ht, hst, hts⟩ := hok
    exact ⟨pos, l, ⟨hhead, htail, hroom, hholds, hprod, ⟨t, ht, by omega, hts, htl⟩⟩, .nil l⟩
  | recompare tail =>
    rw [hpc] at hok
    have htl : tail = pos % c.val := hok
    dsimp only
    split_ifs with hempty
    · exact ⟨pos, l, ⟨hhead, htail, hroom, hholds, hprod, ⟨seen, hcache, hps, hstop, trivial⟩⟩,
        .nil l⟩
    · have hne : pos ≠ seen := by rintro rfl; exact hempty (htl.trans hcache.symm)
      exact ⟨pos, l, ⟨hhead, htail, hroom, hholds, hprod,
        ⟨seen, hcache, hps, hstop, htl, by omega⟩⟩, .nil l⟩
  | copy tail =>
    rw [hpc] at hok
    obtain ⟨htl, hlt⟩ := hok
    refine ⟨pos, l, ⟨hhead, htail, hroom, hholds, hprod, ⟨seen, hcache, hps, hstop, htl, hlt, ?_⟩⟩,
      .nil l⟩
    cases l with
    | nil => simp only [List.length_nil] at hstop; omega
    | cons x xs =>
      rw [htl, hholds.head]
      rfl
  | publish tail item =>
    rw [hpc] at hok
    obtain ⟨htl, hlt, hx⟩ := hok
    obtain ⟨seen', htc, hsp, hlap, hpo⟩ := hprod
    cases l with
    | nil => cases hx
    | cons x xs =>
      obtain rfl : x = item := Option.some.inj hx
      simp only [List.length_cons] at *
      -- the slot is given up as the new tail becomes visible
      have hend : pos + 1 + xs.length = pos + (xs.length + 1) := by omega
      refine ⟨pos + 1, xs, ⟨?_, ?_, by omega, hholds.tail,
        ⟨seen', htc, by omega, by omega, ?_⟩, ⟨seen, hcache, by omega, by omega, trivial⟩⟩,
        .cons (.pop x xs) (.nil _)⟩
      · rw [hend]
        exact hhead
      · simp only [htl, c.next_mod]
      · rw [hend]
        cases hpp : s.producer with
        | cacheTail item head loaded =>
          rw [hpp] at hpo
          obtain ⟨hhd, t, ht, hst, htp⟩ := hpo
          exact ⟨hhd, t, ht, hst, by omega⟩
        | _ => rw [hpp] at hpo; exact hpo

theorem Inv.step {s : Spsc T} {pos : Nat} {l : List T} (h : Inv c s pos l) (m : Move T) :
    ∃ pos' l', Inv c (s.step c m).1 pos' l' ∧ FifoRun (c.val - 1) l (s.step c m).2 l' := by
  cases m with
  | producer item =>
    obtain ⟨l', h', hrun⟩ := h.tryPush item
    exact ⟨pos, l', h', hrun⟩
  | consumer => exact h.tryPop

theorem Inv.run {s : Spsc T} {pos : Nat} {l : List T} (h : Inv c s pos l) (ms : List (Move T)) :
    ∃ pos' l', Inv c (s.run c ms).1 pos' l' ∧ FifoRun (c.val - 1) l (s.run c ms).2 l' := by
  induction ms generalizing s pos l with
  | nil => exact ⟨pos, l, h, .nil l⟩
  | cons m ms ih =>
    obtain ⟨pos₁, l₁, h₁, hstep⟩ := h.step m
    obtain ⟨pos', l', h', hrun⟩ := ih h₁
    exact ⟨pos', l', h', hstep.append hrun⟩

/-- When the producer is about to write, the slot is none of those of the queued items, and
not the one the consumer is about to copy. -/
theorem Inv.write_free {s : Spsc T} {pos : Nat} {l : List T} (h : Inv c s pos l) {item : T}
    {slot : Nat} (hpc : s.producer = .write item slot) :
    (∀ j < l.length, slot ≠ (s.queue.tail + j) &&& c.indexMask) ∧
      ∀ tail, s.consumer = .copy tail → slot ≠ tail := by
  obtain ⟨seen, -, hseen, -, hok⟩ := h.producer
  rw [hpc] at hok
  obtain ⟨hslot, hfree⟩ := hok
  have hne : ∀ j < l.length, slot ≠ (pos + j) % c.val := fun j hj => by
    rw [hslot]
    exact (next_slot_ne hj h.room).symm
  refine ⟨fun j hj => ?_, fun tail hcp => ?_⟩
  · rw [c.and_indexMask, h.tail, Nat.mod_add_mod]
    exact hne j hj
  · obtain ⟨seen', -, -, hstop, hco⟩ := h.consumer
    rw [hcp] at hco
    obtain ⟨rfl, hlt⟩ := hco
    exact hne 0 (by omega)

/-- Under every schedule: the events form a run of the FIFO of `capacity - 1` items; the items
delivered are a prefix of the items accepted; at most `capacity - 1` are under way, and lie
in order in the slots from `tail_` on; and the producer never writes one of these slots, nor
the slot the consumer is about to copy. -/
theorem run_refines_fifo [Inhabited T] (c : Capacity) (schedule : List (Move T)) :
    ∃ queued, FifoRun (c.val - 1) [] ((Spsc.new T).run c schedule).2 queued ∧
      pushes ((Spsc.new T).run c schedule).2 =
        pops ((Spsc.new T).run c schedule).2 ++ queued ∧
      (pushes ((Spsc.new T).run c schedule).2).length -
        (pops ((Spsc.new T).run c schedule).2).length ≤ c.val - 1 ∧
      (∀ j x, queued[j]? = some x →
        ((Spsc.new T).run c schedule).1.queue.buffer
          ((((Spsc.new T).run c schedule).1.queue.tail + j) &&& c.indexMask) = x) ∧
      ∀ item slot, ((Spsc.new T).run c schedule).1.producer = .write item slot →
        (∀ j < queued.length,
          slot ≠ (((Spsc.new T).run c schedule).1.queue.tail + j) &&& c.indexMask) ∧
        ∀ tail, ((Spsc.new T).run c schedule).1.consumer = .copy tail → slot ≠ tail := by
  obtain ⟨pos, l, h, hrun⟩ := (Inv.new (T := T) c).run schedule
  have hcons := hrun.conserve
  simp only [List.nil_append] at hcons
  refine ⟨l, hrun, hcons, ?_, fun j x hj => ?_, fun item slot hpc => h.write_free hpc⟩
  · rw [hcons, List.length_append]
    have := h.room
    omega
  · rw [c.and_indexMask, h.tail, Nat.mod_add_mod]
    exact h.holds j x hj

end LockfreeMatching.Spsc
