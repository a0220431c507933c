import LockfreeMatching.Core.Types
import LockfreeMatching.Lib.LinkedList

/-!
# Fixed-size memory pool

A pool hands out raw slots from a free list threaded through the unused slots themselves.
Memory is a map from addresses to cells, and a cell holds either a free-list node or an
object, never both: pushing a slot back overwrites the dead object, constructing an object
overwrites the link. Reading a cell as the wrong kind yields an arbitrary default, and
`FreeList` is the invariant under which `allocate` never does so.

## Main results

* `FreeList.new`: the constructor threads all slots, lowest address first.
* `FreeList.allocate`, `FreeList.deallocate`: pop and push on the ghost list.
-/
namespace LockfreeMatching

open Lib

/-- One slot of storage. -/
inductive Cell (T : Type) where
  | raw
  | node (next : Option Ptr)
  | object (value : T)

/-- The object stored in a cell, an arbitrary one when there is none. -/
def Cell.value {T : Type} [Inhabited T] : Cell T → T
  | .object v => v
  | _ => default

/-- The link stored in a cell, null when the cell is not a free-list node. -/
def Cell.link {T : Type} : Cell T → Option Ptr
  | .node n => n
  | _ => none

/-- Address of slot `i`. -/
def slotPtr (i : Nat) : Ptr := ⟨i % (18446744073709551615), Nat.mod_lt _ (by decide)⟩

theorem slotPtr_inj {i j : Nat} (hi : i < 18446744073709551615) (hj : j < 18446744073709551615)
    (h : slotPtr i = slotPtr j) : i = j := by
  have hval : i % (18446744073709551615) = j % (18446744073709551615) := congrArg Fin.val h
  rwa [Nat.mod_eq_of_lt hi, Nat.mod_eq_of_lt hj] at hval

structure MemoryPool (T : Type) where
  storage : Ptr → Cell T
  freeHead : Option Ptr
  available : UInt64

namespace MemoryPool

variable {T : Type}

/-- The constructor loop: push slots `i - 1, ..., 0` onto the free list. -/
def linkSlots : Nat → MemoryPool T → MemoryPool T
  | 0, m => m
  | i + 1, m =>
    linkSlots i
      { m with
        storage := Function.update m.storage (slotPtr i) (.node m.freeHead)
        freeHead := some (slotPtr i) }

def new (T : Type) (poolSize : Nat) : MemoryPool T :=
  linkSlots poolSize
    { storage := fun _ => .raw, freeHead := none, available := UInt64.ofNat poolSize }

/-- Pop a slot off the free list; null if the pool is exhausted. -/
def allocate (m : MemoryPool T) : Option Ptr × MemoryPool T :=
  match m.freeHead with
  | none => (none, m)
  | some p =>
    (some p, { m with freeHead := (m.storage p).link, available := m.available - 1 })

/-- Push a slot back onto the free list. -/
def deallocate (m : MemoryPool T) (p : Ptr) : MemoryPool T :=
  { storage := Function.update m.storage p (.node m.freeHead)
    freeHead := some p
    available := m.available + 1 }

/-! ## The free list -/

/-- Following the stored links from `head` visits the nodes `free`. -/
structure Threaded (storage : Ptr → Cell T) (head : Option Ptr) (free : List Ptr) : Prop where
  chain : Chain (fun p => (storage p).link) head free
  nodes : ∀ p ∈ free, ∃ next, storage p = .node next
  nodup : free.Nodup

theorem Threaded.congr {s s' : Ptr → Cell T} {head : Option Ptr} {free : List Ptr}
    (h : Threaded s head free) (hs : ∀ p ∈ free, s' p = s p) : Threaded s' head free where
  chain := h.chain.congr fun p hp => by rw [hs p hp]
  nodes p hp := by rw [hs p hp]; exact h.nodes p hp
  nodup := h.nodup

/-- The list determines the cells of its nodes. -/
theorem Threaded.cell_eq {s s' : Ptr → Cell T} {head head' : Option Ptr} {free : List Ptr}
    (h : Threaded s head free) (h' : Threaded s' head' free) {p : Ptr} (hp : p ∈ free) :
    s' p = s p := by
  induction free generalizing head head' with
  | nil => cases hp
  | cons q free ih =>
    have htail : ∀ {s : Ptr → Cell T} {head : Option Ptr}, Threaded s head (q :: free) →
        Threaded s (s q).link free := fun h =>
      ⟨h.chain.2, fun r hr => h.nodes r (by simp [hr]), (List.nodup_cons.1 h.nodup).2⟩
    rcases List.mem_cons.1 hp with rfl | hp
    · obtain ⟨n, hn⟩ := h.nodes p (by simp)
      obtain ⟨n', hn'⟩ := h'.nodes p (by simp)
      have hlink : (s p).link = (s' p).link :=
        (htail h).chain.head_eq.trans (htail h').chain.head_eq.symm
      simp only [hn, hn', Cell.link] at hlink
      rw [hn, hn', hlink]
    · exact ih (htail h) (htail h') hp

/-- Overwriting a slot with a node in front of the list. -/
theorem Threaded.push {s : Ptr → Cell T} {head : Option Ptr} {free : List Ptr} {p : Ptr}
    (h : Threaded s head free) (hp : p ∉ free) :
    Threaded (Function.update s p (.node head)) (some p) (p :: free) := by
  have htail : Threaded (Function.update s p (.node head)) head free :=
    h.congr fun q hq => Function.update_of_ne (by rintro rfl; exact hp hq) _ _
  refine ⟨⟨rfl, ?_⟩, ?_, List.nodup_cons.2 ⟨hp, h.nodup⟩⟩
  · simpa only [Function.update_self, Cell.link] using htail.chain
  · rintro q hq
    rcases List.mem_cons.1 hq with rfl | hq
    · exact ⟨head, Function.update_self ..⟩
    · exact htail.nodes q hq

/-- `free` is the sequence of slots threaded from `freeHead`. -/
structure FreeList (m : MemoryPool T) (free : List Ptr) : Prop where
  threaded : Threaded m.storage m.freeHead free
  available : m.available.toNat = free.length

theorem length_lt_of_nodup {l : List Ptr} (h : l.Nodup) : l.length < 18446744073709551616 := by
  have := h.length_le_card
  rw [Fintype.card_fin] at this
  omega

theorem FreeList.head_eq {m : MemoryPool T} {free : List Ptr} (h : FreeList m free) :
    m.freeHead = free.head? := h.threaded.chain.head_eq

theorem FreeList.allocate_nil {m : MemoryPool T} (h : FreeList m []) :
    m.allocate = (none, m) := by
  simp [MemoryPool.allocate, h.head_eq]

theorem FreeList.allocate_cons {m : MemoryPool T} {p : Ptr} {free : List Ptr}
    (h : FreeList m (p :: free)) :
    ∃ m', m.allocate = (some p, m') ∧ m'.storage = m.storage ∧ FreeList m' free := by
  have hh : m.freeHead = some p := h.head_eq
  refine ⟨{ m with freeHead := (m.storage p).link, available := m.available - 1 },
    by simp only [MemoryPool.allocate, hh], rfl, ⟨h.threaded.chain.2, ?_, ?_⟩, ?_⟩
  · exact fun q hq => h.threaded.nodes q (by simp [hq])
  · exact (List.nodup_cons.1 h.threaded.nodup).2
  · have ha := h.available
    have hle : (1 : UInt64) ≤ m.available := by
      rw [UInt64.le_iff_toNat_le, ha]
      simp
    simp only [UInt64.toNat_sub_of_le _ _ hle, ha, List.length_cons]
    simp

/-- Handing a slot out, using it and taking it back leaves the pool as it was. -/
theorem FreeList.allocate_deallocate {m : MemoryPool T} {p : Ptr} {free : List Ptr}
    (h : FreeList m (p :: free)) (c : Cell T) :
    ∃ pool, m.allocate = (some p, pool) ∧
      MemoryPool.deallocate { pool with storage := Function.update pool.storage p c } p = m := by
  have hh : m.freeHead = some p := h.head_eq
  obtain ⟨next, hnode⟩ := h.threaded.nodes p (by simp)
  refine ⟨{ m with freeHead := (m.storage p).link, available := m.available - 1 },
    by simp only [MemoryPool.allocate, hh], ?_⟩
  obtain ⟨storage, freeHead, available⟩ := m
  simp only at hh hnode
  simp only [MemoryPool.deallocate, hnode, Cell.link, Function.update_idem, ← hh, mk.injEq,
    true_and]
  refine ⟨?_, by grind⟩
  rw [← hnode]
  exact Function.update_eq_self p storage

theorem FreeList.deallocate {m : MemoryPool T} {p : Ptr} {free : List Ptr}
    (h : FreeList m free) (hp : p ∉ free) : FreeList (m.deallocate p) (p :: free) := by
  have hpush := h.threaded.push hp
  refine ⟨hpush, ?_⟩
  have hlen := length_lt_of_nodup hpush.nodup
  have ha := h.available
  simp only [List.length_cons] at hlen ⊢
  simp only [MemoryPool.deallocate, UInt64.toNat_add, ha, UInt64.toNat_one]
  omega

/-! ## The constructor -/

theorem linkSlots_available (n : Nat) (m : MemoryPool T) :
    (linkSlots n m).available = m.available := by
  induction n generalizing m with
  | zero => rfl
  | succ n ih => exact ih _

/-- The loop puts slot `n - 1` in front of the slots `n, ..., n + k - 1` linked so far. -/
theorem linkSlots_threaded (n k : Nat) (m : MemoryPool T) (hk : n + k < 18446744073709551616)
    (h : Threaded m.storage m.freeHead ((List.range' n k).map slotPtr)) :
    Threaded (linkSlots n m).storage (linkSlots n m).freeHead
      ((List.range (n + k)).map slotPtr) := by
  induction n generalizing k m with
  | zero => simpa [linkSlots, List.range_eq_range'] using h
  | succ n ih =>
    have hfresh : slotPtr n ∉ (List.range' (n + 1) k).map slotPtr := by
      intro hp
      obtain ⟨i, hi, he⟩ := List.mem_map.1 hp
      simp only [List.mem_range'_1] at hi
      have := slotPtr_inj (by omega) (by omega) he
      omega
    have hpush := h.push hfresh
    rw [← List.map_cons, ← List.range'_succ] at hpush
    have := ih (k + 1)
      { m with
        storage := Function.update m.storage (slotPtr n) (.node m.freeHead)
        freeHead := some (slotPtr n) } (by omega) hpush
    rwa [show n + 1 + k = n + (k + 1) by omega]

/-- A fresh pool threads all its slots, lowest address first. -/
theorem FreeList.new (n : Nat) (hn : n < 18446744073709551616) :
    FreeList (MemoryPool.new T n) ((List.range n).map slotPtr) := by
  refine ⟨linkSlots_threaded n 0 _ (by omega) ⟨rfl, by simp, by simp⟩, ?_⟩
  rw [MemoryPool.new, linkSlots_available, UInt64.toNat_ofNat']
  simp only [List.length_map, List.length_range]
  omega

end MemoryPool

end LockfreeMatching
