import Mathlib.Order.Defs.Unbundled
import Mathlib.Data.List.Basic

/-!
# Ordered maps

A finite map as the list of its entries in increasing key order, smallest key first. The
order is carried by the structure, so the first entry is always the one with the least key
and a key occurs once.

`find?_set` and `find?_erase` describe the two updates by what is found afterwards, and
`mem_entries` relates finding to the entries themselves.
-/
namespace LockfreeMatching.Lib

variable {K V : Type*} {lt : K → K → Prop}

/-- Entries with strictly increasing keys. -/
structure OrderedMap (K V : Type*) (lt : K → K → Prop) where
  entries : List (K × V)
  sorted : entries.Pairwise fun a b => lt a.1 b.1

namespace OrderedMap

/-- Replace the value at `k`, or put a new entry where its key belongs. -/
def setEntries [DecidableEq K] (lt : K → K → Prop) [DecidableRel lt] (k : K) (v : V) :
    List (K × V) → List (K × V)
  | [] => [(k, v)]
  | a :: l =>
    if k = a.1 then (k, v) :: l
    else if lt k a.1 then (k, v) :: a :: l
    else a :: setEntries lt k v l

theorem mem_setEntries [DecidableEq K] [DecidableRel lt] {k : K} {v : V} {l : List (K × V)}
    {a : K × V} (h : a ∈ setEntries lt k v l) : a = (k, v) ∨ a ∈ l := by
  induction l with
  | nil => simpa [setEntries] using h
  | cons b l ih =>
    unfold setEntries at h
    split_ifs at h <;> grind

theorem setEntries_sorted [DecidableEq K] [DecidableRel lt] [IsTrans K lt]
    [Std.Trichotomous lt] {k : K} {v : V} {l : List (K × V)}
    (h : l.Pairwise fun a b => lt a.1 b.1) :
    (setEntries lt k v l).Pairwise fun a b => lt a.1 b.1 := by
  induction l with
  | nil => simp [setEntries]
  | cons b l ih =>
    obtain ⟨hb, hl⟩ := List.pairwise_cons.1 h
    unfold setEntries
    split_ifs with heq hlt
    · exact List.pairwise_cons.2 ⟨fun a ha => heq ▸ hb a ha, hl⟩
    · refine List.pairwise_cons.2 ⟨fun a ha => ?_, h⟩
      rcases List.mem_cons.1 ha with rfl | ha
      exacts [hlt, IsTrans.trans _ _ _ hlt (hb a ha)]
    · -- the new key comes after `b`
      have hbk : lt b.1 k := ((trichotomous_of lt k b.1).resolve_left hlt).resolve_left heq
      refine List.pairwise_cons.2 ⟨fun a ha => ?_, ih hl⟩
      rcases mem_setEntries ha with rfl | ha
      exacts [hbk, hb a ha]

def empty : OrderedMap K V lt := ⟨[], .nil⟩

/-- The entry with the least key. -/
def first? (m : OrderedMap K V lt) : Option (K × V) := m.entries.head?

variable [DecidableEq K]

def find? (m : OrderedMap K V lt) (k : K) : Option V :=
  (m.entries.find? (·.1 = k)).map (·.2)

def set [DecidableRel lt] [IsTrans K lt] [Std.Trichotomous lt] (m : OrderedMap K V lt) (k : K)
    (v : V) : OrderedMap K V lt :=
  ⟨setEntries lt k v m.entries, setEntries_sorted m.sorted⟩

def erase (m : OrderedMap K V lt) (k : K) : OrderedMap K V lt :=
  ⟨m.entries.filter (·.1 ≠ k), m.sorted.sublist List.filter_sublist⟩

theorem mem_erase {m : OrderedMap K V lt} {k : K} {a : K × V} :
    a ∈ (m.erase k).entries ↔ a ∈ m.entries ∧ a.1 ≠ k := by
  simp [erase]

theorem mem_set [DecidableRel lt] [IsTrans K lt] [Std.Trichotomous lt] {m : OrderedMap K V lt}
    {k : K} {v : V} {a : K × V} (h : a ∈ (m.set k v).entries) : a = (k, v) ∨ a ∈ m.entries :=
  mem_setEntries h

@[simp] theorem find?_empty (k : K) : (empty : OrderedMap K V lt).find? k = none := rfl

theorem find?_set [DecidableRel lt] [IsTrans K lt] [Std.Trichotomous lt] (m : OrderedMap K V lt)
    (k j : K) (v : V) : (m.set k v).find? j = if j = k then some v else m.find? j := by
  obtain ⟨l, hl⟩ := m
  simp only [find?, set]
  clear hl
  induction l with
  | nil => by_cases h : j = k <;> simp [setEntries, h, eq_comm]
  | cons b l ih =>
    simp only [setEntries]
    split_ifs <;> grind

theorem find?_erase (m : OrderedMap K V lt) (k j : K) :
    (m.erase k).find? j = if j = k then none else m.find? j := by
  obtain ⟨l, hl⟩ := m
  simp only [find?, erase]
  clear hl
  induction l with
  | nil => simp
  | cons b l ih => grind

/-- A key occurs once, so an entry is found under its key. -/
theorem mem_entries [Std.Irrefl lt] (m : OrderedMap K V lt) {k : K} {v : V} :
    (k, v) ∈ m.entries ↔ m.find? k = some v := by
  obtain ⟨l, hl⟩ := m
  unfold find?
  induction l with
  | nil => simp
  | cons b l ih =>
    obtain ⟨hb, hl'⟩ := List.pairwise_cons.1 hl
    have ih := ih hl'
    by_cases hk : b.1 = k
    · have hnot : ∀ w, (k, w) ∉ l := by
        intro w hw
        have := hb _ hw
        simp only [hk] at this
        exact Std.Irrefl.irrefl k this
      grind
    · grind

/-- Replacing the first value leaves the rest in place. -/
theorem set_first [DecidableRel lt] [IsTrans K lt] [Std.Trichotomous lt] {m : OrderedMap K V lt}
    {a : K × V} {l : List (K × V)} (h : m.entries = a :: l) (v : V) :
    (m.set a.1 v).entries = (a.1, v) :: l := by
  simp [set, h, setEntries]

end OrderedMap

end LockfreeMatching.Lib
