import Mathlib.Algebra.Group.Nat.Defs
import Mathlib.Data.List.Basic
import Mathlib.Tactic.Common

/-!
# Binary records

Numbers as little-endian bytes, and files that are a sequence of records. The first byte of a
record tells how many bytes it takes, so a file is cut into records from its front, and what
cannot be cut any further is left over: nothing, an incomplete record, or a byte that starts
none.
-/
namespace LockfreeMatching.Lib

/-! ## Little-endian numbers -/

/-- The `n` low bytes of a number, least significant first. -/
def leBytes : Nat → Nat → List UInt8
  | 0, _ => []
  | n + 1, x => .ofNat x :: leBytes n (x / 256)

def leNat : List UInt8 → Nat
  | [] => 0
  | b :: bytes => b.toNat + 256 * leNat bytes

@[simp] theorem length_leBytes (n x : Nat) : (leBytes n x).length = n := by
  induction n generalizing x with
  | zero => rfl
  | succ n ih => simp [leBytes, ih]

theorem leNat_leBytes (n x : Nat) : leNat (leBytes n x) = x % 256 ^ n := by
  induction n generalizing x with
  | zero => simp [leBytes, leNat, Nat.mod_one]
  | succ n ih => simp [leBytes, leNat, ih, Nat.pow_succ', Nat.mod_mul]

theorem leNat_leBytes_of_lt {n x : Nat} (h : x < 256 ^ n) : leNat (leBytes n x) = x := by
  rw [leNat_leBytes, Nat.mod_eq_of_lt h]

/-- The bytes of a field of a record. -/
def field (bytes : List UInt8) (offset size : Nat) : List UInt8 := (bytes.drop offset).take size

@[simp] theorem field_cons (b : UInt8) (bytes : List UInt8) (offset size : Nat) :
    field (b :: bytes) (offset + 1) size = field bytes offset size := rfl

/-- A field behind another one. -/
theorem field_append_right {a bytes : List UInt8} {offset size : Nat} (h : a.length ≤ offset) :
    field (a ++ bytes) offset size = field bytes (offset - a.length) size := by
  simp [field, List.drop_append, List.drop_eq_nil_of_le h]

theorem field_append_left {a bytes : List UInt8} {size : Nat} (h : a.length = size) :
    field (a ++ bytes) 0 size = a := by
  simp [field, ← h]

theorem field_self {a : List UInt8} {size : Nat} (h : a.length = size) : field a 0 size = a := by
  simp [field, ← h]

/-! ## Sequences of records -/

section Frames

variable {β : Type*} (payload : β → Option Nat)

/-- A complete record: a first byte and as many more as it announces. -/
def IsFrame (f : List β) : Prop := ∃ b rest, f = b :: rest ∧ payload b = some rest.length

/-- Nothing can be cut off the front: the first byte starts no record, or the record is
incomplete. -/
def Stuck (bytes : List β) : Prop :=
  ∃ b rest, bytes = b :: rest ∧ ∀ n, payload b = some n → rest.length < n

/-- Cut the records off the front of a file. -/
def frames : List β → List (List β) × List β
  | [] => ([], [])
  | b :: rest =>
    match payload b with
    | none => ([], b :: rest)
    | some n =>
      if n ≤ rest.length then
        ((b :: rest.take n) :: (frames (rest.drop n)).1, (frames (rest.drop n)).2)
      else ([], b :: rest)
termination_by bytes => bytes.length
decreasing_by all_goals simp only [List.length_cons, List.length_drop]; omega

variable {payload}

/-- What is cut off are records, and nothing is lost. -/
theorem frames_sound (bytes : List β) :
    (∀ f ∈ (frames payload bytes).1, IsFrame payload f) ∧
      (frames payload bytes).1.flatten ++ (frames payload bytes).2 = bytes ∧
      ((frames payload bytes).2 = [] ∨ Stuck payload (frames payload bytes).2) := by
  fun_induction frames payload bytes with
  | case1 => simp
  | case2 b rest hb => simp [Stuck, hb]
  | case3 b rest n hb hle ih =>
    obtain ⟨hframe, hflat, hleft⟩ := ih
    refine ⟨?_, by simp [hflat], hleft⟩
    rintro f (_ | ⟨_, hf⟩)
    · exact ⟨b, rest.take n, rfl, by simp [hb, hle]⟩
    · exact hframe f hf
  | case4 b rest n hb hle => simp_all [Stuck]

theorem Stuck.ne_nil {bytes : List β} (h : Stuck payload bytes) : bytes ≠ [] := by
  obtain ⟨b, rest, rfl, -⟩ := h
  exact List.cons_ne_nil b rest

theorem frames_stuck {bytes : List β} (h : Stuck payload bytes) :
    frames payload bytes = ([], bytes) := by
  obtain ⟨b, rest, rfl, hb⟩ := h
  grind [frames]

theorem frames_cons {f : List β} (hf : IsFrame payload f) (bytes : List β) :
    frames payload (f ++ bytes) =
      (f :: (frames payload bytes).1, (frames payload bytes).2) := by
  obtain ⟨b, rest, rfl, hb⟩ := hf
  rw [List.cons_append, frames]
  simp [hb]

/-- Records in front of a file are cut off as they were written. -/
theorem frames_flatten {fs : List (List β)} (h : ∀ f ∈ fs, IsFrame payload f) (bytes : List β) :
    frames payload (fs.flatten ++ bytes) =
      (fs ++ (frames payload bytes).1, (frames payload bytes).2) := by
  induction fs with
  | nil => simp
  | cons f fs ih =>
    have hf := h f List.mem_cons_self
    have hfs := ih fun g hg => h g (List.mem_cons_of_mem _ hg)
    simp [frames_cons hf, hfs]

/-- A proper beginning of a record is stuck. -/
theorem IsFrame.stuck_take {f : List β} (hf : IsFrame payload f) {k : Nat} (hk : 0 < k)
    (hlt : k < f.length) : Stuck payload (f.take k) := by
  obtain ⟨b, rest, rfl, hb⟩ := hf
  obtain ⟨k, rfl⟩ := Nat.exists_eq_succ_of_ne_zero (Nat.ne_of_gt hk)
  refine ⟨b, rest.take k, rfl, ?_⟩
  simp only [hb, Option.some.injEq, forall_eq', List.length_take, List.length_cons] at hlt ⊢
  omega

/-- A file cut short anywhere keeps the records in front of the cut, and only those. -/
theorem frames_take {fs : List (List β)} (h : ∀ f ∈ fs, IsFrame payload f) (k : Nat) :
    ∃ m, m ≤ fs.length ∧ (frames payload (fs.flatten.take k)).1 = fs.take m ∧
      (fs.take m).flatten.length ≤ k ∧
      (m < fs.length → k < (fs.take (m + 1)).flatten.length) ∧
      ((frames payload (fs.flatten.take k)).2 = [] ↔
        k = (fs.take m).flatten.length ∨ fs.flatten.length ≤ k) := by
  induction fs generalizing k with
  | nil => exact ⟨0, by simp [frames]⟩
  | cons f fs ih =>
    have hf := h f List.mem_cons_self
    have hfs : ∀ g ∈ fs, IsFrame payload g := fun g hg => h g (List.mem_cons_of_mem _ hg)
    by_cases hk : f.length ≤ k
    · -- the first record is whole
      obtain ⟨m, hm, hrecords, hlow, hhigh, hleft⟩ := ih hfs (k - f.length)
      have hcut : (f :: fs).flatten.take k = f ++ fs.flatten.take (k - f.length) := by
        simp [List.take_append, List.take_of_length_le hk]
      refine ⟨m + 1, by simpa using hm, ?_, ?_, ?_, ?_⟩
      · rw [hcut, frames_cons hf, hrecords]
        rfl
      · simp only [List.take_succ_cons, List.flatten_cons, List.length_append]
        omega
      · intro hlt
        have := hhigh (by simpa using hlt)
        simp only [List.take_succ_cons, List.flatten_cons, List.length_append]
        omega
      · rw [hcut, frames_cons hf, hleft]
        simp only [List.take_succ_cons, List.flatten_cons, List.length_append]
        omega
    · -- the cut is inside the first record, or in front of it
      have hcut : (f :: fs).flatten.take k = f.take k := by
        simp [List.take_append, show k - f.length = 0 by omega]
      refine ⟨0, by simp, ?_⟩
      rcases Nat.eq_zero_or_pos k with rfl | hpos
      · have hlen : 0 < f.length := by omega
        simp [frames, hlen]
      · have hstuck := hf.stuck_take hpos (by omega)
        have hne := hstuck.ne_nil
        rw [hcut, frames_stuck hstuck]
        refine ⟨rfl, by simp, fun _ => ?_, ?_⟩
        · simp only [Nat.zero_add, List.take_succ_cons, List.take_zero, List.flatten_singleton]
          omega
        · simp only [hne, List.take_zero, List.flatten_nil, List.length_nil, List.flatten_cons,
            List.length_append, false_iff]
          omega

end Frames

end LockfreeMatching.Lib
