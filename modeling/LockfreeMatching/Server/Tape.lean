import LockfreeMatching.Server.DashboardHub
import Mathlib.Data.List.GetD
import Mathlib.Data.List.Induction

/-!
# The dashboard tape

Between two publishes the output thread keeps the newest fills in a vector that becomes a ring
once it is full; a publish hands its rows, oldest first, to the ring of the hub. Each ring shows
the last `fillKeep` rows written to it, and so does the composition of the two.

## Main results

* `DashboardHub.publishOutput_rows`: what the tape of the hub lists after more rows.
* `OutputThread.run_shows_latest`: after a publish it lists the latest fills popped.
-/
namespace LockfreeMatching

open Lib

/-! ## The ring of the hub -/

namespace DashboardHub

/-- The positions of the tape are inside the array. -/
structure TapeOk (hub : DashboardHub) : Prop where
  size : hub.fills.length = fillKeep
  head : hub.fillHead < fillKeep
  count : hub.fillCount ≤ fillKeep

theorem TapeOk.new : TapeOk {} := ⟨List.length_replicate .., by decide, by decide⟩

theorem TapeOk.rows_eq {hub : DashboardHub} (h : hub.TapeOk) :
    hub.fillRows = (hub.fills.rotate hub.fillHead).rtake hub.fillCount := by
  have hsize := h.size
  have hhead := h.head
  have hcount := h.count
  apply List.ext_getElem
  · rw [length_rtake, List.length_rotate, hsize, fillRows, List.length_map, List.length_range]
    omega
  · intro i hi hi'
    have hi : i < hub.fillCount := by simpa [fillRows] using hi
    have hidx : (hub.fillHead + fillKeep - hub.fillCount + i) % fillKeep < hub.fills.length := by
      rw [hsize]
      exact Nat.mod_lt _ (by decide)
    simp only [fillRows, List.rtake, List.getElem_map, List.getElem_range, List.getElem_drop,
      List.getElem_rotate, List.getD_eq_getElem _ _ hidx, List.length_rotate, hsize]
    congr 2
    omega

theorem TapeOk.pushFill {hub : DashboardHub} (h : hub.TapeOk) (row : FillRow) :
    (hub.pushFill row).TapeOk where
  size := by simp [DashboardHub.pushFill, h.size]
  head := Nat.mod_lt _ (by decide)
  count := by
    have := h.count
    simp only [DashboardHub.pushFill]
    split <;> omega

/-- One more row: the oldest goes if the tape is full. -/
theorem TapeOk.rows_pushFill {hub : DashboardHub} (h : hub.TapeOk) (row : FillRow) :
    (hub.pushFill row).fillRows = (hub.fillRows ++ [row]).rtake fillKeep := by
  have hlen : (hub.fills.rotate hub.fillHead).length = fillKeep := by
    grind [List.length_rotate, h.size]
  have hset := rotate_set_succ hub.fills (by rw [h.size]; exact h.head) row
  rw [h.size] at hset
  have hcount := h.count
  rw [(h.pushFill row).rows_eq, h.rows_eq]
  simp only [DashboardHub.pushFill, hset]
  generalize hub.fills.rotate hub.fillHead = l at hlen
  split
  · rename_i hlt
    have hshort : (l.rtake hub.fillCount ++ [row]).length ≤ fillKeep := by
      rw [List.length_append, length_rtake, List.length_singleton]
      omega
    rw [rtake_of_length_le hshort, List.rtake_concat_succ, List.rtake, List.rtake,
      List.drop_tail, List.length_tail, show l.length - 1 - hub.fillCount + 1 =
      l.length - hub.fillCount by omega]
  · have hpos : 0 < fillKeep := by decide
    have hall : l.rtake hub.fillCount = l := rtake_of_length_le (by omega)
    rw [hall, rtake_concat_of_full hlen.ge hpos, rtake_of_length_le hlen.le]
    apply rtake_of_length_le
    rw [List.length_append, List.length_tail, List.length_singleton]
    omega

theorem TapeOk.publishOutput {hub : DashboardHub} (h : hub.TapeOk) (stats : Stats)
    (rows : List FillRow) :
    (hub.publishOutput stats rows).TapeOk ∧
      (hub.publishOutput stats rows).fillRows = (hub.fillRows ++ rows).rtake fillKeep := by
  have hshort : hub.fillRows.length ≤ fillKeep := by simpa [fillRows] using h.count
  have hstats : TapeOk { hub with stats } ∧ fillRows { hub with stats } = hub.fillRows :=
    ⟨⟨h.size, h.head, h.count⟩, rfl⟩
  obtain ⟨hok, heq⟩ := hstats
  unfold DashboardHub.publishOutput
  rw [← heq] at hshort ⊢
  generalize { hub with stats } = hub' at hok hshort
  induction rows generalizing hub' with
  | nil => exact ⟨hok, by simp [rtake_of_length_le hshort]⟩
  | cons row rows ih =>
    have hrows := hok.rows_pushFill row
    obtain ⟨hok', hrows'⟩ := ih (hub'.pushFill row) (hok.pushFill row) (by
      rw [hrows, length_rtake]
      exact Nat.min_le_left _ _)
    refine ⟨hok', ?_⟩
    rw [List.foldl_cons, hrows', hrows, rtake_rtake_append, List.append_assoc,
      List.singleton_append]

end DashboardHub

/-! ## The output thread -/

open DashboardHub

/-- What the output thread keeps for the dashboard, with the hub it publishes to. -/
structure OutputThread where
  pendingFills : List FillRow := []
  pendingHead : Nat := 0
  fillSeq : UInt64 := 0
  hub : DashboardHub := {}

inductive OutputEvent where
  /-- A fill is popped from the output queue; the clock shows `nowMs`. -/
  | fill (f : FillMessage) (nowMs : UInt64)
  /-- The publish timer is due. -/
  | publish (stats : Stats)

def fillRow (seq nowMs : UInt64) (f : FillMessage) : FillRow where
  seq := seq
  tsMs := nowMs
  price := f.price
  qty := f.quantity
  takerIsBid := decide (f.aggressorSide = .bid)

namespace OutputThread

def onFill (o : OutputThread) (f : FillMessage) (nowMs : UInt64) : OutputThread :=
  let row := fillRow (o.fillSeq + 1) nowMs f
  if o.pendingFills.length < fillKeep then
    { o with pendingFills := o.pendingFills ++ [row], fillSeq := o.fillSeq + 1 }
  else
    { o with
      pendingFills := o.pendingFills.set o.pendingHead row
      pendingHead := (o.pendingHead + 1) % fillKeep
      fillSeq := o.fillSeq + 1 }

def publishDashboard (o : OutputThread) (stats : Stats) : OutputThread :=
  let rows := if o.pendingHead ≠ 0 ∧ o.pendingFills.length = fillKeep
    then o.pendingFills.rotate o.pendingHead else o.pendingFills
  { o with hub := o.hub.publishOutput stats rows, pendingFills := [], pendingHead := 0 }

def step (o : OutputThread) : OutputEvent → OutputThread
  | .fill f nowMs => o.onFill f nowMs
  | .publish stats => o.publishDashboard stats

def run (o : OutputThread) (events : List OutputEvent) : OutputThread := events.foldl step o

/-- The fills popped, with the time of each. -/
def popped (events : List OutputEvent) : List (FillMessage × UInt64) :=
  events.filterMap fun
    | .fill f nowMs => some (f, nowMs)
    | .publish _ => none

/-- One row for each fill popped, numbered from one. -/
def poppedRows (events : List OutputEvent) : List FillRow :=
  (popped events).mapIdx fun i p => fillRow (UInt64.ofNat (i + 1)) p.2 p.1

theorem poppedRows_fill (events : List OutputEvent) (f : FillMessage) (nowMs : UInt64) :
    poppedRows (events ++ [.fill f nowMs]) = poppedRows events ++
      [fillRow (UInt64.ofNat ((poppedRows events).length + 1)) nowMs f] := by
  simp [poppedRows, popped, List.mapIdx_concat]

theorem poppedRows_publish (events : List OutputEvent) (stats : Stats) :
    poppedRows (events ++ [.publish stats]) = poppedRows events := by
  simp [poppedRows, popped]

/-- The hub was handed the rows `shown`, and `since` were added after that. -/
structure Tape (o : OutputThread) (shown since : List FillRow) : Prop where
  hub : o.hub.TapeOk
  rows : o.hub.fillRows = shown.rtake fillKeep
  pending : o.pendingFills.rotate o.pendingHead = since.rtake fillKeep
  head : o.pendingHead < fillKeep
  partly : o.pendingFills.length < fillKeep → o.pendingHead = 0
  seq : o.fillSeq = UInt64.ofNat (shown ++ since).length

theorem Tape.new : Tape {} [] [] where
  hub := .new
  rows := rfl
  pending := rfl
  head := by decide
  partly _ := rfl
  seq := rfl

theorem Tape.length {o : OutputThread} {shown since : List FillRow} (h : Tape o shown since) :
    o.pendingFills.length = min fillKeep since.length := by
  rw [← length_rtake, ← h.pending, List.length_rotate]

theorem Tape.onFill {o : OutputThread} {shown since : List FillRow} (h : Tape o shown since)
    (f : FillMessage) (nowMs : UInt64) :
    Tape (o.onFill f nowMs) shown
      (since ++ [fillRow (UInt64.ofNat ((shown ++ since).length + 1)) nowMs f]) := by
  have hlen := h.length
  have hpend := h.pending
  have hseq : o.fillSeq + 1 = UInt64.ofNat ((shown ++ since).length + 1) := by
    rw [h.seq, UInt64.ofNat_add]
    rfl
  have hcount : ∀ row : FillRow, (shown ++ (since ++ [row])).length =
      (shown ++ since).length + 1 := fun row => by simp [Nat.add_assoc]
  unfold OutputThread.onFill
  rw [hseq]
  split
  · -- the vector still grows
    rename_i hlt
    have hzero := h.partly hlt
    rw [hzero, List.rotate_zero, rtake_of_length_le (by omega)] at hpend
    refine ⟨h.hub, h.rows, ?_, h.head, fun _ => hzero, by rw [hcount]⟩
    simp only [hzero, List.rotate_zero, hpend]
    exact (rtake_of_length_le (by rw [List.length_append, List.length_singleton]; omega)).symm
  · -- the oldest row is overwritten
    have hfull : o.pendingFills.length = fillKeep := by omega
    have hset := rotate_set_succ o.pendingFills (by rw [hfull]; exact h.head)
      (fillRow (UInt64.ofNat ((shown ++ since).length + 1)) nowMs f)
    rw [hfull, hpend] at hset
    refine ⟨h.hub, h.rows, ?_, Nat.mod_lt _ (by decide), ?_, by rw [hcount]⟩
    · simp only [hset]
      exact (rtake_concat_of_full (by omega) (by decide) _).symm
    · simp only [List.length_set]
      omega

theorem Tape.publishDashboard {o : OutputThread} {shown since : List FillRow}
    (h : Tape o shown since) (stats : Stats) :
    Tape (o.publishDashboard stats) (shown ++ since) [] := by
  -- oldest first, whether or not the vector wrapped around
  have hrows : (if o.pendingHead ≠ 0 ∧ o.pendingFills.length = fillKeep
      then o.pendingFills.rotate o.pendingHead else o.pendingFills) = since.rtake fillKeep := by
    rw [← h.pending]
    split
    · rfl
    · rename_i hno
      have hlen := h.length
      have hzero : o.pendingHead = 0 := by
        by_contra hne
        exact hne (h.partly (by have := not_and.1 hno hne; omega))
      grind [List.rotate_zero]
  unfold OutputThread.publishDashboard
  rw [hrows]
  obtain ⟨hok, heq⟩ := h.hub.publishOutput stats (since.rtake fillKeep)
  refine ⟨hok, ?_, rfl, Nat.zero_lt_of_lt h.head, fun _ => rfl, ?_⟩
  · rw [heq, h.rows, rtake_rtake_append, rtake_append_rtake]
  · rw [List.append_nil]
    exact h.seq

/-- The two rings after any events. -/
theorem run_tape (events : List OutputEvent) :
    ∃ shown since, Tape (run {} events) shown since ∧ shown ++ since = poppedRows events := by
  induction events using List.reverseRecOn with
  | nil => exact ⟨[], [], .new, rfl⟩
  | append_singleton events event ih =>
    obtain ⟨shown, since, htape, hall⟩ := ih
    rw [run, List.foldl_concat]
    cases event with
    | fill f nowMs =>
      have hnext := htape.onFill f nowMs
      refine ⟨shown, _, hnext, ?_⟩
      grind [poppedRows_fill]
    | publish stats =>
      refine ⟨shown ++ since, [], htape.publishDashboard stats, ?_⟩
      grind [poppedRows_publish]

/-- After a publish the tape lists the last `fillKeep` fills popped, or all if there are fewer,
oldest first and under consecutive numbers, however many came since the publish before. -/
theorem run_shows_latest (events : List OutputEvent) (stats : Stats) :
    (run {} (events ++ [.publish stats])).hub.fillRows = (poppedRows events).rtake fillKeep := by
  obtain ⟨shown, since, htape, hall⟩ := run_tape events
  have hpub := htape.publishDashboard stats
  rw [run, List.foldl_concat]
  exact hpub.rows.trans (by rw [hall])

end OutputThread

end LockfreeMatching
