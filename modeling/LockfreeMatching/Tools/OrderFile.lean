import LockfreeMatching.Tools.SyntheticWorkload
import LockfreeMatching.Transport.MessageBytes
import Mathlib.Data.List.Induction

/-!
# Order files

The generator tool writes each message as a tag byte and the raw bytes of the message. The replay
tool reads such a file back: it counts the records and stops at the end of the file, inside an
incomplete record or at an unknown tag. It does not pass the messages on yet; the model keeps the
records it read.

An output stream that fails, for want of space, leaves a file that ends somewhere before the last
record was complete.
-/
namespace LockfreeMatching

open Lib

def tagNewOrder : UInt8 := 1

def tagCancel : UInt8 := 2

/-! ## Generator -/

structure OrderFile where
  bytes : List UInt8 := []
  newCount : UInt64 := 0
  cancelCount : UInt64 := 0
  deriving DecidableEq

namespace OrderFile

def writeMessage (pad : NewOrderMessage.Padding) (file : OrderFile) : EngineMessage → OrderFile
  | .newOrder order =>
    { file with
      bytes := file.bytes ++ tagNewOrder :: order.toBytes pad
      newCount := file.newCount + 1 }
  | .cancel cancel =>
    { file with
      bytes := file.bytes ++ tagCancel :: cancel.toBytes
      cancelCount := file.cancelCount + 1 }

end OrderFile

/-- The loop of the generator tool. Record `i` leaves the gaps of an order as `pad i` has them. -/
def WorkloadGenerator.writeFile {ρ : Type} (R : Rng ρ) (dollarsToTicks : Rat → Int)
    (pad : Nat → NewOrderMessage.Padding) (g : WorkloadGenerator ρ) :
    Nat → Option (OrderFile × WorkloadGenerator ρ)
  | 0 => some ({}, g)
  | n + 1 => (writeFile R dollarsToTicks pad g n).bind fun run =>
      (next R dollarsToTicks run.2).map fun step => (run.1.writeMessage (pad n) step.1, step.2)

/-! ## Replay tool -/

namespace OrderFile

structure Replay where
  newCount : UInt64 := 0
  cancelCount : UInt64 := 0
  errorCount : UInt64 := 0
  /-- the records read, tag included -/
  records : List (List UInt8) := []
  deriving DecidableEq

namespace Replay

def error (s : Replay) : Replay := { s with errorCount := s.errorCount + 1 }

def countNew (s : Replay) (record : List UInt8) : Replay :=
  { s with newCount := s.newCount + 1, records := s.records ++ [record] }

def countCancel (s : Replay) (record : List UInt8) : Replay :=
  { s with cancelCount := s.cancelCount + 1, records := s.records ++ [record] }

/-- The loop of the replay tool. A read beyond the end of the file fails, and then the next `get`
fails as well. -/
def loop (s : Replay) : List UInt8 → Replay
  | [] => s
  | tag :: rest =>
    if tag = tagNewOrder then
      if NewOrderMessage.byteSize ≤ rest.length then
        loop (s.countNew (tag :: rest.take NewOrderMessage.byteSize))
          (rest.drop NewOrderMessage.byteSize)
      else s.error
    else if tag = tagCancel then
      if CancelMessage.byteSize ≤ rest.length then
        loop (s.countCancel (tag :: rest.take CancelMessage.byteSize))
          (rest.drop CancelMessage.byteSize)
      else s.error
    else s.error
termination_by bytes => bytes.length
decreasing_by all_goals simp only [List.length_cons, List.length_drop]; omega

end Replay

def replayFile (bytes : List UInt8) : Replay := Replay.loop {} bytes

/-- The message in a record. -/
def messageOfRecord : List UInt8 → Option EngineMessage
  | [] => none
  | tag :: payload =>
    if tag = tagNewOrder then (NewOrderMessage.ofBytes payload).map .newOrder
    else if tag = tagCancel then some (.cancel (CancelMessage.ofBytes payload))
    else none

/-! ## Files as sequences of records -/

/-- The bytes of a message behind a tag. -/
def payloadSize (tag : UInt8) : Option Nat :=
  if tag = tagNewOrder then some NewOrderMessage.byteSize
  else if tag = tagCancel then some CancelMessage.byteSize
  else none

@[simp] theorem payloadSize_tagNewOrder :
    payloadSize tagNewOrder = some NewOrderMessage.byteSize := rfl

@[simp] theorem payloadSize_tagCancel :
    payloadSize tagCancel = some CancelMessage.byteSize := rfl

def record (pad : NewOrderMessage.Padding) : EngineMessage → List UInt8
  | .newOrder order => tagNewOrder :: order.toBytes pad
  | .cancel cancel => tagCancel :: cancel.toBytes

def hasTag (tag : UInt8) (r : List UInt8) : Bool := r.head? = some tag

namespace Replay

/-- What the loop adds to its counters when it has read `records` and is left with `rest`. -/
def after (s : Replay) (records : List (List UInt8)) (rest : List UInt8) : Replay where
  newCount := s.newCount + .ofNat (records.countP (hasTag tagNewOrder))
  cancelCount := s.cancelCount + .ofNat (records.countP (hasTag tagCancel))
  errorCount := s.errorCount + if rest = [] then 0 else 1
  records := s.records ++ records

theorem after_countNew (s : Replay) (payload : List UInt8) (records : List (List UInt8))
    (rest : List UInt8) : (s.countNew (tagNewOrder :: payload)).after records rest =
      s.after ((tagNewOrder :: payload) :: records) rest := by
  have hcancel : tagNewOrder ≠ tagCancel := by decide
  simp [after, countNew, hasTag, hcancel, UInt64.ofNat_add]
  grind

theorem after_countCancel (s : Replay) (payload : List UInt8) (records : List (List UInt8))
    (rest : List UInt8) : (s.countCancel (tagCancel :: payload)).after records rest =
      s.after ((tagCancel :: payload) :: records) rest := by
  have hnew : tagCancel ≠ tagNewOrder := by decide
  simp [after, countCancel, hasTag, hnew, UInt64.ofNat_add]
  grind

theorem after_stuck (s : Replay) {bytes : List UInt8} (h : Stuck payloadSize bytes) :
    s.after (frames payloadSize bytes).1 (frames payloadSize bytes).2 = s.error := by
  simp [frames_stuck h, after, error, h.ne_nil]

/-- The loop reads the records at the front of the file and reports whatever is left. -/
theorem loop_eq (s : Replay) (bytes : List UInt8) :
    s.loop bytes = s.after (frames payloadSize bytes).1 (frames payloadSize bytes).2 := by
  fun_induction loop s bytes with
  | case1 s => simp [frames, after]
  | case2 s rest hle ih =>
    have hframe : IsFrame payloadSize (tagNewOrder :: rest.take NewOrderMessage.byteSize) :=
      ⟨_, _, rfl, by simp [hle]⟩
    have hcut := frames_cons hframe (rest.drop NewOrderMessage.byteSize)
    rw [List.cons_append, List.take_append_drop] at hcut
    rw [ih, hcut, after_countNew]
  | case3 s rest hle =>
    exact (s.after_stuck ⟨_, _, rfl, by simpa using hle⟩).symm
  | case4 s rest hle hnew ih =>
    have hframe : IsFrame payloadSize (tagCancel :: rest.take CancelMessage.byteSize) :=
      ⟨_, _, rfl, by simp [hle]⟩
    have hcut := frames_cons hframe (rest.drop CancelMessage.byteSize)
    rw [List.cons_append, List.take_append_drop] at hcut
    rw [ih, hcut, after_countCancel]
  | case5 s rest hle hnew =>
    exact (s.after_stuck ⟨_, _, rfl, by simpa using hle⟩).symm
  | case6 s tag rest hnew hcancel =>
    exact (s.after_stuck ⟨_, _, rfl, by simp [payloadSize, hnew, hcancel]⟩).symm

end Replay

/-- A file as records and a rest in which no further record can be read. -/
structure CutsInto (bytes : List UInt8) (records : List (List UInt8)) (rest : List UInt8) :
    Prop where
  bytes_eq : records.flatten ++ rest = bytes
  records_complete : ∀ r ∈ records, IsFrame payloadSize r
  rest_stuck : rest = [] ∨ Stuck payloadSize rest

theorem CutsInto.frames_eq {bytes : List UInt8} {records : List (List UInt8)} {rest : List UInt8}
    (h : CutsInto bytes records rest) : frames payloadSize bytes = (records, rest) := by
  rw [← h.bytes_eq, frames_flatten h.records_complete]
  rcases h.rest_stuck with rfl | hstuck
  · simp [frames]
  · simp [frames_stuck hstuck]

/-- Any file can be cut in exactly one way, and the tool counts these records. It reports one
error unless the file ends with a complete record. -/
theorem replay_cuts (bytes : List UInt8) :
    ∃ records rest, CutsInto bytes records rest ∧
      (∀ records' rest', CutsInto bytes records' rest' → records' = records ∧ rest' = rest) ∧
      replayFile bytes =
        { newCount := .ofNat (records.countP (hasTag tagNewOrder))
          cancelCount := .ofNat (records.countP (hasTag tagCancel))
          errorCount := if rest = [] then 0 else 1
          records } := by
  obtain ⟨hrecords, hbytes, hrest⟩ :
      (∀ r ∈ (frames payloadSize bytes).1, IsFrame payloadSize r) ∧ _ := frames_sound bytes
  refine ⟨_, _, ⟨hbytes, hrecords, hrest⟩, fun records' rest' hcut => ?_, ?_⟩
  · rw [hcut.frames_eq]
    exact ⟨rfl, rfl⟩
  · rw [replayFile, Replay.loop_eq]
    simp [Replay.after]

/-! ## Generated files -/

def records (pad : Nat → NewOrderMessage.Padding) (out : List EngineMessage) : List (List UInt8) :=
  out.mapIdx fun i msg => record (pad i) msg

def recordSize : EngineMessage → Nat
  | .newOrder _ => NewOrderMessage.byteSize + 1
  | .cancel _ => CancelMessage.byteSize + 1

/-- The size of a file with these messages. -/
def fileSize (out : List EngineMessage) : Nat := (out.map recordSize).sum

section Records

variable (pad : NewOrderMessage.Padding) (pads : Nat → NewOrderMessage.Padding)
  {out : List EngineMessage}

theorem record_complete (msg : EngineMessage) : IsFrame payloadSize (record pad msg) := by
  cases msg with
  | newOrder order => exact ⟨_, _, rfl, by simp [order.length_toBytes]⟩
  | cancel cancel => exact ⟨_, _, rfl, by simp [cancel.length_toBytes]⟩

theorem length_record (msg : EngineMessage) : (record pad msg).length = recordSize msg := by
  cases msg <;>
    simp [record, recordSize, NewOrderMessage.length_toBytes, CancelMessage.length_toBytes]

theorem messageOfRecord_record {msg : EngineMessage}
    (h : ∀ order, msg = .newOrder order → PriceFits order.price) :
    messageOfRecord (record pad msg) = some msg := by
  cases msg with
  | newOrder order =>
    simp [record, messageOfRecord, NewOrderMessage.ofBytes_toBytes pad (h order rfl)]
  | cancel cancel =>
    have hnew : tagCancel ≠ tagNewOrder := by decide
    simp [record, messageOfRecord, hnew, CancelMessage.ofBytes_toBytes]

theorem records_complete : ∀ r ∈ records pads out, IsFrame payloadSize r := by
  intro r hr
  obtain ⟨i, hi, rfl⟩ := List.mem_mapIdx.1 hr
  exact record_complete _ _

theorem records_take (m : Nat) : (records pads out).take m = records pads (out.take m) := by
  apply List.ext_getElem?
  grind [records]

@[simp] theorem records_nil : records pads [] = [] := rfl

@[simp] theorem records_concat (out : List EngineMessage) (msg : EngineMessage) :
    records pads (out ++ [msg]) = records pads out ++ [record (pads out.length) msg] :=
  List.mapIdx_concat

theorem length_flatten_records (out : List EngineMessage) :
    (records pads out).flatten.length = fileSize out := by
  induction out using List.reverseRecOn with
  | nil => rfl
  | append_singleton out msg ih => simpa [fileSize, length_record] using ih

theorem countP_records_new (out : List EngineMessage) :
    (records pads out).countP (hasTag tagNewOrder) = (submitted out).length := by
  have hcancel : tagCancel ≠ tagNewOrder := by decide
  induction out using List.reverseRecOn with
  | nil => rfl
  | append_singleton out msg ih => cases msg <;> simp [hasTag, record, hcancel, ih]

theorem countP_records_cancel (out : List EngineMessage) :
    (records pads out).countP (hasTag tagCancel) = (cancelledIds out).length := by
  have hnew : tagNewOrder ≠ tagCancel := by decide
  induction out using List.reverseRecOn with
  | nil => rfl
  | append_singleton out msg ih => cases msg <;> simp [hasTag, record, hnew, ih]

theorem map_messageOfRecord (h : ∀ order ∈ submitted out, PriceFits order.price) :
    (records pads out).map messageOfRecord = out.map some := by
  induction out using List.reverseRecOn with
  | nil => rfl
  | append_singleton out msg ih =>
    have hout : ∀ order ∈ submitted out, PriceFits order.price :=
      fun order ho => h order (by simp [ho])
    have hmsg : messageOfRecord (record (pads out.length) msg) = some msg :=
      messageOfRecord_record (pads out.length) fun order hmsg => h order (by simp [hmsg])
    simp [ih hout, hmsg]

end Records

/-- The file with the records of `out`. -/
structure Holds (pads : Nat → NewOrderMessage.Padding) (file : OrderFile)
    (out : List EngineMessage) : Prop where
  bytes : file.bytes = (records pads out).flatten
  newCount : file.newCount = .ofNat (submitted out).length
  cancelCount : file.cancelCount = .ofNat (cancelledIds out).length

theorem Holds.writeMessage {pads : Nat → NewOrderMessage.Padding} {file : OrderFile}
    {out : List EngineMessage} (h : file.Holds pads out) (msg : EngineMessage) :
    (file.writeMessage (pads out.length) msg).Holds pads (out ++ [msg]) := by
  obtain ⟨hbytes, hnew, hcancel⟩ := h
  cases msg <;>
    constructor <;>
    simp [OrderFile.writeMessage, record, hbytes, hnew, hcancel, UInt64.ofNat_add]

end OrderFile

namespace WorkloadGenerator

open OrderFile

variable {ρ : Type} (R : Rng ρ) (dollarsToTicks : Rat → Int)

/-- The tool writes the stream of the generator. -/
theorem writeFile_holds (pads : Nat → NewOrderMessage.Padding) (cfg : WorkloadConfig) (n : Nat) :
    ∃ out g file, generate R dollarsToTicks (new R cfg) n = some (out, g) ∧ out.length = n ∧
      writeFile R dollarsToTicks pads (new R cfg) n = some (file, g) ∧ file.Holds pads out ∧
      ∀ order ∈ submitted out, PriceFits order.price := by
  induction n with
  | zero => exact ⟨[], _, {}, rfl, rfl, rfl, ⟨rfl, rfl, rfl⟩, by simp [submitted]⟩
  | succ n ih =>
    obtain ⟨out, g, file, hgen, hlen, hwrite, hholds, hfits⟩ := ih
    obtain ⟨msg, g', hnext, hprod⟩ := next_produces R dollarsToTicks g
    refine ⟨out ++ [msg], g', file.writeMessage (pads n) msg, ?_, by simp [hlen], ?_, ?_, ?_⟩
    · simp [generate, hgen, hnext]
    · simp [writeFile, hwrite, hnext]
    · exact hlen ▸ hholds.writeMessage msg
    · cases hprod with
      | newOrder id price =>
        simp only [submitted_append, submitted_newOrder, List.mem_append, List.mem_singleton]
        rintro order (ho | rfl)
        · exact hfits order ho
        · simp only [PriceFits, maxPriceTicks] at price ⊢
          omega
      | cancel => simpa using hfits

/-- Whatever is drawn and whatever the gaps hold, the replay tool reads back the messages
generated, counts as many of each kind as the generator reported and finds no error. -/
theorem writeFile_replays (pads : Nat → NewOrderMessage.Padding) (cfg : WorkloadConfig) (n : Nat) :
    ∃ out g file, generate R dollarsToTicks (new R cfg) n = some (out, g) ∧
      writeFile R dollarsToTicks pads (new R cfg) n = some (file, g) ∧
      (replayFile file.bytes).newCount = file.newCount ∧
      (replayFile file.bytes).cancelCount = file.cancelCount ∧
      (replayFile file.bytes).errorCount = 0 ∧
      (replayFile file.bytes).records.map messageOfRecord = out.map some := by
  obtain ⟨out, g, file, hgen, -, hwrite, hholds, hfits⟩ := writeFile_holds R dollarsToTicks
    pads cfg n
  refine ⟨out, g, file, hgen, hwrite, ?_⟩
  have hframes : ∀ r ∈ records pads out, IsFrame payloadSize r := records_complete pads
  have hcut := frames_flatten hframes []
  simp only [List.append_nil, frames] at hcut
  simp [replayFile, Replay.loop_eq, hholds.bytes, hcut, Replay.after, hholds.newCount,
    hholds.cancelCount, countP_records_new, countP_records_cancel, map_messageOfRecord pads hfits]

/-- A generated file that ends early, at any byte. The tool reads the messages whose records are
complete, and reports an error exactly when the file ends inside a record. -/
theorem writeFile_cut_replays (pads : Nat → NewOrderMessage.Padding) (cfg : WorkloadConfig)
    (n k : Nat) :
    ∃ out g file, generate R dollarsToTicks (new R cfg) n = some (out, g) ∧
      writeFile R dollarsToTicks pads (new R cfg) n = some (file, g) ∧
      ∃ m, m ≤ out.length ∧ fileSize (out.take m) ≤ k ∧
        (m < out.length → k < fileSize (out.take (m + 1))) ∧
        (replayFile (file.bytes.take k)).records.map messageOfRecord = (out.take m).map some ∧
        (replayFile (file.bytes.take k)).newCount = .ofNat (submitted (out.take m)).length ∧
        (replayFile (file.bytes.take k)).cancelCount = .ofNat (cancelledIds (out.take m)).length ∧
        (replayFile (file.bytes.take k)).errorCount =
          if k = fileSize (out.take m) ∨ fileSize out ≤ k then 0 else 1 := by
  obtain ⟨out, g, file, hgen, -, hwrite, hholds, hfits⟩ := writeFile_holds R dollarsToTicks
    pads cfg n
  refine ⟨out, g, file, hgen, hwrite, ?_⟩
  have hframes : ∀ r ∈ records pads out, IsFrame payloadSize r := records_complete pads
  obtain ⟨m, hm, hrecords, hlow, hhigh, hrest⟩ := frames_take hframes k
  simp only [records_take, length_flatten_records] at hrecords hlow hhigh hrest
  have hfits' : ∀ order ∈ submitted (out.take m), PriceFits order.price :=
    fun order ho => hfits order (mem_submitted.2 (List.mem_of_mem_take (mem_submitted.1 ho)))
  refine ⟨m, ?_, hlow, fun hlt => hhigh ?_, ?_⟩
  · simpa [records] using hm
  · simpa [records] using hlt
  · simp [replayFile, Replay.loop_eq, hholds.bytes, hrecords, Replay.after, countP_records_new,
      countP_records_cancel, map_messageOfRecord pads hfits', hrest]

end WorkloadGenerator

end LockfreeMatching
