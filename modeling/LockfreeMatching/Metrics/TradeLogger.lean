import LockfreeMatching.Transport.MessageBytes
import Mathlib.Data.List.Induction

/-!
# Trade logger

The binary log of fills: a header and one record per fill, written through a buffered stream.
What `fwrite` accepts stays in the buffer until the stream passes it on, and it may pass on any
part at any call. Only `fflush` and `fclose` empty the buffer for certain, and they are taken to
succeed. So a log that was never closed ends anywhere behind the last flush.

Opening a logger that is open already abandons its stream without closing it and frees the buffer
of that stream, which the standard library would still flush when the program exits. The model
just forgets the stream, and the result about logs is about runs that never do this.
-/
namespace LockfreeMatching

open Lib

/-! ## Streams -/

/-- The contents of all files. -/
abbrev Disk := String → List UInt8

def Disk.append (disk : Disk) (path : String) (bytes : List UInt8) : Disk :=
  Function.update disk path (disk path ++ bytes)

/-- An open stream with the bytes it holds back. -/
structure Stream where
  path : String
  buffer : List UInt8 := []

structure Logging where
  disk : Disk := fun _ => []
  /-- the stream the logger writes to -/
  file : Option Stream := none
  totalLogged : UInt64 := 0

namespace Logging

/-- Accept `bytes` and pass on the first `out` bytes of the buffer. -/
def fwrite (l : Logging) (s : Stream) (bytes : List UInt8) (out : Nat) : Logging :=
  { l with
    disk := l.disk.append s.path ((s.buffer ++ bytes).take out)
    file := some { s with buffer := (s.buffer ++ bytes).drop out } }

def fflush (l : Logging) (s : Stream) : Logging :=
  { l with
    disk := l.disk.append s.path s.buffer
    file := some { s with buffer := [] } }

/-- Whatever is passed on, file and buffer together hold what was accepted. -/
theorem fwrite_stream (l : Logging) (s : Stream) (bytes : List UInt8) (out : Nat) :
    ∃ f, (l.fwrite s bytes out).file = some f ∧ f.path = s.path ∧
      (l.fwrite s bytes out).disk s.path ++ f.buffer = l.disk s.path ++ s.buffer ++ bytes ∧
      l.disk s.path <+: (l.fwrite s bytes out).disk s.path := by
  refine ⟨_, rfl, rfl, ?_, ?_⟩
  · simp only [fwrite, Disk.append, Function.update_self, List.append_assoc,
      List.take_append_drop]
  · simp [fwrite, Disk.append]

theorem fflush_disk (l : Logging) (s : Stream) :
    (l.fflush s).disk s.path = l.disk s.path ++ s.buffer := by
  simp [fflush, Disk.append]

end Logging

/-! ## Logger -/

namespace TradeLogger

def magic : List UInt8 := [70, 73, 76, 76]

def version : Nat := 1

def header : List UInt8 := magic ++ (leBytes 4 version ++ leBytes 4 FillMessage.byteSize)

/-- Truncate the file and write the header, in three calls of `fwrite`. The logger must not be
open. -/
def open_ (l : Logging) (path : String) (opened : Bool) (out : Nat × Nat × Nat) : Logging :=
  if opened then
    let l := { l with disk := Function.update l.disk path [] }
    let l := l.fwrite { path } magic out.1
    let l := l.file.elim l fun s => l.fwrite s (leBytes 4 version) out.2.1
    let l := l.file.elim l fun s => l.fwrite s (leBytes 4 FillMessage.byteSize) out.2.2
    { l with totalLogged := 0 }
  else { l with file := none }

/-- Write one record, of which the stream accepts the first `accepted` bytes. -/
def log (l : Logging) (pad : FillMessage.Padding) (fill : FillMessage) (accepted out : Nat) :
    Logging :=
  match l.file with
  | none => l
  | some s =>
    let l := l.fwrite s ((fill.toBytes pad).take accepted) out
    if FillMessage.byteSize ≤ accepted then { l with totalLogged := l.totalLogged + 1 } else l

def flush (l : Logging) : Logging := l.file.elim l l.fflush

def close (l : Logging) : Logging :=
  match l.file with
  | none => l
  | some s => { l.fflush s with file := none }

inductive Call where
  | open_ (path : String) (opened : Bool) (out : Nat × Nat × Nat)
  | log (fill : FillMessage) (pad : FillMessage.Padding) (accepted out : Nat)
  | flush
  | close

def step (l : Logging) : Call → Logging
  | .open_ path opened out => open_ l path opened out
  | .log fill pad accepted out => log l pad fill accepted out
  | .flush => flush l
  | .close => close l

def run (calls : List Call) : Logging := calls.foldl step {}

/-! ## Reader -/

/-- The records of a log, as its reader finds them. A header with another version or record size
is refused. -/
def readLog (bytes : List UInt8) : Option (List (Option FillMessage)) :=
  if header.length ≤ bytes.length ∧ field bytes 0 4 = magic ∧ leNat (field bytes 4 4) = version ∧
      leNat (field bytes 8 4) = FillMessage.byteSize then
    some ((frames (fun _ => some (FillMessage.byteSize - 1)) (bytes.drop header.length)).1.map
      FillMessage.ofBytes)
  else none

/-! ## Sessions -/

/-- What the calls since the last successful `open` amount to. -/
structure Session where
  path : String
  fills : List FillMessage := []
  /-- how many fills the last flush or close covered -/
  synced : Option Nat := none
  isOpen : Bool := true

def Session.sync (s : Session) : Session :=
  if s.isOpen then { s with synced := some s.fills.length } else s

def Session.step (session : Option Session) : Call → Option Session
  | .open_ path opened _ =>
    if opened then some { path } else session.map fun s => { s with isOpen := false }
  | .log fill _ _ _ =>
    session.map fun s => if s.isOpen then { s with fills := s.fills ++ [fill] } else s
  | .flush => session.map Session.sync
  | .close => session.map fun s => { s.sync with isOpen := false }

def lastSession (calls : List Call) : Option Session := calls.foldl Session.step none

/-- `fwrite` accepted whole records, and their prices fit the type. -/
def Sound : Call → Prop
  | .log fill _ accepted _ => FillMessage.byteSize ≤ accepted ∧ PriceFits fill.price
  | _ => True

/-- The bytes of records that read back as `fills`. -/
structure Encodes (records : List (List UInt8)) (fills : List FillMessage) : Prop where
  fills_eq : records.map FillMessage.ofBytes = fills.map some
  complete : ∀ r ∈ records, r.length = FillMessage.byteSize

theorem Encodes.length {records : List (List UInt8)} {fills : List FillMessage}
    (h : Encodes records fills) : records.length = fills.length := by
  simpa using congrArg List.length h.fills_eq

theorem Encodes.length_flatten {records : List (List UInt8)} {fills : List FillMessage}
    (h : Encodes records fills) :
    records.flatten.length = FillMessage.byteSize * fills.length := by
  rw [← h.length, List.length_flatten, List.map_congr_left h.complete]
  simp [Nat.mul_comm]

theorem Encodes.concat {records : List (List UInt8)} {fills : List FillMessage}
    (h : Encodes records fills) (pad : FillMessage.Padding) {fill : FillMessage}
    (hfits : PriceFits fill.price) :
    Encodes (records ++ [fill.toBytes pad]) (fills ++ [fill]) where
  fills_eq := by simp [h.fills_eq, fill.ofBytes_toBytes pad hfits]
  complete := by
    simp only [List.mem_append, List.mem_singleton]
    rintro r (hr | rfl)
    · exact h.complete r hr
    · exact fill.length_toBytes pad

/-- The file of a session: the bytes accepted, less what is still in the buffer. -/
structure Written (l : Logging) (s : Session) (stream : List UInt8) : Prop where
  streaming : s.isOpen = true → ∃ f, l.file = some f ∧ f.path = s.path ∧
    l.disk s.path ++ f.buffer = stream
  closed : s.isOpen = false → l.file = none
  disk_prefix : l.disk s.path <+: stream
  synced : ∀ n, s.synced = some n →
    header.length + FillMessage.byteSize * n ≤ (l.disk s.path).length

/-- The logger after some calls. -/
def Tracks (l : Logging) : Option Session → Prop
  | none => l.file = none
  | some s => l.totalLogged = .ofNat s.fills.length ∧
      ∃ records, Encodes records s.fills ∧ Written l s (header ++ records.flatten)

theorem open_stream (l : Logging) (path : String) (out : Nat × Nat × Nat) :
    ∃ f, (open_ l path true out).file = some f ∧ f.path = path ∧
      (open_ l path true out).disk path ++ f.buffer = header := by
  refine ⟨_, rfl, rfl, ?_⟩
  simp only [open_, if_true, Logging.fwrite, Disk.append, Function.update_self, Option.elim_some,
    List.append_assoc, List.nil_append, List.take_append_drop, header]
  rw [← List.append_assoc (List.take out.2.1 _), List.take_append_drop, List.append_assoc,
    ← List.append_assoc (List.take out.1 _), List.take_append_drop]

theorem Tracks.open_ {l : Logging} {session : Option Session} (h : Tracks l session)
    (path : String) (opened : Bool) (out : Nat × Nat × Nat) :
    Tracks (open_ l path opened out) (Session.step session (.open_ path opened out)) := by
  cases opened with
  | false =>
    cases session with
    | none => rfl
    | some s =>
      obtain ⟨htotal, records, hrecords, hwritten⟩ := h
      exact ⟨htotal, records, hrecords, nofun, fun _ => rfl, hwritten.disk_prefix, hwritten.synced⟩
  | true =>
    obtain ⟨f, hfile, hpath, hstream⟩ := open_stream l path out
    refine ⟨rfl, [], ⟨rfl, nofun⟩, fun _ => ⟨f, hfile, hpath, by simpa using hstream⟩, nofun, ?_,
      nofun⟩
    exact ⟨f.buffer, by simpa using hstream⟩

theorem Tracks.log {l : Logging} {session : Option Session} (h : Tracks l session)
    {fill : FillMessage} (hfits : PriceFits fill.price) (pad : FillMessage.Padding)
    {accepted : Nat} (haccepted : FillMessage.byteSize ≤ accepted) (out : Nat) :
    Tracks (log l pad fill accepted out) (Session.step session (.log fill pad accepted out)) := by
  cases session with
  | none =>
    have hfile : l.file = none := h
    simpa [TradeLogger.log, hfile, Session.step] using h
  | some s =>
    obtain ⟨htotal, records, hrecords, hwritten⟩ := h
    cases hopen : s.isOpen with
    | false =>
      have hfile := hwritten.closed hopen
      simpa [Session.step, hopen, TradeLogger.log, hfile] using
        ⟨htotal, records, hrecords, hwritten⟩
    | true =>
      obtain ⟨f, hfile, hpath, hstream⟩ := hwritten.streaming hopen
      obtain ⟨f', hfile', hpath', hstream', hgrow⟩ :=
        l.fwrite_stream f (fill.toBytes pad) out
      have hwhole : (fill.toBytes pad).take accepted = fill.toBytes pad :=
        List.take_of_length_le (by simpa [fill.length_toBytes] using haccepted)
      simp only [Session.step, hopen, if_true, TradeLogger.log, hfile, hwhole, haccepted,
        Option.map_some]
      rw [hpath] at hpath' hstream' hgrow
      rw [hstream] at hstream'
      have hfull : (l.fwrite f (fill.toBytes pad) out).disk s.path ++ f'.buffer =
          header ++ (records ++ [fill.toBytes pad]).flatten := by
        simpa using hstream'
      refine ⟨?_, _, hrecords.concat pad hfits, fun _ => ⟨f', hfile', hpath', hfull⟩, ?_,
        ⟨_, hfull⟩, fun n hn => (hwritten.synced n hn).trans hgrow.length_le⟩
      · simp [Logging.fwrite, htotal, UInt64.ofNat_add]
      · simp

/-- Emptying the buffer brings the file up to date. -/
theorem Written.fflush {l : Logging} {s : Session} {records : List (List UInt8)} {f : Stream}
    (hrecords : Encodes records s.fills) (hpath : f.path = s.path)
    (hstream : l.disk s.path ++ f.buffer = header ++ records.flatten) :
    (l.fflush f).disk s.path = header ++ records.flatten ∧
      header.length + FillMessage.byteSize * s.fills.length ≤
        ((l.fflush f).disk s.path).length := by
  have hdisk := l.fflush_disk f
  rw [hpath, hstream] at hdisk
  exact ⟨hdisk, by simp [hdisk, ← hrecords.length_flatten]⟩

theorem Tracks.flush {l : Logging} {session : Option Session} (h : Tracks l session) :
    Tracks (flush l) (Session.step session .flush) := by
  cases session with
  | none =>
    have hfile : l.file = none := h
    simpa [TradeLogger.flush, hfile, Session.step] using h
  | some s =>
    obtain ⟨htotal, records, hrecords, hwritten⟩ := h
    cases hopen : s.isOpen with
    | false =>
      have hfile := hwritten.closed hopen
      simpa [Session.step, Session.sync, hopen, TradeLogger.flush, hfile] using
        ⟨htotal, records, hrecords, hwritten⟩
    | true =>
      obtain ⟨f, hfile, hpath, hstream⟩ := hwritten.streaming hopen
      obtain ⟨hdisk, hlen⟩ := Written.fflush hrecords hpath hstream
      simp only [Session.step, Session.sync, hopen, if_true, TradeLogger.flush, hfile,
        Option.map_some, Option.elim_some]
      refine ⟨htotal, records, hrecords, fun _ => ⟨_, rfl, hpath, by simp [hdisk]⟩, ?_,
        ⟨[], by simp [hdisk]⟩, ?_⟩
      · simp
      · rintro n ⟨rfl⟩
        exact hlen

theorem Tracks.close {l : Logging} {session : Option Session} (h : Tracks l session) :
    Tracks (close l) (Session.step session .close) := by
  cases session with
  | none =>
    have hfile : l.file = none := h
    simpa [TradeLogger.close, hfile, Session.step] using h
  | some s =>
    obtain ⟨htotal, records, hrecords, hwritten⟩ := h
    cases hopen : s.isOpen with
    | false =>
      have hfile := hwritten.closed hopen
      simp only [Session.step, Session.sync, hopen, TradeLogger.close, hfile, Option.map_some]
      exact ⟨htotal, records, hrecords, nofun, fun _ => hfile, hwritten.disk_prefix,
        hwritten.synced⟩
    | true =>
      obtain ⟨f, hfile, hpath, hstream⟩ := hwritten.streaming hopen
      obtain ⟨hdisk, hlen⟩ := Written.fflush hrecords hpath hstream
      simp only [Session.step, Session.sync, hopen, if_true, TradeLogger.close, hfile,
        Option.map_some]
      refine ⟨htotal, records, hrecords, nofun, fun _ => rfl, ⟨[], by simp [hdisk]⟩, ?_⟩
      rintro n ⟨rfl⟩
      exact hlen

theorem Tracks.step {l : Logging} {session : Option Session} (h : Tracks l session) {call : Call}
    (hsound : Sound call) : Tracks (step l call) (Session.step session call) := by
  cases call with
  | open_ path opened out => exact h.open_ path opened out
  | log fill pad accepted out => exact h.log hsound.2 pad hsound.1 out
  | flush => exact h.flush
  | close => exact h.close

theorem run_tracks {calls : List Call} (hsound : ∀ c ∈ calls, Sound c) :
    Tracks (run calls) (lastSession calls) := by
  induction calls using List.reverseRecOn with
  | nil => rfl
  | append_singleton calls call ih =>
    have htracks := ih fun c hc => hsound c (by simp [hc])
    simpa [run, lastSession] using htracks.step (hsound call (by simp))

/-! ## Reading a log -/

theorem readLog_header (bytes : List UInt8) :
    readLog (header ++ bytes) =
      some ((frames (fun _ => some (FillMessage.byteSize - 1)) bytes).1.map
        FillMessage.ofBytes) := by
  have hmagic : field (header ++ bytes) 0 4 = magic := rfl
  have hversion : field (header ++ bytes) 4 4 = leBytes 4 version := rfl
  have hsize : field (header ++ bytes) 8 4 = leBytes 4 FillMessage.byteSize := rfl
  have hone : leNat (leBytes 4 version) = version := rfl
  have hrecord : leNat (leBytes 4 FillMessage.byteSize) = FillMessage.byteSize := rfl
  simp [readLog, hmagic, hversion, hsize, hone, hrecord]

theorem Encodes.take {records : List (List UInt8)} {fills : List FillMessage}
    (h : Encodes records fills) (m : Nat) : Encodes (records.take m) (fills.take m) where
  fills_eq := by simp [List.map_take, h.fills_eq]
  complete r hr := h.complete r (List.mem_of_mem_take hr)

theorem Encodes.isFrame {records : List (List UInt8)} {fills : List FillMessage}
    (h : Encodes records fills) :
    ∀ r ∈ records, IsFrame (fun _ => some (FillMessage.byteSize - 1)) r := by
  intro r hr
  have hlen := h.complete r hr
  cases r with
  | nil => simp [FillMessage.byteSize] at hlen
  | cons b rest => exact ⟨b, rest, rfl, by simp [← hlen]⟩

/-- A beginning of a log: too short for a header, or some of its records. -/
theorem readLog_prefix {records : List (List UInt8)} {fills : List FillMessage}
    (h : Encodes records fills) {bytes : List UInt8}
    (hbytes : bytes <+: header ++ records.flatten) :
    (bytes.length < header.length ∧ readLog bytes = none) ∨
      ∃ m, m ≤ fills.length ∧ readLog bytes = some ((fills.take m).map some) ∧
        bytes.length < header.length + FillMessage.byteSize * (m + 1) := by
  by_cases hshort : bytes.length < header.length
  · exact .inl ⟨hshort, by simp [readLog, Nat.not_le.2 hshort]⟩
  · right
    obtain ⟨q, rfl⟩ := List.prefix_of_prefix_length_le (List.prefix_append header _) hbytes
      (Nat.not_lt.1 hshort)
    have hq : q = records.flatten.take q.length :=
      List.prefix_iff_eq_take.1 ((List.prefix_append_right_inj header).1 hbytes)
    obtain ⟨m, hm, hrecords, hlow, hhigh, -⟩ := frames_take h.isFrame q.length
    refine ⟨m, h.length ▸ hm, ?_, ?_⟩
    · rw [readLog_header, hq, hrecords, (h.take m).fills_eq]
    · rw [List.length_append, Nat.add_lt_add_iff_left]
      by_cases hlast : m < records.length
      · have hnext := hhigh hlast
        rw [(h.take (m + 1)).length_flatten, List.length_take] at hnext
        exact hnext.trans_le (Nat.mul_le_mul_left _ (Nat.min_le_left _ _))
      · have hall := ((List.prefix_append_right_inj header).1 hbytes).length_le
        rw [h.length_flatten, ← h.length] at hall
        have : m = records.length := by omega
        subst this
        simp only [FillMessage.byteSize] at hall ⊢
        omega

theorem Tracks.readable {l : Logging} {s : Session} (h : Tracks l (some s)) :
    (s.synced = none ∧ readLog (l.disk s.path) = none) ∨
      ∃ m, m ≤ s.fills.length ∧ readLog (l.disk s.path) = some ((s.fills.take m).map some) ∧
        ∀ n, s.synced = some n → n ≤ m := by
  obtain ⟨-, records, hrecords, hwritten⟩ := h
  rcases readLog_prefix hrecords hwritten.disk_prefix with ⟨hshort, hread⟩ | ⟨m, hm, hread, hlen⟩
  · left
    refine ⟨?_, hread⟩
    by_contra hne
    obtain ⟨n, hn⟩ := Option.ne_none_iff_exists'.1 hne
    have := hwritten.synced n hn
    omega
  · right
    refine ⟨m, hm, hread, fun n hn => ?_⟩
    have hlow := hwritten.synced n hn
    simp only [FillMessage.byteSize] at hlow hlen
    omega

/-- A run of calls that opens a file only while none is open and in which `fwrite` always accepts
a whole record. -/
structure SoundRun (calls : List Call) : Prop where
  writes : ∀ call ∈ calls, Sound call
  opens : ∀ pre path opened out post, calls = pre ++ .open_ path opened out :: post →
    (run pre).file = none

/-- A log is readable at every moment, also after a crash. It has a prefix of the fills logged
since the file was opened, and all those logged before the last flush; a file that was never
flushed may end inside its header. -/
theorem run_log_readable (calls : List Call) (hsound : SoundRun calls) (s : Session)
    (hs : lastSession calls = some s) :
    (run calls).totalLogged = .ofNat s.fills.length ∧
      ((s.synced = none ∧ readLog ((run calls).disk s.path) = none) ∨
        ∃ m, m ≤ s.fills.length ∧
          readLog ((run calls).disk s.path) = some ((s.fills.take m).map some) ∧
          ∀ n, s.synced = some n → n ≤ m) := by
  have htracks := run_tracks hsound.writes
  rw [hs] at htracks
  exact ⟨htracks.1, htracks.readable⟩

/-- A log is closed and opened again, which starts it afresh. Of the two fills logged then the
second was never flushed, and three bytes of it reached the file. -/
def crashed : List Call :=
  [.open_ "trades.bin" true (4, 0, 1),
    .log { aggressiveId := 2, passiveId := 1, price := 15025, quantity := 10 } ⟨default, default⟩
      48 0,
    .close,
    .open_ "trades.bin" true (0, 0, 0),
    .log { aggressiveId := 4, passiveId := 3, price := 15030, quantity := 7 } ⟨default, default⟩
      48 0,
    .flush,
    .log { aggressiveId := 5, passiveId := 3, price := 15030, quantity := 5 } ⟨default, default⟩
      48 3]

theorem crashed_sound : SoundRun crashed where
  writes := by simp [crashed, Sound, PriceFits, FillMessage.byteSize]
  opens pre path opened out post h := by
    simp only [crashed, List.cons_eq_append_iff, List.cons.injEq, reduceCtorEq, false_and,
      and_false, or_false, false_or, exists_const, List.nil_eq_append_iff] at h
    -- the first call, or the one after the log was closed
    obtain ⟨rfl, -⟩ | ⟨_, rfl, _, rfl, _, rfl, rfl, -⟩ := h
    · rfl
    · rfl

theorem run_log_readable_crashed :
    (run crashed).totalLogged = 2 ∧
      ∃ m, 1 ≤ m ∧ m ≤ 2 ∧ ∃ fills, readLog ((run crashed).disk "trades.bin") = some fills ∧
        fills.length = m := by
  obtain ⟨htotal, ⟨hnone, -⟩ | ⟨m, hm, hread, hlow⟩⟩ :=
    run_log_readable crashed crashed_sound _ rfl
  · cases hnone
  · exact ⟨htotal, m, hlow 1 rfl, hm, _, hread, by simpa using hm⟩

end TradeLogger

end LockfreeMatching
