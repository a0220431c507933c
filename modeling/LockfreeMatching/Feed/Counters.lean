import LockfreeMatching.Feed.Executions

/-!
# Counters of the feed handler

Every row of every frame is applied or counted, and so is every frame without rows. The counts
are read off the frames alone; the handler's counters agree with them modulo `2 ^ 64`.

## Main results

* `run_counted`: all counters, the orders placed and the gaps after any frames. Every order
  placed is either live or was cancelled by one message, and `parse` returns the number of
  messages appended.
-/
namespace LockfreeMatching

/-! ## What a frame says -/

/-- A row as the handler reads it. -/
abbrev ReadRow := Except RowError (LevelKey × Quantity)

/-- What a frame has for the handler. -/
inductive Content where
  | unreadable
  | update (rows : List ReadRow)
  | snapshot (rows : List ReadRow)
  | trade (sequence : Option UInt64)
  | other

def contentOf (conv : Conversions) (raw : String) : Content :=
  match conv.parse raw with
  | none => .unreadable
  | some doc =>
    match (doc.atKey "type").bind Element.getString with
    | none => .unreadable
    | some type =>
      if type = "l2update" then
        ((doc.atKey "changes").bind Element.getArray).elim .unreadable fun changes =>
          .update (changes.map (changeRow conv))
      else if type = "snapshot" then
        .snapshot
          ((((doc.atKey "bids").bind Element.getArray).getD []).map (priceSizeRow conv .bid) ++
            (((doc.atKey "asks").bind Element.getArray).getD []).map (priceSizeRow conv .ask))
      else if type = "match" ∨ type = "last_match" then
        .trade ((doc.atKey "sequence").bind Element.getUint64)
      else .other

namespace Content

def rows : Content → List ReadRow
  | .update rows | .snapshot rows => rows
  | _ => []

def fails (e : RowError) : ReadRow → Bool
  | .ok _ => false
  | .error e' => decide (e' = e)

/-- A frame that cannot be read counts like a row. -/
def malformed (c : Content) : Nat :=
  c.rows.countP (fails .malformed) + if c matches .unreadable then 1 else 0

def skipped (c : Content) : Nat := c.rows.countP (fails .outOfRange)

def ignored : Content → Nat
  | .trade _ | .other => 1
  | _ => 0

/-- A row with a quantity. -/
def sets : ReadRow → Bool
  | .ok (_, qty) => decide (qty ≠ 0)
  | .error _ => false

/-- Rows that place an order. -/
def placed (c : Content) : Nat := c.rows.countP sets

def sequence : Content → Option UInt64
  | .trade sequence => sequence
  | _ => none

/-- The sequence numbers of the trades. -/
def sequences (contents : List Content) : List UInt64 := contents.filterMap sequence

theorem sequences_concat (contents : List Content) (c : Content) :
    sequences (contents ++ [c]) = sequences contents ++ c.sequence.toList := by
  cases h : c.sequence <;> simp [sequences, h]

end Content

/-- How many neighbours do not follow each other. -/
def gaps : List UInt64 → Nat
  | a :: b :: seqs => (if b ≠ a + 1 then 1 else 0) + gaps (b :: seqs)
  | _ => 0

theorem gaps_concat (seqs : List UInt64) (last seq : UInt64) :
    gaps (seqs ++ [last, seq]) = gaps (seqs ++ [last]) + if seq ≠ last + 1 then 1 else 0 := by
  induction seqs with
  | nil => simp [gaps]
  | cons a seqs ih =>
    cases seqs with
    | nil => simp [gaps]
    | cons b seqs =>
      simp only [List.cons_append, gaps] at ih ⊢
      omega

/-- What `parse` does with the content of a frame. -/
def Sink.consume (s : Sink) (a : Arrival) : Content → Sink
  | .unreadable => s.reject .malformed
  | .update rows => rows.foldl (fun s row => s.consumeRow false a.ts row) s
  | .snapshot rows =>
    rows.foldl (fun s row => s.consumeRow true a.ts row) (s.resetBook a.ts a.iteration)
  | .trade sequence =>
    { s with handler := (sequence.elim s.handler s.handler.noteSequence).ignore }
  | .other => { s with handler := s.handler.ignore }

theorem Sink.parse_eq (conv : Conversions) (s : Sink) (a : Arrival) :
    s.parse conv a = (s.consume a (contentOf conv a.raw),
      (s.consume a (contentOf conv a.raw)).out.length - s.out.length) := by
  unfold parse contentOf
  cases conv.parse a.raw with
  | none => simp [consume, reject]
  | some doc =>
    cases htype : (doc.atKey "type").bind Element.getString with
    | none => simp [htype, consume, reject]
    | some type =>
      simp only [htype]
      split_ifs with hupdate hsnapshot htrade
      · cases (doc.atKey "changes").bind Element.getArray with
        | none => simp [consume, reject]
        | some changes => simp [consume, consumeChanges, List.foldl_map]
      · cases (doc.atKey "bids").bind Element.getArray <;>
          cases (doc.atKey "asks").bind Element.getArray <;>
            simp [consume, consumeSide, consumePriceSizeArray, List.foldl_map]
      · cases (doc.atKey "sequence").bind Element.getUint64 <;> simp [consume]
      · simp [consume]

/-! ## Rows -/

/-- The orders placed under an id are those cancelled and those live under it. -/
def Balanced (s : Sink) : Prop :=
  ∀ id, ((submitted s.out).map (·.id)).count id =
    (cancelledIds s.out).count id + (s.handler.live.entries.map (·.2)).count id

theorem count_live_erase {live : LiveMap} {key : LevelKey} {id : OrderId}
    (h : live.lookup key = some id) (x : OrderId) :
    (live.entries.map (·.2)).count x =
      [id].count x + ((live.erase key).entries.map (·.2)).count x := by
  have hmem : key ∈ live.keys := AList.mem_keys.1 (AList.lookup_isSome.1 (by simp [h]))
  obtain ⟨id', l₁, l₂, hkey, hentries, herase⟩ := List.exists_of_kerase hmem
  have hid : id' = id := by
    have hlookup : live.entries.dlookup key = some id := h
    rw [hentries, List.dlookup_append, List.dlookup_eq_none.2 hkey] at hlookup
    simpa using hlookup
  subst hid
  rw [show (live.erase key).entries = l₁ ++ l₂ from herase, hentries]
  simp only [List.map_append, List.map_cons, List.count_append, List.count_cons, List.count_nil]
  omega

theorem Balanced.clearLevel {s : Sink} (h : Balanced s) (key : LevelKey) (ts : Timestamp) :
    Balanced (s.clearLevel key ts) := by
  cases hl : s.handler.live.lookup key with
  | none => rwa [Sink.clearLevel_none ts hl]
  | some id =>
    intro x
    have hlive := count_live_erase hl x
    have hx := h x
    simp only [Sink.clearLevel_some ts hl, submitted_append, submitted_cancel, List.append_nil,
      cancelledIds_append, cancelledIds_cancel, List.count_append]
    omega

theorem Balanced.applyLevel {s : Sink} (h : Balanced s) (key : LevelKey) (qty : Quantity)
    (ts : Timestamp) : Balanced (s.applyLevel key qty ts) := by
  have hclear := h.clearLevel key ts
  have hk := s.notMem_clearLevel key ts
  unfold Sink.applyLevel
  dsimp only
  split_ifs
  · exact hclear
  · generalize s.clearLevel key ts = s at hclear hk
    intro x
    have hx := hclear x
    simp only [Sink.openLevel, if_neg hk, AList.entries_insert_of_notMem hk, submitted_append,
      submitted_newOrder, cancelledIds_append, cancelledIds_newOrder, List.append_nil,
      List.map_append, List.map_cons, List.map_nil, List.count_append, List.count_cons,
      List.count_nil]
    omega

theorem cancelledIds_cancels (ids : List OrderId) (ts : Timestamp) :
    cancelledIds (ids.map fun id => .cancel { id, timestamp := ts }) = ids := by
  simp [cancelledIds, List.filterMap_map]

theorem Balanced.resetBook {s : Sink} (h : Balanced s) (ts : Timestamp) (iteration : Iteration) :
    Balanced (s.resetBook ts iteration) := by
  intro x
  have hperm := ((iteration.2 s.handler.live.entries).map (·.2)).count_eq x
  have hx := h x
  rw [s.resetBook_out, submitted_append, submitted_cancels, List.append_nil, cancelledIds_append,
    cancelledIds_cancels, List.count_append]
  simp only [Sink.resetBook, AList.empty_entries, List.map_nil, List.count_nil]
  omega

/-- While no id is used twice, an order is cancelled by one message or it is live. -/
theorem Balanced.settled {s : Sink} (h : Balanced s) (hn : Numbered s)
    (hlen : (submitted s.out).length ≤ UInt64.size) {o : NewOrderMessage}
    (ho : o ∈ submitted s.out) :
    (cancelledIds s.out).count o.id + (s.handler.live.entries.map (·.2)).count o.id = 1 := by
  rw [← h o.id]
  exact List.count_eq_one_of_mem (hn.nodup hlen) (List.mem_map_of_mem ho)

/-- The effect of rows on everything that is counted. -/
structure Adds (s s' : Sink) (rows : List ReadRow) : Prop where
  malformed : s'.handler.malformed =
    s.handler.malformed + .ofNat (rows.countP (Content.fails .malformed))
  skipped : s'.handler.skipped =
    s.handler.skipped + .ofNat (rows.countP (Content.fails .outOfRange))
  placed : (submitted s'.out).length = (submitted s.out).length + rows.countP Content.sets
  ignored : s'.handler.ignored = s.handler.ignored
  sequence : s'.handler.sequenceGaps = s.handler.sequenceGaps ∧
    s'.handler.lastSequence = s.handler.lastSequence ∧
    s'.handler.haveSequence = s.handler.haveSequence
  grows : s.out <+: s'.out
  balanced : Balanced s → Balanced s'

namespace Adds

variable {s s' s'' : Sink} {rows rows' : List ReadRow}

theorem refl (s : Sink) : Adds s s [] := by constructor <;> simp

theorem trans (h : Adds s s' rows) (h' : Adds s' s'' rows') : Adds s s'' (rows ++ rows') where
  malformed := by rw [h'.malformed, h.malformed, List.countP_append, UInt64.ofNat_add,
    UInt64.add_assoc]
  skipped := by rw [h'.skipped, h.skipped, List.countP_append, UInt64.ofNat_add,
    UInt64.add_assoc]
  placed := by rw [h'.placed, h.placed, List.countP_append]; omega
  ignored := h'.ignored.trans h.ignored
  sequence := by simp only [h'.sequence, h.sequence, and_self]
  grows := h.grows.trans h'.grows
  balanced hs := h'.balanced (h.balanced hs)

end Adds

theorem applyLevel_adds (s : Sink) (key : LevelKey) (qty : Quantity) (ts : Timestamp) :
    Adds s (s.applyLevel key qty ts) [.ok (key, qty)] := by
  have hplaced := submitted_applyLevel s key qty ts
  refine ⟨?_, ?_, ?_, ?_, ?_, ?_, fun h => h.applyLevel key qty ts⟩
  case refine_3 => by_cases hq : qty = 0 <;> simpa [Content.sets, hq] using hplaced
  all_goals
    unfold Sink.applyLevel Sink.clearLevel Sink.openLevel
    cases s.handler.live.lookup key <;> by_cases hq : qty = 0 <;> simp [hq, Content.fails]

theorem consumeRow_adds (s : Sink) (skipZero : Bool) (ts : Timestamp) (row : ReadRow) :
    Adds s (s.consumeRow skipZero ts row) [row] := by
  cases row with
  | error e =>
    cases e <;> constructor <;>
      simp [Sink.consumeRow, Sink.reject, FeedHandler.reject, Content.fails, Content.sets, Balanced]
  | ok change =>
    obtain ⟨key, qty⟩ := change
    simp only [Sink.consumeRow]
    split_ifs with hzero
    · have hrow : Content.sets (.ok (key, qty)) = false := by simp [Content.sets, hzero.2]
      constructor <;> simp [Content.fails, hrow]
    · exact applyLevel_adds s key qty ts

theorem rows_adds (skipZero : Bool) (ts : Timestamp) (rows : List ReadRow) (s : Sink) :
    Adds s (rows.foldl (fun s row => s.consumeRow skipZero ts row) s) rows := by
  induction rows generalizing s with
  | nil => exact .refl s
  | cons row rows ih => exact (consumeRow_adds s skipZero ts row).trans (ih _)

theorem resetBook_adds (s : Sink) (ts : Timestamp) (iteration : Iteration) :
    Adds s (s.resetBook ts iteration) [] where
  malformed := by simp [Sink.resetBook]
  skipped := by simp [Sink.resetBook]
  placed := by rw [s.resetBook_out, submitted_append, submitted_cancels]; simp
  ignored := rfl
  sequence := ⟨rfl, rfl, rfl⟩
  grows := List.prefix_append _ _
  balanced h := h.resetBook ts iteration

theorem Sink.consume_grows (s : Sink) (a : Arrival) (c : Content) :
    s.out <+: (s.consume a c).out := by
  cases c with
  | update rows => exact (rows_adds false a.ts rows s).grows
  | snapshot rows =>
    exact ((resetBook_adds s a.ts a.iteration).trans (rows_adds true a.ts rows _)).grows
  | trade sequence => exact List.prefix_rfl
  | unreadable => exact List.prefix_rfl
  | other => exact List.prefix_rfl

/-! ## Frames -/

/-- The handler compares a sequence number with the one before. -/
theorem gaps_noted {seqs : List UInt64} {h : FeedHandler}
    (hlast : (if h.haveSequence then some h.lastSequence else none) = seqs.getLast?)
    (seq : UInt64) :
    gaps (seqs ++ [seq]) =
      gaps seqs + if h.haveSequence ∧ seq ≠ h.lastSequence + 1 then 1 else 0 := by
  rcases seqs.eq_nil_or_concat' with rfl | ⟨seqs, last, rfl⟩
  · cases hhave : h.haveSequence <;> simp_all [gaps]
  · rw [List.getLast?_concat] at hlast
    split_ifs at hlast with hhave
    obtain rfl := Option.some.inj hlast
    rw [List.append_assoc, List.singleton_append, gaps_concat]
    simp [hhave]

/-- The totals of some frames, and the last sequence number. -/
structure FeedTotals (contents : List Content) (s : Sink) : Prop where
  malformed : s.handler.malformed = .ofNat (contents.map Content.malformed).sum
  skipped : s.handler.skipped = .ofNat (contents.map Content.skipped).sum
  ignored : s.handler.ignored = .ofNat (contents.map Content.ignored).sum
  placed : (submitted s.out).length = (contents.map Content.placed).sum
  gaps : s.handler.sequenceGaps = .ofNat (gaps (Content.sequences contents))
  last : (if s.handler.haveSequence then some s.handler.lastSequence else none) =
    (Content.sequences contents).getLast?
  balanced : Balanced s

namespace FeedTotals

variable {contents : List Content} {s s' : Sink}

/-- Frames with rows. -/
theorem rows (h : FeedTotals contents s) {c : Content} (hadds : Adds s s' c.rows)
    (hrows : c matches .update _ | .snapshot _) : FeedTotals (contents ++ [c]) s' := by
  have hsequence : c.sequence = none := by cases c <;> simp_all [Content.sequence]
  have hignored : c.ignored = 0 := by cases c <;> simp_all [Content.ignored]
  have hreadable : c.malformed = c.rows.countP (Content.fails .malformed) := by
    cases c <;> simp_all [Content.malformed]
  obtain ⟨hgaps, hlast, hhave⟩ := hadds.sequence
  refine ⟨?_, ?_, ?_, ?_, ?_, ?_, hadds.balanced h.balanced⟩
  · simp [hadds.malformed, h.malformed, hreadable, UInt64.ofNat_add]
  · simp [hadds.skipped, h.skipped, Content.skipped, UInt64.ofNat_add]
  · simp [hadds.ignored, h.ignored, hignored]
  · simp [hadds.placed, h.placed, Content.placed]
  · simpa [hgaps, Content.sequences_concat, hsequence] using h.gaps
  · simpa [hlast, hhave, Content.sequences_concat, hsequence] using h.last

theorem noteSequence (h : FeedTotals contents s) (sequence : Option UInt64) :
    FeedTotals (contents ++ [.trade sequence])
      { s with handler := (sequence.elim s.handler s.handler.noteSequence).ignore } := by
  obtain ⟨hmalformed, hskipped, hignored, hplaced, hgaps, hlast, hbalanced⟩ := h
  cases sequence with
  | none =>
    constructor <;> simp_all [FeedHandler.ignore, Content.malformed, Content.rows, Content.skipped,
      Content.ignored, Content.placed, Content.sequences_concat, Content.sequence,
      UInt64.ofNat_add, Balanced]
  | some seq =>
    refine ⟨?_, ?_, ?_, ?_, ?_, ?_, hbalanced⟩
    case refine_5 =>
      rw [Content.sequences_concat, Content.sequence, Option.toList_some, gaps_noted hlast]
      simp only [FeedHandler.ignore, FeedHandler.noteSequence, Option.elim_some, hgaps]
      split_ifs <;> simp [UInt64.ofNat_add]
    all_goals
      simp_all [FeedHandler.ignore, FeedHandler.noteSequence, Content.malformed, Content.rows,
        Content.skipped, Content.ignored, Content.placed, Content.sequences_concat,
        Content.sequence, UInt64.ofNat_add]

theorem consume (h : FeedTotals contents s) (a : Arrival) (c : Content) :
    FeedTotals (contents ++ [c]) (s.consume a c) := by
  cases c with
  | update rows => exact h.rows (rows_adds false a.ts rows s) rfl
  | snapshot rows =>
    exact h.rows ((resetBook_adds s a.ts a.iteration).trans (rows_adds true a.ts rows _)) rfl
  | trade sequence => exact h.noteSequence sequence
  | unreadable =>
    obtain ⟨hmalformed, hskipped, hignored, hplaced, hgaps, hlast, hbalanced⟩ := h
    constructor <;> simp_all [Sink.consume, Sink.reject, FeedHandler.reject, Content.malformed,
      Content.rows, Content.skipped, Content.ignored, Content.placed, Content.sequences_concat,
      Content.sequence, UInt64.ofNat_add, Balanced]
  | other =>
    obtain ⟨hmalformed, hskipped, hignored, hplaced, hgaps, hlast, hbalanced⟩ := h
    constructor <;> simp_all [Sink.consume, FeedHandler.ignore, Content.malformed,
      Content.rows, Content.skipped, Content.ignored, Content.placed, Content.sequences_concat,
      Content.sequence, UInt64.ofNat_add, Balanced]

end FeedTotals

theorem FeedTotals.run (conv : Conversions) (arrivals : List Arrival) :
    FeedTotals (arrivals.map fun a => contentOf conv a.raw) (Sink.run conv {} arrivals) := by
  induction arrivals using List.reverseRecOn with
  | nil => exact ⟨rfl, rfl, rfl, rfl, rfl, rfl, fun _ => rfl⟩
  | append_singleton arrivals a ih =>
    rw [List.map_append, Sink.run, List.foldl_concat, Sink.parse_eq]
    exact ih.consume a _

/-- After any frames, malformed or not: the counters show every row that was not applied and every
frame without rows, the gaps are those between the sequence numbers of the trades, and the orders
placed are the rows with a quantity. As long as the ids last, each of these orders either is live
and was never cancelled, or is not live and was cancelled by one message. The next frame appends
as many messages as `parse` returns. -/
theorem run_counted (conv : Conversions) (arrivals : List Arrival) :
    FeedTotals (arrivals.map fun a => contentOf conv a.raw) (Sink.run conv {} arrivals) ∧
      ((submitted (Sink.run conv {} arrivals).out).length ≤ UInt64.size →
        ∀ o ∈ submitted (Sink.run conv {} arrivals).out,
          (cancelledIds (Sink.run conv {} arrivals).out).count o.id +
            ((Sink.run conv {} arrivals).handler.live.entries.map (·.2)).count o.id = 1) ∧
      ∀ a, ∃ msgs, ((Sink.run conv {} arrivals).parse conv a).1.out =
          (Sink.run conv {} arrivals).out ++ msgs ∧
        ((Sink.run conv {} arrivals).parse conv a).2 = msgs.length := by
  have htotals := FeedTotals.run conv arrivals
  have hnumbered := (Tracks.new.run conv arrivals).numbered
  refine ⟨htotals, fun hlen o ho => htotals.balanced.settled hnumbered hlen ho, fun a => ?_⟩
  obtain ⟨msgs, hmsgs⟩ := (Sink.run conv {} arrivals).consume_grows a (contentOf conv a.raw)
  exact ⟨msgs, by rw [Sink.parse_eq, hmsgs], by simp [Sink.parse_eq, ← hmsgs]⟩

/-- Two levels are quoted and the first of them once more, which cancels its first order. -/
theorem run_counted_requoted :
    ∃ s : Sink, s = Sink.run quoteConversions {} [quoteTwo, quoteOne, quoteTwo] ∧
      (submitted s.out).map (·.id) = [1, 2, 3] ∧ cancelledIds s.out = [1] ∧
      ∀ o ∈ submitted s.out,
        (cancelledIds s.out).count o.id + (s.handler.live.entries.map (·.2)).count o.id = 1 := by
  have hcounted := run_counted quoteConversions [quoteTwo, quoteOne, quoteTwo]
  exact ⟨_, rfl, by decide, by decide, hcounted.2.1 (by decide)⟩

end LockfreeMatching
