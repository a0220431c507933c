import LockfreeMatching.Feed.Live
import LockfreeMatching.Feed.Tracking

/-!
# The engine as a mirror of the exchange

The engine matches what the handler places. As long as the depth stays uncrossed and within the
pool after every row, no order ever finds a counterparty and the book holds one order per level.
Rows of one update are placed one at a time, though, so a depth that is uncrossed before
and after a frame may cross in the middle of it, and then the engine trades.

## Main results

* `Mirrored.parse`: one frame whose rows all leave a fitting depth.
* `run_mirrors`: any sequence of such frames.
* `run_trades_within_frame`: a frame that crosses only between two of its rows.
-/
namespace LockfreeMatching

open Lib MatchingEngine

/-! ## Depths the engine can hold -/

namespace Depth

/-- Every bid level lies below every ask level. -/
def Uncrossed (d : Depth) : Prop := ∀ b a, d ⟨b, .bid⟩ ≠ 0 → d ⟨a, .ask⟩ ≠ 0 → b < a

/-- The levels that are not empty. -/
def levels (d : Depth) : Set LevelKey := {k | d k ≠ 0}

structure Fits (d : Depth) : Prop where
  uncrossed : d.Uncrossed
  room : d.levels.encard ≤ orderPoolSize

theorem Fits.mono {d d' : Depth} (hf : d'.Fits) (hsub : d.levels ⊆ d'.levels) : d.Fits where
  uncrossed b a hb ha := hf.uncrossed b a (hsub hb) (hsub ha)
  room := (Set.encard_le_encard hsub).trans hf.room

theorem levels_place (conv : Conversions) (side : Side) (d : Depth) (row : Element) :
    d.levels ⊆ (d.place conv side row).levels := by
  intro k hk
  unfold place
  split
  · rename_i key qty hrow
    split_ifs with hq
    · exact hk
    · by_cases hkey : k = key
      · subst hkey
        simpa [levels] using hq
      · simpa [levels, hkey] using hk
  · exact hk

/-- Rows of a snapshot only ever add levels. -/
theorem levels_places (conv : Conversions) (side : Side) (rows : List Element) (d : Depth) :
    d.levels ⊆ (rows.foldl (place conv side) d).levels := by
  induction rows generalizing d with
  | nil => exact fun _ hk => hk
  | cons row rows ih => exact (levels_place conv side d row).trans (ih _)

theorem levels_update (d : Depth) (key : LevelKey) {qty : Quantity} (hq : qty ≠ 0) :
    levels (Function.update d key qty) = insert key d.levels := by
  ext k
  by_cases hkey : k = key
  · simp [levels, hkey, hq]
  · simp [levels, hkey]

/-- An order for a level of an uncrossed depth does not reach the opposite side. -/
theorem Uncrossed.beyond {d : Depth} {key : LevelKey} {qty : Quantity} {p : Int} {id : OrderId}
    {ts : Timestamp} (hu : Uncrossed (Function.update d key qty)) (hq : qty ≠ 0)
    (hp : d ⟨p, key.side.opposite⟩ ≠ 0) :
    beyondLimit ⟨id, key.side, .limit, key.price, qty, ts⟩ p = true := by
  obtain ⟨price, side⟩ := key
  cases side with
  | bid =>
    have := hu price p (by simpa using hq) (by simpa [Side.opposite] using hp)
    simp [beyondLimit, before, Side.opposite, this]
  | ask =>
    have := hu p price (by simpa [Side.opposite] using hp) (by simpa using hq)
    simp [beyondLimit, before, Side.opposite, this]

end Depth

/-- The depth fits after the frame and, within an update, after each of its rows. -/
def RowsFit (conv : Conversions) (d : Depth) : Frame → Prop
  | .update changes => ∀ rows, rows <+: changes → (rows.foldl (Depth.change conv) d).Fits
  | frame => (d.frame conv frame).Fits

/-- Every frame of a feed leaves a fitting depth, row by row. -/
def RowwiseFits (conv : Conversions) (arrivals : List Arrival) : Prop :=
  ∀ pre a, pre ++ [a] <+: arrivals →
    RowsFit conv (Depth.run conv .zero pre) (frameOf conv a.raw)

/-- The number of rows of a frame that are placed as orders. -/
def Frame.orders (conv : Conversions) : Frame → Nat
  | .update changes => changes.countP fun row => (updateRow conv row).any (·.2 ≠ 0)
  | .snapshot bids asks => bids.countP (fun row => (snapshotRow conv .bid row).any (·.2 ≠ 0)) +
      asks.countP fun row => (snapshotRow conv .ask row).any (·.2 ≠ 0)
  | .other => 0

def feedOrders (conv : Conversions) (arrivals : List Arrival) : Nat :=
  (arrivals.map fun a => (frameOf conv a.raw).orders conv).sum

/-! ## Orders that rest untouched -/

/-- The reference book is the ledger: nothing was traded and nothing was refused. -/
structure Rests (msgs : List EngineMessage) : Prop where
  quiet : (RefBook.trace .empty msgs).2 = []
  mem : ∀ s r, r ∈ (RefBook.trace .empty msgs).1 s ↔
    replay msgs r.id = some (⟨r.price, s⟩, r.remaining)
  nodup : ∀ s, ((RefBook.trace .empty msgs).1 s).Nodup

namespace Rests

variable {msgs : List EngineMessage}

theorem nil : Rests [] := by
  refine ⟨rfl, fun s r => ?_, fun s => List.nodup_nil⟩
  simp [RefBook.trace, RefBook.empty, replay]

theorem holds_iff (hr : Rests msgs) {id : OrderId} :
    (RefBook.trace .empty msgs).1.holds id ↔ (replay msgs id).isSome := by
  rw [Option.isSome_iff_exists]
  constructor
  · rintro ⟨s, r, hmem, rfl⟩
    exact ⟨_, (hr.mem s r).1 hmem⟩
  · rintro ⟨⟨⟨p, s⟩, v⟩, hid⟩
    exact ⟨s, ⟨id, p, v⟩, (hr.mem s _).2 hid, rfl⟩

theorem cancel (hr : Rests msgs) (c : CancelMessage) : Rests (msgs ++ [.cancel c]) := by
  refine ⟨?_, fun s r => ?_, fun s => ?_⟩
  · simp [RefBook.trace_append, RefBook.trace, RefBook.process, hr.quiet]
  · simp only [RefBook.trace_append, RefBook.trace, RefBook.process, RefBook.cancel,
      List.mem_filter, decide_eq_true_eq, hr.mem, replay_concat, post_cancel, Function.update_apply]
    split_ifs with hid <;> simp [hid]
  · simp only [RefBook.trace_append, RefBook.trace, RefBook.process]
    exact (hr.nodup s).filter _

theorem cancels (hr : Rests msgs) (ids : List OrderId) (ts : Timestamp) :
    Rests (msgs ++ ids.map fun id => .cancel { id, timestamp := ts }) := by
  induction ids generalizing msgs with
  | nil => simpa using hr
  | cons id ids ih =>
    rw [List.map_cons, List.append_cons]
    exact ih (hr.cancel _)

/-- A limit order that crosses nothing is appended to its side. -/
theorem newOrder_eq {ref : RefBook} {m : NewOrderMessage} (htype : m.type = .limit)
    (hqty : m.quantity ≠ 0) (hprice : 0 ≤ m.price ∧ m.price < maxPriceTicks)
    (hid : ¬ ref.holds m.id) (hcross : ∀ r ∈ ref m.side.opposite, beyondLimit m r.price = true)
    (hroom : ref.size < orderPoolSize) :
    ref.newOrder m =
      (Function.update ref m.side (ref m.side ++ [⟨m.id, m.price, m.quantity⟩]), []) := by
  have hlook : ¬ RefBook.ignored m := by
    rw [RefBook.ignored]
    grind
  have hpos : 0 < m.quantity := by grind
  simp only [RefBook.newOrder, if_neg hlook, matchSide_stop (.inr hcross), Function.update_eq_self,
    List.map_nil, RefBook.rest]
  rw [if_pos ⟨htype, hpos, hid, hroom⟩]

theorem newOrder (hr : Rests msgs) {m : NewOrderMessage} (htype : m.type = .limit)
    (hqty : m.quantity ≠ 0) (hprice : 0 ≤ m.price ∧ m.price < maxPriceTicks)
    (hid : replay msgs m.id = none)
    (hcross : ∀ id p v, replay msgs id = some (⟨p, m.side.opposite⟩, v) → beyondLimit m p = true)
    (hroom : (RefBook.trace .empty msgs).1.size < orderPoolSize) :
    Rests (msgs ++ [.newOrder m]) := by
  have heq := newOrder_eq htype hqty hprice (by simp [hr.holds_iff, hid])
    (fun r hmem => hcross r.id r.price r.remaining ((hr.mem _ r).1 hmem)) hroom
  have hfresh : ∀ s r, r ∈ (RefBook.trace .empty msgs).1 s → r.id ≠ m.id := by
    intro s r hmem hc
    rw [hr.mem, hc, hid] at hmem
    cases hmem
  refine ⟨?_, fun s r => ?_, fun s => ?_⟩
  · simp [RefBook.trace_append, RefBook.trace, RefBook.process, heq, hr.quiet]
  · simp only [RefBook.trace_append, RefBook.trace, RefBook.process, heq, replay_concat,
      post_newOrder, Function.update_apply]
    by_cases hs : s = m.side
    · subst hs
      have := hfresh m.side r
      have := hr.mem m.side r
      obtain ⟨i, p, v⟩ := r
      grind
    · have := hfresh s r
      have := hr.mem s r
      grind
  · simp only [RefBook.trace_append, RefBook.trace, RefBook.process, heq, Function.update_apply]
    split_ifs with hs
    · refine (hr.nodup m.side).append (List.nodup_singleton _) ?_
      intro r hmem hnew
      rw [List.mem_singleton] at hnew
      exact hfresh m.side r hmem (by rw [hnew])
    · exact hr.nodup s

theorem mem_levels (hr : Rests msgs) {index : LevelKey → Option OrderId} {d : Depth}
    (hi : Indexed 0 (replay msgs) index d) {k : LevelKey} :
    k ∈ d.levels ↔ ∃ r ∈ (RefBook.trace .empty msgs).1 k.side, r.price = k.price := by
  constructor
  · intro hk
    obtain ⟨id, hid⟩ := Option.ne_none_iff_exists'.1 (hi.level k hk)
    obtain ⟨v, hv⟩ := (hi.found k id).1 hid
    exact ⟨⟨id, k.price, v⟩, (hr.mem k.side _).2 hv, rfl⟩
  · rintro ⟨r, hmem, hprice⟩
    have hentry := (hr.mem k.side r).1 hmem
    rw [hprice] at hentry
    exact (hi.value _ _ _ hentry).2

/-- The book has one order per level. -/
theorem size_eq (hr : Rests msgs) {index : LevelKey → Option OrderId} {d : Depth}
    (hi : Indexed 0 (replay msgs) index d) :
    ((RefBook.trace .empty msgs).1.size : ℕ∞) = d.levels.encard := by
  set ref := (RefBook.trace .empty msgs).1 with href
  set keys := fun s => (ref s).map fun r => (⟨r.price, s⟩ : LevelKey) with hkeys
  have hnodup : ∀ s, (keys s).Nodup := by
    intro s
    refine (hr.nodup s).map_on fun r hmem r' hmem' hkey => ?_
    have hprice : r.price = r'.price := congrArg LevelKey.price hkey
    have hentry := (hr.mem s r).1 hmem
    have hentry' := (hr.mem s r').1 hmem'
    rw [hprice] at hentry
    have hid := hi.key_injective hentry hentry'
    rw [hid, hentry'] at hentry
    obtain ⟨i, p, v⟩ := r
    obtain ⟨i', p', v'⟩ := r'
    grind
  have hdisj : (keys .bid).Disjoint (keys .ask) := by
    intro k hb ha
    simp only [hkeys, List.mem_map] at hb ha
    grind
  have hlevels : d.levels = ((keys .bid ++ keys .ask).toFinset : Set LevelKey) := by
    ext ⟨p, s⟩
    rw [hr.mem_levels hi]
    cases s <;> simp [hkeys, href]
  rw [hlevels, Set.encard_coe_eq_coe_finsetCard,
    List.toFinset_card_of_nodup ((hnodup .bid).append (hnodup .ask) hdisj)]
  simp [hkeys, RefBook.size]

end Rests

/-! ## The handler's orders rest -/

theorem Conversions.level_price {conv : Conversions} {price size : String} {l : Int × Quantity}
    (h : conv.level price size = some l) : 0 < l.1 ∧ l.1 < maxPriceTicks := by
  unfold level at h
  simp only [Option.bind_eq_bind, Option.bind_eq_some_iff] at h
  obtain ⟨p, -, qty, -, h⟩ := h
  split_ifs at h with hp
  cases h
  exact hp

theorem updateRow_price {conv : Conversions} {row : Element} {level : LevelKey × Quantity}
    (h : updateRow conv row = some level) :
    0 < level.1.price ∧ level.1.price < maxPriceTicks := by
  unfold updateRow at h
  split at h
  · split_ifs at h
    simp only [Option.bind_eq_bind, Option.bind_eq_some_iff] at h
    obtain ⟨side, -, l, hl, h⟩ := h
    cases h
    exact Conversions.level_price hl
  · cases h

theorem snapshotRow_price {conv : Conversions} {side : Side} {row : Element}
    {level : LevelKey × Quantity} (h : snapshotRow conv side row = some level) :
    0 < level.1.price ∧ level.1.price < maxPriceTicks := by
  unfold snapshotRow at h
  split at h
  · split_ifs at h
    obtain ⟨l, hl, h⟩ := Option.map_eq_some_iff.1 h
    cases h
    exact Conversions.level_price hl
  · cases h

/-- The handler tracks the depth and all of its orders rest, until an id is used twice. -/
structure Mirrored (s : Sink) (d : Depth) : Prop where
  tracks : Tracks s d
  rests : (submitted s.out).length ≤ UInt64.size → Rests s.out

namespace Mirrored

variable {s : Sink} {d : Depth}

theorem new : Mirrored {} .zero := ⟨.new, fun _ => .nil⟩

theorem handler (hm : Mirrored s d) {h : FeedHandler} (hlive : h.live = s.handler.live)
    (hnext : h.nextId = s.handler.nextId) : Mirrored { s with handler := h } d :=
  ⟨hm.tracks.handler hlive hnext, hm.rests⟩

theorem reject (hm : Mirrored s d) (e : RowError) : Mirrored (s.reject e) d :=
  ⟨hm.tracks.reject e, hm.rests⟩

theorem clearLevel (hm : Mirrored s d) (key : LevelKey) (ts : Timestamp) :
    Mirrored (s.clearLevel key ts) (Function.update d key 0) := by
  refine ⟨hm.tracks.clearLevel key ts, fun hn => ?_⟩
  cases hl : s.handler.live.lookup key with
  | none =>
    rw [Sink.clearLevel_none ts hl] at hn ⊢
    exact hm.rests hn
  | some id =>
    rw [Sink.clearLevel_some ts hl] at hn ⊢
    exact (hm.rests (by simpa using hn)).cancel _

theorem resetBook (hm : Mirrored s d) (ts : Timestamp) (iteration : Iteration) :
    Mirrored (s.resetBook ts iteration) .zero := by
  refine ⟨hm.tracks.resetBook ts iteration, fun hn => ?_⟩
  rw [Sink.resetBook_out] at hn ⊢
  refine (hm.rests ?_).cancels _ ts
  rwa [submitted_append, submitted_cancels, List.append_nil] at hn

/-- An order that leaves a fitting depth finds no counterparty and a free slot. -/
theorem openLevel (hm : Mirrored s d) {key : LevelKey} {qty : Quantity} (ts : Timestamp)
    (hk : key ∉ s.handler.live) (hq : qty ≠ 0) (hprice : 0 < key.price ∧ key.price < maxPriceTicks)
    (hfits : Depth.Fits (Function.update d key qty)) :
    Mirrored (s.openLevel key qty ts) (Function.update d key qty) := by
  refine ⟨hm.tracks.openLevel ts hk hq, fun hn => ?_⟩
  simp only [Sink.openLevel, submitted_append, submitted_newOrder, List.length_append,
    List.length_singleton] at hn
  have hr := hm.rests (by omega)
  have hi := (hm.tracks.agrees (by omega)).indexed
  have hempty : d key = 0 := hi.index_eq_none_iff.1 (AList.lookup_eq_none.2 hk)
  apply hr.newOrder rfl hq ⟨by simp; omega, hprice.2⟩ (hm.tracks.fresh (by omega))
  · intro id p v hentry
    exact Depth.Uncrossed.beyond hfits.uncrossed hq (hi.value _ _ _ hentry).2
  · have hroom := hfits.room
    have hnew : key ∉ d.levels := by simpa [Depth.levels] using hempty
    rw [Depth.levels_update d key hq, Set.encard_insert_of_notMem hnew,
      ← hr.size_eq hi] at hroom
    exact_mod_cast hroom

theorem applyLevel (hm : Mirrored s d) {key : LevelKey} {qty : Quantity} (ts : Timestamp)
    (hprice : 0 < key.price ∧ key.price < maxPriceTicks)
    (hfits : qty ≠ 0 → Depth.Fits (Function.update d key qty)) :
    Mirrored (s.applyLevel key qty ts) (Function.update d key qty) := by
  have hclear := hm.clearLevel key ts
  unfold Sink.applyLevel
  split_ifs with hq
  · rw [hq]
    exact hclear
  · have hopen := hclear.openLevel ts (s.notMem_clearLevel key ts) hq hprice (by
      rw [Function.update_idem]
      exact hfits hq)
    rwa [Function.update_idem] at hopen

/-- A row of an update. -/
theorem changeRow (hm : Mirrored s d) (conv : Conversions) (row : Element) (ts : Timestamp)
    (hfits : (d.change conv row).Fits) :
    Mirrored (s.consumeRow false ts (changeRow conv row)) (d.change conv row) := by
  have hread := changeRow_toOption conv row
  unfold Depth.change at hfits ⊢
  cases hrow : LockfreeMatching.changeRow conv row with
  | error e =>
    rw [hrow] at hread
    rw [← hread]
    exact hm.reject e
  | ok level =>
    rw [hrow] at hread
    rw [← hread] at hfits ⊢
    simp only [Except.toOption, Sink.consumeRow, Bool.false_eq_true, false_and, if_false] at hfits ⊢
    exact hm.applyLevel ts (updateRow_price hread.symm) fun _ => hfits

/-- A row of a snapshot. -/
theorem priceSizeRow (hm : Mirrored s d) (conv : Conversions) (side : Side) (row : Element)
    (ts : Timestamp) (hfits : (d.place conv side row).Fits) :
    Mirrored (s.consumeRow true ts (priceSizeRow conv side row)) (d.place conv side row) := by
  have hread := priceSizeRow_toOption conv side row
  unfold Depth.place at hfits ⊢
  cases hrow : LockfreeMatching.priceSizeRow conv side row with
  | error e =>
    rw [hrow] at hread
    rw [← hread]
    exact hm.reject e
  | ok level =>
    rw [hrow] at hread
    rw [← hread] at hfits ⊢
    simp only [Except.toOption, Sink.consumeRow, true_and] at hfits ⊢
    split_ifs at hfits ⊢
    · exact hm
    · exact hm.applyLevel ts (snapshotRow_price hread.symm) fun _ => hfits

/-- A loop over rows, each of which leaves a fitting depth. -/
theorem foldl {f : Sink → Element → Sink} {g : Depth → Element → Depth}
    (hstep : ∀ s d row, Mirrored s d → (g d row).Fits → Mirrored (f s row) (g d row))
    (rows : List Element) {s : Sink} {d : Depth} (hm : Mirrored s d)
    (hfits : ∀ pre, pre <+: rows → (pre.foldl g d).Fits) :
    Mirrored (rows.foldl f s) (rows.foldl g d) := by
  induction rows generalizing s d with
  | nil => exact hm
  | cons row rows ih =>
    apply ih (hstep s d row hm (hfits [row] (by simp)))
    intro pre hpre
    exact hfits (row :: pre) (List.cons_prefix_cons.2 ⟨rfl, hpre⟩)

theorem places (hm : Mirrored s d) (conv : Conversions) (side : Side) (rows : List Element)
    (ts : Timestamp) (hfits : (rows.foldl (Depth.place conv side) d).Fits) :
    Mirrored (s.consumePriceSizeArray conv rows side ts true)
      (rows.foldl (Depth.place conv side) d) := by
  apply foldl (fun s d row h => h.priceSizeRow conv side row ts) rows hm
  rintro pre ⟨later, rfl⟩
  rw [List.foldl_append] at hfits
  exact hfits.mono (Depth.levels_places conv side later _)

/-- One frame. -/
theorem parse (hm : Mirrored s d) (conv : Conversions) (a : Arrival)
    (hfits : RowsFit conv d (frameOf conv a.raw)) :
    Mirrored (s.parse conv a).1 (d.frame conv (frameOf conv a.raw)) := by
  have hcases := s.parse_cases conv a
  cases hframe : frameOf conv a.raw with
  | update changes =>
    simp only [hframe] at hcases hfits
    rw [hcases]
    exact foldl (fun s d row h => h.changeRow conv row a.ts) changes hm hfits
  | snapshot bids asks =>
    simp only [hframe] at hcases hfits
    have hbids : (bids.foldl (Depth.place conv .bid) .zero).Fits :=
      hfits.mono (Depth.levels_places conv .ask asks _)
    rw [hcases]
    exact ((hm.resetBook a.ts a.iteration).places conv .bid bids a.ts hbids).places conv .ask asks
      a.ts hfits
  | other =>
    simp only [hframe] at hcases
    obtain ⟨h, heq, hlive, hnext⟩ := hcases
    rw [heq]
    exact hm.handler hlive hnext

end Mirrored

/-- Any sequence of frames. -/
theorem RowwiseFits.mirrored {conv : Conversions} {arrivals : List Arrival}
    (hfits : RowwiseFits conv arrivals) :
    Mirrored (Sink.run conv {} arrivals) (Depth.run conv .zero arrivals) := by
  induction arrivals using List.reverseRecOn with
  | nil => exact .new
  | append_singleton arrivals a ih =>
    have hm := ih fun pre b hpre => hfits pre b (hpre.trans (List.prefix_append _ _))
    simp only [Sink.run, Depth.run, List.foldl_append, List.foldl_cons, List.foldl_nil]
    exact hm.parse conv a (hfits arrivals a (List.prefix_refl _))

/-! ## Counting orders -/

theorem submitted_consumeRow (s : Sink) (skipZero : Bool) (ts : Timestamp)
    (row : Except RowError (LevelKey × Quantity)) :
    (submitted (s.consumeRow skipZero ts row).out).length =
      (submitted s.out).length + if row.toOption.any (·.2 ≠ 0) then 1 else 0 := by
  cases row with
  | error e => rfl
  | ok level =>
    simp only [Sink.consumeRow, Except.toOption, Option.any_some]
    by_cases hq : level.2 = 0
    · split_ifs <;> simp_all [submitted_applyLevel]
    · simp [hq, submitted_applyLevel]

theorem submitted_foldl (read : Element → Except RowError (LevelKey × Quantity))
    (skipZero : Bool) (ts : Timestamp) (rows : List Element) (s : Sink) :
    (submitted (rows.foldl (fun s row => s.consumeRow skipZero ts (read row)) s).out).length =
      (submitted s.out).length + rows.countP fun row => (read row).toOption.any (·.2 ≠ 0) := by
  induction rows generalizing s with
  | nil => rfl
  | cons row rows ih =>
    rw [List.foldl_cons, ih, submitted_consumeRow, List.countP_cons]
    omega

/-- The handler places the orders that a frame calls for. -/
theorem submitted_parse (conv : Conversions) (s : Sink) (a : Arrival) :
    (submitted (s.parse conv a).1.out).length =
      (submitted s.out).length + (frameOf conv a.raw).orders conv := by
  have hcases := s.parse_cases conv a
  cases hframe : frameOf conv a.raw with
  | update changes =>
    simp only [hframe] at hcases
    rw [hcases, Sink.consumeChanges, submitted_foldl]
    simp only [changeRow_toOption, Frame.orders]
  | snapshot bids asks =>
    simp only [hframe] at hcases
    rw [hcases, Sink.consumePriceSizeArray, Sink.consumePriceSizeArray, submitted_foldl,
      submitted_foldl, Sink.resetBook_out, submitted_append, submitted_cancels, List.append_nil]
    simp only [priceSizeRow_toOption, Frame.orders, Nat.add_assoc]
  | other =>
    simp only [hframe] at hcases
    obtain ⟨h, heq, -⟩ := hcases
    rw [heq]
    rfl

theorem submitted_run (conv : Conversions) (s : Sink) (arrivals : List Arrival) :
    (submitted (s.run conv arrivals).out).length =
      (submitted s.out).length + feedOrders conv arrivals := by
  induction arrivals generalizing s with
  | nil => rfl
  | cons a arrivals ih =>
    apply (ih _).trans
    rw [submitted_parse, feedOrders, feedOrders, List.map_cons, List.sum_cons, Nat.add_assoc]

/-! ## The engine's book -/

/-- One resting order per level of the depth, with its quantity, and no others. -/
structure Mirrors (e : MatchingEngine) (d : Depth) : Prop where
  level : ∀ k, d k ≠ 0 →
    ∃! x, LinkedAt e.heap e.book k.price x ∧ (e.heap.order x).side = k.side
  order : ∀ p x, LinkedAt e.heap e.book p x → (e.heap.order x).price = p ∧
    (e.heap.order x).remainingQuantity = d ⟨p, (e.heap.order x).side⟩ ∧
    d ⟨p, (e.heap.order x).side⟩ ≠ 0

theorem Rests.mirrors {msgs : List EngineMessage} {e : MatchingEngine}
    {index : LevelKey → Option OrderId} {d : Depth} (hr : Rests msgs)
    (hsim : Simulates e (RefBook.trace .empty msgs).1) (hi : Indexed 0 (replay msgs) index d) :
    Mirrors e d := by
  obtain ⟨q, free, he, hv⟩ := hsim
  have hlink : ∀ p x, LinkedAt e.heap e.book p x ↔ x ∈ q p := fun p x => he.rep.linkedAt_iff
  have hentry : ∀ p x, x ∈ q p → replay msgs (e.heap.order x).id =
      some (⟨p, (e.heap.order x).side⟩, (e.heap.order x).remainingQuantity) := by
    intro p x hx
    rw [← he.rep.price p x hx]
    exact (hr.mem _ _).1 (hv.mem he.rep hx)
  refine ⟨fun k hk => ?_, fun p x hx => ?_⟩
  · obtain ⟨r, hmem, hprice⟩ := (hr.mem_levels hi).1 hk
    obtain ⟨x, hx, hside, rfl⟩ := hv.mem_iff.1 hmem
    rw [hprice] at hx
    refine ⟨x, ⟨(hlink _ _).2 hx, hside⟩, ?_⟩
    rintro y ⟨hy, hyside⟩
    have hy := (hlink _ _).1 hy
    -- both orders are the ledger's entry for the level, so they carry one id
    have hid : (e.heap.order y).id = (e.heap.order x).id := by
      have hex := hentry _ _ hx
      have hey := hentry _ _ hy
      rw [hside] at hex
      rw [hyside] at hey
      exact hi.key_injective hey hex
    have hmx := (he.rep.map _ x).2 ⟨(he.rep.mem_iff.1 hx).1, rfl⟩
    have hmy := (he.rep.map _ y).2 ⟨(he.rep.mem_iff.1 hy).1, hid⟩
    exact Option.some.inj (hmy.symm.trans hmx)
  · have hx := (hlink p x).1 hx
    exact ⟨he.rep.price p x hx, hi.value _ _ _ (hentry p x hx)⟩

/-- While every row leaves a depth that fits and ids last, the engine holds after each frame one
order per level and has never traded. -/
theorem run_mirrors (conv : Conversions) (arrivals : List Arrival)
    (hfits : RowwiseFits conv arrivals) (hids : feedOrders conv arrivals ≤ 2 ^ 64) :
    ∀ pre, pre <+: arrivals → ∃ l, LiveFeed.run conv {} pre = some l ∧ l.fills = [] ∧
      Mirrors l.engine (Depth.run conv .zero pre) := by
  rintro pre ⟨later, rfl⟩
  have hm := RowwiseFits.mirrored fun pre' a hpre =>
    hfits pre' a (hpre.trans (List.prefix_append _ _))
  have hlen : (submitted (Sink.run conv {} pre).out).length ≤ UInt64.size := by
    have hsum : feedOrders conv (pre ++ later) = feedOrders conv pre + feedOrders conv later := by
      simp [feedOrders]
    have hrun := submitted_run conv {} pre
    have hnone : (submitted ({} : Sink).out).length = 0 := rfl
    have hsize : UInt64.size = 2 ^ 64 := rfl
    omega
  have hr := hm.rests hlen
  obtain ⟨e, htrace, hsim⟩ := Simulates.new.trace (Sink.run conv {} pre).out
  rw [hr.quiet] at htrace
  have hlive : LiveFeed.run conv {} pre =
      some { handler := (Sink.run conv {} pre).handler, engine := e, fills := [] } := by
    rw [LiveFeed.run_eq, htrace]
    rfl
  exact ⟨_, hlive, rfl, hr.mirrors hsim (hm.tracks.agrees hlen).indexed⟩

/-! ## The order of rows matters -/

/-- One ask level at 101 dollars. -/
def askSnapshot : Arrival where
  raw := "\x7b\"type\":\"snapshot\",\"bids\":[],\"asks\":[[\"101.00\",\"1\"]]\x7d"

/-- The ask level is gone and a bid level has taken its price, the bid being listed first. -/
def bidBeforeAsk : Arrival where
  raw := "\x7b\"type\":\"l2update\",\"changes\":[[\"buy\",\"101.00\",\"1\"]," ++
    "[\"sell\",\"101.00\",\"0\"]]\x7d"

/-- The same change, the removal being listed first. -/
def askBeforeBid : Arrival where
  raw := "\x7b\"type\":\"l2update\",\"changes\":[[\"sell\",\"101.00\",\"0\"]," ++
    "[\"buy\",\"101.00\",\"1\"]]\x7d"

def buyRow : Element := .array [.string "buy", .string "101.00", .string "1"]

def sellRow : Element := .array [.string "sell", .string "101.00", .string "0"]

/-- Conversions on the texts of these frames. -/
def rowConversions : Conversions where
  parse raw :=
    if raw = askSnapshot.raw then some (.object [("type", .string "snapshot"),
      ("bids", .array []), ("asks", .array [.array [.string "101.00", .string "1"]])])
    else if raw = bidBeforeAsk.raw then
      some (.object [("type", .string "l2update"), ("changes", .array [buyRow, sellRow])])
    else if raw = askBeforeBid.raw then
      some (.object [("type", .string "l2update"), ("changes", .array [sellRow, buyRow])])
    else none
  ticks s := if s = "101.00" then some 10100 else none
  lots s := if s = "1" then some 1000000 else if s = "0" then some 0 else none

theorem Depth.fits_of_one_level {d : Depth} (key : LevelKey) (h : ∀ k, d k ≠ 0 → k = key) :
    d.Fits := by
  refine ⟨fun b a hb ha => ?_, ?_⟩
  · have hsides := (h _ hb).trans (h _ ha).symm
    cases hsides
  · have hsub : d.levels ⊆ {key} := h
    apply (Set.encard_le_encard hsub).trans
    rw [Set.encard_singleton, orderPoolSize_eq]
    decide

theorem depth_askSnapshot : Depth.run rowConversions .zero [askSnapshot] =
    Function.update Depth.zero ⟨10100, .ask⟩ 1000000 := rfl

theorem change_buyRow (d : Depth) :
    d.change rowConversions buyRow = Function.update d ⟨10100, .bid⟩ 1000000 := rfl

theorem change_sellRow (d : Depth) :
    d.change rowConversions sellRow = Function.update d ⟨10100, .ask⟩ 0 := rfl

theorem fits_askSnapshot : (Depth.run rowConversions .zero [askSnapshot]).Fits := by
  apply Depth.fits_of_one_level ⟨10100, .ask⟩
  intro k hk
  rw [depth_askSnapshot] at hk
  simp only [Function.update_apply, Depth.zero] at hk
  grind

/-- Once the ask is removed, there is at most the bid. -/
theorem fits_after_sellRow {d : Depth} (h : d = Depth.change rowConversions
      (Depth.run rowConversions .zero [askSnapshot]) sellRow ∨
    d = Depth.change rowConversions (Depth.change rowConversions
      (Depth.run rowConversions .zero [askSnapshot]) sellRow) buyRow) : d.Fits := by
  apply Depth.fits_of_one_level ⟨10100, .bid⟩
  intro k hk
  rw [change_buyRow, change_sellRow, depth_askSnapshot] at h
  rcases h with rfl | rfl <;>
  · simp only [Function.update_apply, Depth.zero] at hk
    grind

theorem rowwiseFits_askBeforeBid : RowwiseFits rowConversions [askSnapshot, askBeforeBid] := by
  intro pre a hpre
  match pre with
  | [] =>
    obtain rfl : a = askSnapshot := by simpa using hpre
    exact fits_askSnapshot
  | [x] =>
    obtain ⟨rfl, rfl⟩ : x = askSnapshot ∧ a = askBeforeBid := by simpa using hpre
    intro rows hrows
    match rows with
    | [] => exact fits_askSnapshot
    | [r] =>
      obtain rfl : r = sellRow := by simpa using hrows
      exact fits_after_sellRow (.inl rfl)
    | [r, r'] =>
      obtain ⟨rfl, rfl⟩ : r = sellRow ∧ r' = buyRow := by simpa using hrows
      exact fits_after_sellRow (.inr rfl)
    | _ :: _ :: _ :: _ => simp at hrows
  | _ :: _ :: _ => simp at hpre

/-- Listing the removal first, the engine follows the exchange. -/
theorem run_mirrors_askBeforeBid :
    RowwiseFits rowConversions [askSnapshot, askBeforeBid] ∧
      feedOrders rowConversions [askSnapshot, askBeforeBid] ≤ 2 ^ 64 ∧
      ∃ l, LiveFeed.run rowConversions {} [askSnapshot, askBeforeBid] = some l ∧ l.fills = [] ∧
        Mirrors l.engine (Depth.run rowConversions .zero [askSnapshot, askBeforeBid]) := by
  have hids : feedOrders rowConversions [askSnapshot, askBeforeBid] ≤ 2 ^ 64 := by
    have : feedOrders rowConversions [askSnapshot, askBeforeBid] = 2 := rfl
    omega
  exact ⟨rowwiseFits_askBeforeBid, hids,
    run_mirrors _ _ rowwiseFits_askBeforeBid hids _ (List.prefix_refl _)⟩

/-- The messages of the other order: the new bid meets the ask it replaces. -/
theorem out_bidBeforeAsk : (Sink.run rowConversions {} [askSnapshot, bidBeforeAsk]).out =
    [.newOrder { id := 1, side := .ask, price := 10100, quantity := 1000000 },
      .newOrder { id := 2, side := .bid, price := 10100, quantity := 1000000 },
      .cancel { id := 1 }] := rfl

theorem depth_bidBeforeAsk : Depth.run rowConversions .zero [askSnapshot, bidBeforeAsk] =
    Depth.change rowConversions (Depth.change rowConversions
      (Depth.run rowConversions .zero [askSnapshot]) buyRow) sellRow := rfl

theorem fits_bidBeforeAsk : (Depth.run rowConversions .zero [askSnapshot, bidBeforeAsk]).Fits := by
  apply Depth.fits_of_one_level ⟨10100, .bid⟩
  intro k hk
  rw [depth_bidBeforeAsk, change_sellRow, change_buyRow, depth_askSnapshot] at hk
  simp only [Function.update_apply, Depth.zero] at hk
  grind

/-- The engine's book after these messages is empty. -/
theorem trace_bidBeforeAsk :
    (RefBook.trace .empty (Sink.run rowConversions {} [askSnapshot, bidBeforeAsk]).out).2 ≠ [] ∧
    ∀ s, (RefBook.trace .empty
      (Sink.run rowConversions {} [askSnapshot, bidBeforeAsk]).out).1 s = [] := by
  rw [out_bidBeforeAsk]
  refine ⟨by decide +kernel, fun s => ?_⟩
  cases s <;> decide +kernel

/-- The depth is uncrossed after each of two frames, and the engine trades within the second:
afterwards the level it should hold is missing. -/
theorem run_trades_within_frame :
    (∀ pre, pre <+: [askSnapshot, bidBeforeAsk] →
      (Depth.run rowConversions .zero pre).Fits) ∧
    ∃ l, LiveFeed.run rowConversions {} [askSnapshot, bidBeforeAsk] = some l ∧ l.fills ≠ [] ∧
      ¬ Mirrors l.engine (Depth.run rowConversions .zero [askSnapshot, bidBeforeAsk]) := by
  refine ⟨fun pre hpre => ?_, ?_⟩
  · match pre with
    | [] => exact Depth.fits_of_one_level ⟨0, .bid⟩ fun k hk => (hk rfl).elim
    | [x] =>
      obtain rfl : x = askSnapshot := by simpa using hpre
      exact fits_askSnapshot
    | [x, y] =>
      obtain ⟨rfl, rfl⟩ : x = askSnapshot ∧ y = bidBeforeAsk := by simpa using hpre
      exact fits_bidBeforeAsk
    | _ :: _ :: _ :: _ => simp at hpre
  obtain ⟨hfills, hbook⟩ := trace_bidBeforeAsk
  obtain ⟨e, htrace, hsim⟩ :=
    Simulates.new.trace (Sink.run rowConversions {} [askSnapshot, bidBeforeAsk]).out
  refine ⟨_, by rw [LiveFeed.run_eq, htrace]; rfl, hfills, fun hm => ?_⟩
  obtain ⟨q, free, he, hv⟩ := hsim
  obtain ⟨x, ⟨hx, -⟩, -⟩ := hm.level ⟨10100, .bid⟩ (by decide +kernel)
  have hmem := hv.mem he.rep (he.rep.linkedAt_iff.1 hx)
  rw [hbook] at hmem
  cases hmem

end LockfreeMatching
