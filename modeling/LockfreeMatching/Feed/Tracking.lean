import LockfreeMatching.Feed.Depth
import LockfreeMatching.Lib.Ledger
import Mathlib.Data.Set.Card

/-!
# The handler tracks the depth

The messages of the handler, entered into a plain ledger that never matches, denote exactly
the depth that the frames describe, with one entry per non-empty level. Ids are handed out in
order and wrap around after `2 ^ 64` orders; until then no entry is ever overwritten.

## Main results

* `Tracks.parse`: one frame keeps ledger, live map and depth together.
* `run_denotes`: so does any sequence of frames, until the ids run out.
* `run_reuses_live_id`: what happens then.
-/
namespace LockfreeMatching

open Lib

/-! ## Replaying messages -/

abbrev OrderLedger := Ledger OrderId LevelKey Quantity

/-- Enter a message without matching. -/
def post (l : OrderLedger) : EngineMessage → OrderLedger
  | .newOrder m => Function.update l m.id (some (⟨m.price, m.side⟩, m.quantity))
  | .cancel c => Function.update l c.id none

def replay (msgs : List EngineMessage) : OrderLedger := msgs.foldl post fun _ => none

/-- Every cancel names an entry of the ledger at that point, as long as ids last. -/
def Grounded (msgs : List EngineMessage) : Prop :=
  ∀ pre c post, msgs = pre ++ .cancel c :: post → (submitted pre).length ≤ UInt64.size →
    (replay pre c.id).isSome

@[simp] theorem replay_concat (msgs : List EngineMessage) (m : EngineMessage) :
    replay (msgs ++ [m]) = post (replay msgs) m := by
  simp [replay]

theorem replay_cancels (msgs : List EngineMessage) (ids : List OrderId) (ts : Timestamp) :
    replay (msgs ++ ids.map fun id => .cancel { id, timestamp := ts }) =
      fun id => if id ∈ ids then none else replay msgs id := by
  induction ids generalizing msgs with
  | nil => simp
  | cons i ids ih =>
    rw [List.map_cons, List.append_cons, ih, replay_concat]
    funext id
    by_cases hid : id = i
    · simp [post, hid]
    · simp [post, hid]

theorem Grounded.nil : Grounded [] := by simp [Grounded]

theorem Grounded.concat {msgs : List EngineMessage} {m : EngineMessage} (hg : Grounded msgs)
    (hm : ∀ c, m = .cancel c → (submitted msgs).length ≤ UInt64.size →
      (replay msgs c.id).isSome) : Grounded (msgs ++ [m]) := by
  intro pre c post heq
  rcases List.eq_nil_or_concat post with rfl | ⟨post, x, rfl⟩
  · obtain ⟨rfl, hx⟩ := List.append_inj' heq rfl
    exact hm c (by simpa using hx)
  · rw [List.concat_eq_append, ← List.cons_append, ← List.append_assoc] at heq
    exact hg pre c post (List.append_inj' heq rfl).1

theorem Grounded.cancels {msgs : List EngineMessage} {ids : List OrderId} (ts : Timestamp)
    (hg : Grounded msgs) (hids : (submitted msgs).length ≤ UInt64.size →
      ids.Nodup ∧ ∀ id ∈ ids, (replay msgs id).isSome) :
    Grounded (msgs ++ ids.map fun id => .cancel { id, timestamp := ts }) := by
  induction ids generalizing msgs with
  | nil => simpa using hg
  | cons i ids ih =>
    rw [List.map_cons, List.append_cons]
    refine ih ?_ fun hn => ?_
    · refine hg.concat fun c hc hn => ?_
      cases hc
      exact (hids hn).2 i (by simp)
    · obtain ⟨hnodup, hsome⟩ := hids (by simpa using hn)
      rw [List.nodup_cons] at hnodup
      refine ⟨hnodup.2, fun id hid => ?_⟩
      have hne : id ≠ i := fun hc => hnodup.1 (hc ▸ hid)
      simpa [post, hne] using hsome id (by simp [hid])

/-! ## The invariant -/

/-- The id of the `i`-th order: ids start at one and wrap around. -/
def idAt (i : Nat) : OrderId := .ofNat (1 + i)

theorem idAt_injOn {i j : Nat} (hi : i < UInt64.size) (hj : j < UInt64.size)
    (h : idAt i = idAt j) : i = j := by
  have := congrArg UInt64.toNat h
  simp only [idAt, UInt64.toNat_ofNat', UInt64.size] at *
  omega

/-- Ids are handed out in order. -/
structure Numbered (s : Sink) : Prop where
  ids : (submitted s.out).map (·.id) = (List.range (submitted s.out).length).map idAt
  next : s.handler.nextId = idAt (submitted s.out).length

/-- Ledger, live map and depth describe the same levels. -/
structure Agrees (s : Sink) (d : Depth) : Prop where
  indexed : Indexed 0 (replay s.out) (fun k => s.handler.live.lookup k) d
  used : ∀ id, (replay s.out id).isSome → ∃ i < (submitted s.out).length, id = idAt i

/-- The invariant of the handler: agreement lasts until an id is used twice. -/
structure Tracks (s : Sink) (d : Depth) : Prop where
  numbered : Numbered s
  grounded : Grounded s.out
  agrees : (submitted s.out).length ≤ UInt64.size → Agrees s d

theorem Tracks.new : Tracks {} .zero where
  numbered := ⟨rfl, rfl⟩
  grounded := .nil
  agrees _ := ⟨.empty, by simp [replay]⟩

theorem lookup_erase_eq (live : LiveMap) (key : LevelKey) :
    (fun k => (live.erase key).lookup k) =
      Function.update (fun k => live.lookup k) key none := by
  funext k
  by_cases hk : k = key
  · subst hk
    simp
  · simp [hk]

theorem lookup_insert_eq (live : LiveMap) (key : LevelKey) (id : OrderId) :
    (fun k => (live.insert key id).lookup k) =
      Function.update (fun k => live.lookup k) key (some id) := by
  funext k
  by_cases hk : k = key
  · subst hk
    simp
  · simp [hk, AList.lookup_insert_ne hk]

@[simp] theorem post_newOrder (l : OrderLedger) (m : NewOrderMessage) :
    post l (.newOrder m) = Function.update l m.id (some (⟨m.price, m.side⟩, m.quantity)) := rfl

@[simp] theorem post_cancel (l : OrderLedger) (c : CancelMessage) :
    post l (.cancel c) = Function.update l c.id none := rfl

theorem Sink.clearLevel_some {s : Sink} {key : LevelKey} {id : OrderId} (ts : Timestamp)
    (h : s.handler.live.lookup key = some id) :
    s.clearLevel key ts =
      { handler := { s.handler with live := s.handler.live.erase key }
        out := s.out ++ [.cancel { id, timestamp := ts }] } := by
  simp [clearLevel, h]

theorem Sink.clearLevel_none {s : Sink} {key : LevelKey} (ts : Timestamp)
    (h : s.handler.live.lookup key = none) : s.clearLevel key ts = s := by
  simp [clearLevel, h]

theorem Tracks.clearLevel {s : Sink} {d : Depth} (ht : Tracks s d) (key : LevelKey)
    (ts : Timestamp) : Tracks (s.clearLevel key ts) (Function.update d key 0) := by
  cases hl : s.handler.live.lookup key with
  | none =>
    rw [Sink.clearLevel_none ts hl]
    refine ⟨ht.numbered, ht.grounded, fun hn => ?_⟩
    have hzero := (ht.agrees hn).indexed.index_eq_none_iff.1 hl
    rw [← hzero, Function.update_eq_self]
    exact ht.agrees hn
  | some id =>
    rw [Sink.clearLevel_some ts hl]
    refine ⟨⟨by simpa using ht.numbered.ids, by simpa using ht.numbered.next⟩, ?_, fun hn => ?_⟩
    · refine ht.grounded.concat fun c hc hn => ?_
      cases hc
      exact (ht.agrees hn).indexed.isSome_iff.2 ⟨key, hl⟩
    have ha := ht.agrees (by simpa using hn)
    refine ⟨?_, fun i hi => ?_⟩
    · rw [lookup_erase_eq, replay_concat]
      exact ha.indexed.delete hl
    · rw [replay_concat, post_cancel, Function.update_apply] at hi
      split_ifs at hi
      · cases hi
      · simpa using ha.used i hi

/-- The next id is not in the ledger while ids last. -/
theorem Tracks.fresh {s : Sink} {d : Depth} (ht : Tracks s d)
    (hroom : (submitted s.out).length < UInt64.size) :
    replay s.out s.handler.nextId = none := by
  rw [← Option.not_isSome_iff_eq_none]
  intro hsome
  obtain ⟨i, hi, heq⟩ := (ht.agrees (by omega)).used _ hsome
  rw [ht.numbered.next] at heq
  have := idAt_injOn hroom (by omega) heq
  omega

theorem Tracks.openLevel {s : Sink} {d : Depth} (ht : Tracks s d) {key : LevelKey}
    {qty : Quantity} (ts : Timestamp) (hk : key ∉ s.handler.live) (hq : qty ≠ 0) :
    Tracks (s.openLevel key qty ts) (Function.update d key qty) := by
  refine ⟨⟨?_, ?_⟩, ht.grounded.concat (by simp), fun hn => ?_⟩
  · simp [Sink.openLevel, List.range_succ, ht.numbered.ids, ht.numbered.next]
  · simp [Sink.openLevel, ht.numbered.next, idAt, ← Nat.add_assoc]
  · simp only [Sink.openLevel, submitted_append, submitted_newOrder,
      List.length_append, List.length_singleton] at hn
    have ha := ht.agrees (by omega)
    have hzero := ha.indexed.index_eq_none_iff.1 (AList.lookup_eq_none.2 hk)
    refine ⟨?_, fun i hi => ?_⟩
    · simp only [Sink.openLevel, if_neg hk, lookup_insert_eq, replay_concat, post_newOrder]
      exact ha.indexed.insert (ht.fresh (by omega)) hzero hq
    · simp only [Sink.openLevel, replay_concat, post_newOrder, Function.update_apply,
        submitted_append, submitted_newOrder, List.length_append, List.length_singleton] at hi ⊢
      split_ifs at hi with heq
      · exact ⟨_, Nat.lt_succ_self _, heq.trans ht.numbered.next⟩
      · obtain ⟨j, hj, hij⟩ := ha.used i hi
        exact ⟨j, by omega, hij⟩

theorem Sink.notMem_clearLevel (s : Sink) (key : LevelKey) (ts : Timestamp) :
    key ∉ (s.clearLevel key ts).handler.live := by
  cases hl : s.handler.live.lookup key with
  | none =>
    rw [Sink.clearLevel_none ts hl]
    exact AList.lookup_eq_none.1 hl
  | some id => simp [Sink.clearLevel_some ts hl]

/-- Setting a level replaces its order. -/
theorem Tracks.applyLevel {s : Sink} {d : Depth} (ht : Tracks s d) (key : LevelKey)
    (qty : Quantity) (ts : Timestamp) :
    Tracks (s.applyLevel key qty ts) (Function.update d key qty) := by
  unfold Sink.applyLevel
  have hclear := ht.clearLevel key ts
  split_ifs with hq
  · rw [hq]
    exact hclear
  · have := hclear.openLevel ts (s.notMem_clearLevel key ts) hq
    rwa [Function.update_idem] at this

theorem mem_liveIds {live : LiveMap} {entries : List (Sigma fun _ : LevelKey => OrderId)}
    (hperm : entries.Perm live.entries) {id : OrderId} :
    id ∈ entries.map (·.2) ↔ ∃ k, live.lookup k = some id := by
  rw [List.mem_map]
  constructor
  · rintro ⟨⟨k, i⟩, hmem, rfl⟩
    exact ⟨k, AList.mem_lookup_iff.2 (hperm.mem_iff.1 hmem)⟩
  · rintro ⟨k, hk⟩
    exact ⟨⟨k, id⟩, hperm.mem_iff.2 (AList.mem_lookup_iff.1 hk), rfl⟩

theorem Agrees.liveIds_nodup {s : Sink} {d : Depth} (ha : Agrees s d)
    {entries : List (Sigma fun _ : LevelKey => OrderId)}
    (hperm : entries.Perm s.handler.live.entries) : (entries.map (·.2)).Nodup := by
  have hentries : entries.Nodup := hperm.nodup_iff.2 s.handler.live.nodupKeys.nodup
  refine hentries.map_on fun a ha' b hb hid => ?_
  have hlookup : ∀ c ∈ entries, s.handler.live.lookup c.1 = some c.2 := fun c hc =>
    AList.mem_lookup_iff.2 (hperm.mem_iff.1 hc)
  have hkey := ha.indexed.index_injective (hlookup a ha') (hid ▸ hlookup b hb)
  obtain ⟨k, i⟩ := a
  obtain ⟨k', i'⟩ := b
  cases hkey
  cases hid
  rfl

theorem Sink.resetBook_out (s : Sink) (ts : Timestamp) (iteration : Iteration) :
    (s.resetBook ts iteration).out = s.out ++
      ((iteration.1 s.handler.live.entries).map (·.2)).map
        fun id => .cancel { id, timestamp := ts } := by
  simp [resetBook]

theorem submitted_cancels (ids : List OrderId) (ts : Timestamp) :
    submitted (ids.map fun id => .cancel { id, timestamp := ts }) = [] := by
  induction ids with
  | nil => rfl
  | cons id ids ih => exact ih

/-- A reset cancels every live order, in whatever order the map is iterated. -/
theorem Tracks.resetBook {s : Sink} {d : Depth} (ht : Tracks s d) (ts : Timestamp)
    (iteration : Iteration) : Tracks (s.resetBook ts iteration) .zero := by
  have hsub : submitted (s.resetBook ts iteration).out = submitted s.out := by
    rw [Sink.resetBook_out, submitted_append, submitted_cancels, List.append_nil]
  have hperm := iteration.2 s.handler.live.entries
  have hmem : Agrees s d → ∀ id, id ∈ (iteration.1 s.handler.live.entries).map (·.2) ↔
      (replay s.out id).isSome := fun ha id => (mem_liveIds hperm).trans ha.indexed.isSome_iff.symm
  refine ⟨⟨by rw [hsub]; exact ht.numbered.ids, by rw [hsub]; exact ht.numbered.next⟩, ?_,
    fun hn => ?_⟩
  · rw [Sink.resetBook_out]
    refine ht.grounded.cancels ts fun hn => ?_
    have ha := ht.agrees hn
    exact ⟨ha.liveIds_nodup hperm, fun id => (hmem ha id).1⟩
  -- every entry of the ledger belongs to a live level, so none is left
  have hempty : replay (s.resetBook ts iteration).out = fun _ => none := by
    rw [Sink.resetBook_out, replay_cancels]
    funext id
    split_ifs with hid
    · rfl
    · rwa [hmem (ht.agrees (hsub ▸ hn)), Option.not_isSome_iff_eq_none] at hid
  refine ⟨?_, ?_⟩
  · rw [hempty]
    exact .empty
  · simp [hempty]

/-- Counters have no part in it. -/
theorem Tracks.handler {s : Sink} {d : Depth} (ht : Tracks s d) {h : FeedHandler}
    (hlive : h.live = s.handler.live) (hnext : h.nextId = s.handler.nextId) :
    Tracks { s with handler := h } d where
  numbered := ⟨ht.numbered.ids, hnext.trans ht.numbered.next⟩
  grounded := ht.grounded
  agrees hn := ⟨by rw [hlive]; exact (ht.agrees hn).indexed, (ht.agrees hn).used⟩

theorem Tracks.reject {s : Sink} {d : Depth} (ht : Tracks s d) (e : RowError) :
    Tracks (s.reject e) d := by
  apply ht.handler <;> cases e <;> rfl

/-! ## Rows and frames -/

theorem Tracks.changeRow {s : Sink} {d : Depth} (ht : Tracks s d) (conv : Conversions)
    (row : Element) (ts : Timestamp) :
    Tracks (s.consumeRow false ts (changeRow conv row)) (d.change conv row) := by
  rw [Depth.change, ← changeRow_toOption]
  cases LockfreeMatching.changeRow conv row with
  | error e => exact ht.reject e
  | ok level => simpa [Sink.consumeRow, Except.toOption] using ht.applyLevel level.1 level.2 ts

theorem Tracks.priceSizeRow {s : Sink} {d : Depth} (ht : Tracks s d) (conv : Conversions)
    (side : Side) (row : Element) (ts : Timestamp) :
    Tracks (s.consumeRow true ts (priceSizeRow conv side row)) (d.place conv side row) := by
  rw [Depth.place, ← priceSizeRow_toOption]
  cases LockfreeMatching.priceSizeRow conv side row with
  | error e => exact ht.reject e
  | ok level =>
    by_cases hq : level.2 = 0
    · simpa [Sink.consumeRow, Except.toOption, hq] using ht
    · simpa [Sink.consumeRow, Except.toOption, hq] using ht.applyLevel level.1 level.2 ts

/-- A loop over rows keeps what each row keeps. -/
theorem Tracks.foldl {f : Sink → Element → Sink} {g : Depth → Element → Depth}
    (hstep : ∀ s d row, Tracks s d → Tracks (f s row) (g d row)) (rows : List Element) {s : Sink}
    {d : Depth} (ht : Tracks s d) : Tracks (rows.foldl f s) (rows.foldl g d) := by
  induction rows generalizing s d with
  | nil => exact ht
  | cons row rows ih => exact ih (hstep s d row ht)

/-- One frame. -/
theorem Tracks.parse {s : Sink} {d : Depth} (ht : Tracks s d) (conv : Conversions)
    (a : Arrival) : Tracks (s.parse conv a).1 (d.frame conv (frameOf conv a.raw)) := by
  have hcases := s.parse_cases conv a
  cases hframe : frameOf conv a.raw with
  | update changes =>
    simp only [hframe] at hcases
    rw [hcases]
    exact Tracks.foldl (fun _ _ row h => h.changeRow conv row a.ts) changes ht
  | snapshot bids asks =>
    simp only [hframe] at hcases
    rw [hcases]
    apply Tracks.foldl fun _ _ row h => h.priceSizeRow conv .ask row a.ts
    apply Tracks.foldl fun _ _ row h => h.priceSizeRow conv .bid row a.ts
    exact ht.resetBook a.ts a.iteration
  | other =>
    simp only [hframe] at hcases
    obtain ⟨h, heq, hlive, hnext⟩ := hcases
    rw [heq]
    exact ht.handler hlive hnext

/-- Any sequence of frames. -/
theorem Tracks.run {s : Sink} {d : Depth} (ht : Tracks s d) (conv : Conversions)
    (arrivals : List Arrival) : Tracks (s.run conv arrivals) (d.run conv arrivals) := by
  induction arrivals generalizing s d with
  | nil => exact ht
  | cons a arrivals ih => exact ih (ht.parse conv a)

/-! ## Runs -/

theorem Numbered.id_eq {s : Sink} (hn : Numbered s) {i : Nat} {o : NewOrderMessage}
    (h : (submitted s.out)[i]? = some o) : o.id = idAt i := by
  obtain ⟨hi, rfl⟩ := List.getElem?_eq_some_iff.1 h
  have hids := congrArg (·[i]?) hn.ids
  simpa [hi] using hids

/-- Ids increase until the counter wraps around. -/
theorem Numbered.id_lt {s : Sink} (hn : Numbered s) {pre post : List EngineMessage}
    {o o' : NewOrderMessage} (hout : s.out = pre ++ .newOrder o :: post)
    (hlen : (submitted pre).length < 2 ^ 64 - 1) (ho' : o' ∈ submitted pre) : o'.id < o.id := by
  have hsub : submitted s.out = submitted pre ++ o :: submitted post := by
    rw [hout, List.append_cons, submitted_append, submitted_append, submitted_newOrder]
    simp
  obtain ⟨i, hi, rfl⟩ := List.mem_iff_getElem.1 ho'
  have hid : o.id = idAt (submitted pre).length := hn.id_eq (by simp [hsub])
  have hid' : (submitted pre)[i].id = idAt i := hn.id_eq (by
    rw [hsub, List.getElem?_append_left hi, List.getElem?_eq_getElem hi])
  rw [hid, hid', UInt64.lt_iff_toNat_lt]
  simp only [idAt, UInt64.toNat_ofNat']
  omega

/-- There are no more live levels than orders were placed. -/
theorem Agrees.live_length_le {s : Sink} {d : Depth} (ha : Agrees s d) :
    s.handler.live.entries.length ≤ (submitted s.out).length := by
  have hsub : s.handler.live.entries.map (·.2) ⊆
      (List.range (submitted s.out).length).map idAt := by
    intro id hid
    have hsome := ha.indexed.isSome_iff.2 ((mem_liveIds (.refl _)).1 hid)
    obtain ⟨i, hi, rfl⟩ := ha.used id hsome
    exact List.mem_map_of_mem (List.mem_range.2 hi)
  simpa using ((ha.liveIds_nodup (.refl _)).subperm hsub).length_le

/-- One live level for each entry of the ledger. -/
theorem Agrees.liveLevels {s : Sink} {d : Depth} (ha : Agrees s d)
    (hlen : (submitted s.out).length < UInt64.size) :
    s.handler.liveLevels.toNat = {id | (replay s.out id).isSome}.ncard := by
  set ids := s.handler.live.entries.map (·.2) with hids
  have hmem : ∀ id, id ∈ ids ↔ (replay s.out id).isSome := fun id =>
    (mem_liveIds (.refl _)).trans ha.indexed.isSome_iff.symm
  have hcard : {id | (replay s.out id).isSome}.ncard = ids.length := by
    have hset : {id | (replay s.out id).isSome} = (ids.toFinset : Set OrderId) := by
      ext id
      simp [← hmem]
    rw [hset, Set.ncard_coe_finset, List.toFinset_card_of_nodup (ha.liveIds_nodup (.refl _))]
  have hle := ha.live_length_le
  have hsize : UInt64.size = 2 ^ 64 := rfl
  rw [hcard, FeedHandler.liveLevels, UInt64.toNat_ofNat', Nat.mod_eq_of_lt (by omega)]
  simp [hids]

/-- The messages for any sequence of frames denote the depth that the frames describe, while no
id has been used twice. Until the counter wraps around, ids increase, cancels name entries of
the ledger, and live levels count them. -/
theorem run_denotes (conv : Conversions) (arrivals : List Arrival) :
    let s := Sink.run conv {} arrivals
    ((submitted s.out).length ≤ 2 ^ 64 →
      Denotes 0 (replay s.out) (Depth.run conv .zero arrivals)) ∧
    (∀ pre o post, s.out = pre ++ .newOrder o :: post → (submitted pre).length < 2 ^ 64 - 1 →
      ∀ o' ∈ submitted pre, o'.id < o.id) ∧
    (∀ pre c post, s.out = pre ++ .cancel c :: post → (submitted pre).length < 2 ^ 64 - 1 →
      (replay pre c.id).isSome) ∧
    ((submitted s.out).length < 2 ^ 64 - 1 →
      s.handler.liveLevels.toNat = {id | (replay s.out id).isSome}.ncard) := by
  intro s
  have ht : Tracks s (Depth.run conv .zero arrivals) := Tracks.new.run conv arrivals
  have hsize : UInt64.size = 2 ^ 64 := rfl
  refine ⟨fun hn => ?_, fun pre o post hout hn o' ho' => ?_, fun pre c post hout hn => ?_,
    fun hn => ?_⟩
  · exact (ht.agrees (by omega)).indexed.denotes
  · exact ht.numbered.id_lt hout hn ho'
  · exact ht.grounded pre c post hout (by omega)
  · exact (ht.agrees (by omega)).liveLevels (by omega)

/-! ## When the ids run out -/

theorem replay_applyLevel (s : Sink) (key : LevelKey) {qty : Quantity} (ts : Timestamp)
    (hq : qty ≠ 0) :
    replay (s.applyLevel key qty ts).out = Function.update (replay (s.clearLevel key ts).out)
      s.handler.nextId (some (key, qty)) := by
  have hnext : (s.clearLevel key ts).handler.nextId = s.handler.nextId := by
    unfold Sink.clearLevel
    split <;> rfl
  simp [Sink.applyLevel, hq, Sink.openLevel, hnext]

theorem replay_clearLevel {s : Sink} {key : LevelKey} {ts : Timestamp} {id : OrderId}
    {x : LevelKey × Quantity} (h : replay (s.clearLevel key ts).out id = some x) :
    replay s.out id = some x := by
  unfold Sink.clearLevel at h
  split at h
  · rw [replay_concat, post_cancel, Function.update_apply] at h
    split_ifs at h
    exact h
  · exact h

theorem submitted_clearLevel (s : Sink) (key : LevelKey) (ts : Timestamp) :
    submitted (s.clearLevel key ts).out = submitted s.out := by
  unfold Sink.clearLevel
  split <;> simp

/-- Every quantity but zero is an order. -/
theorem submitted_applyLevel (s : Sink) (key : LevelKey) (qty : Quantity) (ts : Timestamp) :
    (submitted (s.applyLevel key qty ts).out).length =
      (submitted s.out).length + if qty = 0 then 0 else 1 := by
  by_cases hq : qty = 0
  · simp [Sink.applyLevel, hq, submitted_clearLevel]
  · simp [Sink.applyLevel, hq, Sink.openLevel, submitted_clearLevel]

/-- A quantity for the bid level at one dollar. -/
def quoteOne : Arrival where
  raw := "\x7b\"type\":\"l2update\",\"changes\":[[\"buy\",\"1.00\",\"1\"]]\x7d"

/-- A quantity for the bid level at two dollars. -/
def quoteTwo : Arrival where
  raw := "\x7b\"type\":\"l2update\",\"changes\":[[\"buy\",\"2.00\",\"1\"]]\x7d"

def quoteRow (price : String) : Element :=
  .array [.string "buy", .string price, .string "1"]

/-- Conversions on the texts of these frames. -/
def quoteConversions : Conversions where
  parse raw :=
    if raw = quoteOne.raw then
      some (.object [("type", .string "l2update"), ("changes", .array [quoteRow "1.00"])])
    else if raw = quoteTwo.raw then
      some (.object [("type", .string "l2update"), ("changes", .array [quoteRow "2.00"])])
    else none
  ticks s := if s = "1.00" then some 100 else if s = "2.00" then some 200 else none
  lots s := if s = "1" then some 1000000 else none

theorem frameOf_quoteTwo : frameOf quoteConversions quoteTwo.raw = .update [quoteRow "2.00"] := rfl

theorem parse_quoteTwo (s : Sink) :
    (s.parse quoteConversions quoteTwo).1 = s.applyLevel ⟨200, .bid⟩ 1000000 0 := by
  have hcases := s.parse_cases quoteConversions quoteTwo
  rw [frameOf_quoteTwo] at hcases
  exact hcases

theorem depth_quoteTwo (d : Depth) (m : Nat) :
    d.run quoteConversions (List.replicate m quoteTwo) ⟨100, .bid⟩ = d ⟨100, .bid⟩ := by
  induction m generalizing d with
  | zero => rfl
  | succ m ih =>
    rw [List.replicate_succ]
    apply (ih _).trans
    have hframe : d.frame quoteConversions (frameOf quoteConversions quoteTwo.raw) =
        Function.update d ⟨200, .bid⟩ 1000000 := rfl
    apply (congrFun hframe _).trans
    apply Function.update_of_ne
    decide

/-- Requoting one level uses up ids and adds no entry for the other. -/
theorem run_quoteTwo (s : Sink) (m : Nat) :
    (submitted (s.run quoteConversions (List.replicate m quoteTwo)).out).length =
      (submitted s.out).length + m ∧
    ∀ id v, replay (s.run quoteConversions (List.replicate m quoteTwo)).out id =
      some (⟨100, .bid⟩, v) → replay s.out id = some (⟨100, .bid⟩, v) := by
  induction m generalizing s with
  | zero => exact ⟨rfl, fun _ _ h => h⟩
  | succ m ih =>
    rw [List.replicate_succ]
    obtain ⟨hlen, hreplay⟩ := ih (s.parse quoteConversions quoteTwo).1
    refine ⟨?_, fun id v h => ?_⟩
    · apply hlen.trans
      rw [parse_quoteTwo, submitted_applyLevel, if_neg (by decide)]
      omega
    · have h := hreplay id v h
      rw [parse_quoteTwo, replay_applyLevel _ _ _ (by decide), Function.update_apply] at h
      split_ifs at h
      · cases h
      · exact replay_clearLevel h

/-- The last requote takes the id of the level that was never touched. -/
theorem not_denotes_of_idAt_eq {m n : Nat} (hm : m = n + 1) (hid : idAt m = idAt 0) :
    ¬ Denotes 0 (replay (Sink.run quoteConversions {} (quoteOne :: List.replicate m quoteTwo)).out)
      (Depth.run quoteConversions .zero (quoteOne :: List.replicate m quoteTwo)) := by
  subst hm
  intro hd
  set s₁ := (Sink.parse quoteConversions {} quoteOne).1 with hs₁
  set s₂ := s₁.run quoteConversions (List.replicate n quoteTwo) with hs₂
  obtain ⟨hlen, hreplay⟩ := run_quoteTwo s₁ n
  have hout : Sink.run quoteConversions {} (quoteOne :: List.replicate (n + 1) quoteTwo) =
      s₂.applyLevel ⟨200, .bid⟩ 1000000 0 := by
    rw [← parse_quoteTwo, List.replicate_succ', hs₂]
    simp only [Sink.run, List.foldl_cons, List.foldl_append, List.foldl_nil, hs₁]
  rw [hout, replay_applyLevel _ _ _ (by decide)] at hd
  have ht₁ : Tracks s₁ _ := Tracks.new.parse quoteConversions quoteOne
  have hnum : Numbered s₂ := (ht₁.run quoteConversions (List.replicate n quoteTwo)).numbered
  have hnext : s₂.handler.nextId = idAt 0 := by
    rw [hnum.next, hlen, ← hid, Nat.add_comm]
    rfl
  -- the level at one dollar has depth, so it should have an entry
  obtain ⟨id, ⟨v, hid⟩, -⟩ := hd.entry ⟨100, .bid⟩ (by
    apply ne_of_eq_of_ne (depth_quoteTwo _ _)
    decide)
  rw [hnext, Function.update_apply] at hid
  split_ifs at hid with heq
  · cases hid
  · have hone := hreplay id v (replay_clearLevel hid)
    have hout₁ : s₁.out = [.newOrder { id := 1, price := 100, quantity := 1000000 }] := rfl
    rw [hout₁, replay, List.foldl_cons, List.foldl_nil, post_newOrder,
      Function.update_apply] at hone
    split_ifs at hone with hid₁
    exact heq hid₁

/-- After `2 ^ 64` more orders the id of a level that never changed is given out again, and its
entry is gone. -/
theorem run_reuses_live_id :
    ¬ Denotes 0
      (replay (Sink.run quoteConversions {} (quoteOne :: List.replicate (2 ^ 64) quoteTwo)).out)
      (Depth.run quoteConversions .zero (quoteOne :: List.replicate (2 ^ 64) quoteTwo)) := by
  apply not_denotes_of_idAt_eq (n := 2 ^ 64 - 1)
  · rfl
  · rfl

end LockfreeMatching
