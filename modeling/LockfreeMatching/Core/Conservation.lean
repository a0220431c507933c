import LockfreeMatching.Core.EngineRun

/-!
# Conservation of quantity

Over a run in which every `NewOrder` carries a new id, the quantity an order was submitted
with is at any time what was filled of it plus what remains resting of it. The argument is
about the reference book, one trade at a time; `Simulates` carries it to the engine.

## Main results

* `Conserved.process`: one message keeps the balance of every order submitted so far.
* `process_not_held`: an order that is not resting is not named by later fills.
* `run_conserves`: both, for runs of the engine.
-/
namespace LockfreeMatching

open MatchingEngine

/-- Total quantity of the fills that name `id`, on either side. -/
def filledOf (id : OrderId) (fills : List Fill) : Nat :=
  ((fills.filter fun f => f.aggressiveId = id ∨ f.passiveId = id).map (·.quantity.toNat)).sum

@[simp] theorem filledOf_append (id : OrderId) (a b : List Fill) :
    filledOf id (a ++ b) = filledOf id a + filledOf id b := by simp [filledOf]

theorem filledOf_eq_zero {id : OrderId} {fills : List Fill}
    (h : ∀ f ∈ fills, f.aggressiveId ≠ id ∧ f.passiveId ≠ id) : filledOf id fills = 0 := by
  have : (fills.filter fun f => f.aggressiveId = id ∨ f.passiveId = id) = [] := by
    rw [List.filter_eq_nil_iff]
    intro f hf
    simpa using h f hf
  rw [filledOf, this]
  rfl

/-- Balance of a single fill. -/
theorem filledOf_singleton (id : OrderId) (f : Fill) :
    filledOf id [f] = if f.aggressiveId = id ∨ f.passiveId = id then f.quantity.toNat else 0 := by
  by_cases h : f.aggressiveId = id ∨ f.passiveId = id <;> simp [filledOf, h]

theorem filledOf_trade (msg : NewOrderMessage) (r : Resting) (k : Quantity) (fills : List Fill)
    (id : OrderId) :
    filledOf id (fills ++ [fillOf msg (r, k)]) =
      filledOf id fills + if msg.id = id ∨ r.id = id then k.toNat else 0 := by
  rw [filledOf_append, filledOf_singleton]
  rfl

/-! ## A walk, one trade at a time -/

theorem mem_execute_of_ne {side : List Resting} {id : OrderId} (qty : Quantity) {r : Resting}
    (hr : r ∈ side) (hid : r.id ≠ id) : r ∈ execute side id qty :=
  List.mem_filterMap.2 ⟨r, hr, by simp [hid]⟩

/-- What an execution leaves: untouched orders, and the executed one with less remaining. -/
theorem mem_execute {side : List Resting} {id : OrderId} {qty : Quantity} {r : Resting}
    (h : r ∈ execute side id qty) :
    (r ∈ side ∧ r.id ≠ id) ∨
      ∃ r' ∈ side, r'.id = id ∧ ¬ r'.remaining ≤ qty ∧
        r = { r' with remaining := r'.remaining - qty } := by
  obtain ⟨r', hr', he⟩ := List.mem_filterMap.1 h
  split_ifs at he with hid hle
  · cases he
    exact .inr ⟨r', hr', hid, hle, rfl⟩
  · cases he
    exact .inl ⟨hr', hid⟩

/-- A property of sides, takes and quantity left that every trade keeps holds at the end. -/
theorem walk_induction (beyond : Int → Bool)
    {Q : List Resting → List (Resting × Quantity) → Quantity → Prop}
    (step : ∀ side takes left r, Q side takes left → r ∈ side → left ≠ 0 →
      Q (execute side r.id (min left r.remaining)) (takes ++ [(r, min left r.remaining)])
        (left - min left r.remaining)) :
    ∀ (l side : List Resting) (takes : List (Resting × Quantity)) (left : Quantity),
      (l.map (·.id)).Nodup → (∀ r ∈ l, r ∈ side) → Q side takes left →
      Q (settle side (walk beyond l left).1) (takes ++ (walk beyond l left).1)
        (walk beyond l left).2 := by
  intro l
  induction l with
  | nil =>
    intro side takes left _ _ hQ
    simpa [walk, settle] using hQ
  | cons r rs ih =>
    intro side takes left hids hmem hQ
    rw [List.map_cons, List.nodup_cons] at hids
    unfold walk
    split_ifs with hstop
    · simpa [settle] using hQ
    · have hmem' : ∀ a ∈ rs, a ∈ execute side r.id (min left r.remaining) := fun a ha =>
        mem_execute_of_ne _ (hmem a (by simp [ha])) fun he =>
          hids.1 (he ▸ List.mem_map_of_mem ha)
      have := ih _ _ _ hids.2 hmem'
        (step side takes left r hQ (hmem r (by simp)) fun h0 => hstop (.inl h0))
      simpa [settle] using this

theorem matchSide_induction {s : Side} {beyond : Int → Bool}
    {Q : List Resting → List (Resting × Quantity) → Quantity → Prop} {side : List Resting}
    {qty : Quantity} (hids : (side.map (·.id)).Nodup) (hQ : Q side [] qty)
    (step : ∀ side takes left r, Q side takes left → r ∈ side → left ≠ 0 →
      Q (execute side r.id (min left r.remaining)) (takes ++ [(r, min left r.remaining)])
        (left - min left r.remaining)) :
    Q (matchSide s beyond side qty).side (matchSide s beyond side qty).takes
      (matchSide s beyond side qty).left := by
  have hperm := List.perm_insertionSort (priority s) side
  have := walk_induction beyond step (side.insertionSort (priority s)) side [] qty
    ((hperm.map (·.id)).nodup_iff.2 hids) (fun r hr => hperm.mem_iff.1 hr) hQ
  simpa [matchSide] using this

/-! ## The balance of submitted orders -/

/-- Every order submitted so far is accounted for by its fills and its resting remainder. -/
structure Conserved (sub : List NewOrderMessage) (ref : RefBook) (fills : List Fill) : Prop where
  ids : ∀ s, ((ref s).map (·.id)).Nodup
  sides : ∀ r ∈ ref .bid, ∀ r' ∈ ref .ask, r.id ≠ r'.id
  isOpen : ∀ s, ∀ r ∈ ref s, 0 < r.remaining
  resting : ∀ s, ∀ r ∈ ref s, ∃ m ∈ sub, m.id = r.id ∧
    r.remaining.toNat + filledOf r.id fills = m.quantity.toNat
  bound : ∀ m ∈ sub, filledOf m.id fills ≤ m.quantity.toNat
  named : ∀ f ∈ fills, (∃ m ∈ sub, m.id = f.aggressiveId) ∧ ∃ m ∈ sub, m.id = f.passiveId
  pos : ∀ f ∈ fills, 0 < f.quantity

namespace Conserved

variable {sub : List NewOrderMessage} {ref : RefBook} {fills : List Fill}

theorem new : Conserved [] .empty [] where
  ids := by simp [RefBook.empty]
  sides := by simp [RefBook.empty]
  isOpen := by simp [RefBook.empty]
  resting := by simp [RefBook.empty]
  bound := by simp
  named := by simp
  pos := by simp

/-- An id is carried by one resting order only. -/
theorem entry_unique (hc : Conserved sub ref fills) {s t : Side} {r r' : Resting}
    (hr : r ∈ ref s) (hr' : r' ∈ ref t) (hid : r.id = r'.id) : s = t ∧ r = r' :=
  RefBook.entry_unique hc.ids hc.sides hr hr' hid

/-- Fewer resting orders are accounted for too. -/
theorem shrink (hc : Conserved sub ref fills) {ref' : RefBook}
    (h : ∀ s, (ref' s).Sublist (ref s)) : Conserved sub ref' fills where
  ids s := (hc.ids s).sublist ((h s).map _)
  sides r hr r' hr' := hc.sides r ((h _).mem hr) r' ((h _).mem hr')
  isOpen s r hr := hc.isOpen s r ((h s).mem hr)
  resting s r hr := hc.resting s r ((h s).mem hr)
  bound := hc.bound
  named := hc.named
  pos := hc.pos

theorem filledOf_fresh (hc : Conserved sub ref fills) {id : OrderId}
    (hid : ∀ m ∈ sub, m.id ≠ id) : filledOf id fills = 0 := by
  refine filledOf_eq_zero fun f hf => ?_
  obtain ⟨⟨a, ha, ha'⟩, ⟨b, hb, hb'⟩⟩ := hc.named f hf
  exact ⟨ha' ▸ hid a ha, hb' ▸ hid b hb⟩

/-- An order with a new id starts with an empty account. -/
theorem submit (hc : Conserved sub ref fills) {msg : NewOrderMessage}
    (hid : ∀ m ∈ sub, m.id ≠ msg.id) : Conserved (sub ++ [msg]) ref fills where
  ids := hc.ids
  sides := hc.sides
  isOpen := hc.isOpen
  resting s r hr := by
    obtain ⟨m, hm, h⟩ := hc.resting s r hr
    exact ⟨m, by simp [hm], h⟩
  bound m hm := by
    rcases List.mem_append.1 hm with hm | hm
    · exact hc.bound m hm
    · obtain rfl := List.mem_singleton.1 hm
      rw [hc.filledOf_fresh hid]
      exact Nat.zero_le _
  named f hf := by
    obtain ⟨⟨a, ha, ha'⟩, ⟨b, hb, hb'⟩⟩ := hc.named f hf
    exact ⟨⟨a, by simp [ha], ha'⟩, ⟨b, by simp [hb], hb'⟩⟩
  pos := hc.pos

/-- A message in the middle of being matched: what was filled of it and what is left of it
make up its quantity, and it does not rest yet. -/
structure Trading (sub : List NewOrderMessage) (msg : NewOrderMessage) (ref : RefBook)
    (fills : List Fill) (left : Quantity) : Prop extends Conserved sub ref fills where
  submitted : msg ∈ sub
  distinct : (sub.map (·.id)).Nodup
  absent : ¬ ref.holds msg.id
  balance : filledOf msg.id fills + left.toNat = msg.quantity.toNat

/-- One trade moves its quantity from both parties' remainders to their fills. -/
theorem Trading.trade {msg : NewOrderMessage} {left : Quantity}
    (ht : Trading sub msg ref fills left) {s : Side} {r : Resting} (hr : r ∈ ref s)
    (hleft : left ≠ 0) :
    Trading sub msg (Function.update ref s (execute (ref s) r.id (min left r.remaining)))
      (fills ++ [fillOf msg (r, min left r.remaining)]) (left - min left r.remaining) := by
  have hopen := ht.isOpen s r hr
  have hmin : min left r.remaining = if left ≤ r.remaining then left else r.remaining := rfl
  have hk : 0 < min left r.remaining ∧ (min left r.remaining).toNat ≤ left.toNat ∧
      (min left r.remaining).toNat ≤ r.remaining.toNat := by
    have h0 : 0 < left := by grind
    rw [hmin]
    split_ifs with hle
    · exact ⟨h0, le_refl _, UInt32.le_iff_toNat_le.1 hle⟩
    · exact ⟨hopen, by have := UInt32.lt_iff_toNat_lt.1 (UInt32.not_le.1 hle); omega, le_refl _⟩
  generalize min left r.remaining = k at hk ⊢
  obtain ⟨hkpos, hkleft, hkr⟩ := hk
  have hrm : r.id ≠ msg.id := fun he => ht.absent ⟨s, r, hr, he⟩
  have hfill := filledOf_trade msg r k fills
  -- entries after the trade, each with the entry it came from
  have hmem : ∀ t, ∀ a ∈ Function.update ref s (execute (ref s) r.id k) t,
      (a ∈ ref t ∧ a.id ≠ r.id) ∨
        (t = s ∧ ¬ r.remaining ≤ k ∧ a = { r with remaining := r.remaining - k }) := by
    intro t a ha
    by_cases hts : t = s
    · subst hts
      rw [Function.update_self] at ha
      rcases mem_execute ha with h | ⟨r', hr', hid, hle, rfl⟩
      · exact .inl h
      · obtain ⟨-, rfl⟩ := ht.entry_unique hr' hr hid
        exact .inr ⟨rfl, hle, rfl⟩
    · rw [Function.update_of_ne hts] at ha
      exact .inl ⟨ha, fun hid => hts (ht.entry_unique ha hr hid).1⟩
  have hids := execute_ids (ref s) r.id k
  refine ⟨⟨fun t => RefBook.ids_update ht.ids hids, RefBook.sides_update ht.sides hids,
    fun t a ha => ?_, fun t a ha => ?_, fun m hm => ?_, fun f hf => ?_, fun f hf => ?_⟩,
    ht.submitted, ht.distinct, ?_, ?_⟩
  · rcases hmem t a ha with ⟨h, -⟩ | ⟨rfl, hle, rfl⟩
    · exact ht.isOpen t a h
    · have := UInt32.not_le.1 hle
      grind
  · rcases hmem t a ha with ⟨h, hne⟩ | ⟨rfl, hle, rfl⟩
    · have hne' : msg.id ≠ a.id := fun he => ht.absent ⟨t, a, h, he.symm⟩
      obtain ⟨m, hm, hid, hbal⟩ := ht.resting t a h
      refine ⟨m, hm, hid, ?_⟩
      rw [hfill, if_neg (by tauto)]
      omega
    · obtain ⟨m, hm, hid, hbal⟩ := ht.resting t r hr
      have hsub : (r.remaining - k).toNat = r.remaining.toNat - k.toNat :=
        UInt32.toNat_sub_of_le _ _ (UInt32.le_iff_toNat_le.2 hkr)
      refine ⟨m, hm, hid, ?_⟩
      change (r.remaining - k).toNat + filledOf r.id _ = _
      rw [hfill, if_pos (.inr rfl), hsub]
      omega
  · rw [hfill]
    have hbound := ht.bound m hm
    by_cases hmm : msg.id = m.id
    · obtain rfl : msg = m := List.inj_on_of_nodup_map ht.distinct ht.submitted hm hmm
      have := ht.balance
      rw [if_pos (.inl rfl)]
      omega
    · by_cases hmr : r.id = m.id
      · obtain ⟨m', hm', hid, hbal⟩ := ht.resting s r hr
        obtain rfl : m' = m := List.inj_on_of_nodup_map ht.distinct hm' hm (hid.trans hmr)
        rw [if_pos (.inr hmr), ← hmr]
        omega
      · rw [if_neg (by tauto)]
        omega
  · rcases List.mem_append.1 hf with hf | hf
    · exact ht.named f hf
    · obtain rfl := List.mem_singleton.1 hf
      obtain ⟨m, hm, hid, -⟩ := ht.resting s r hr
      exact ⟨⟨msg, ht.submitted, rfl⟩, ⟨m, hm, hid⟩⟩
  · rcases List.mem_append.1 hf with hf | hf
    · exact ht.pos f hf
    · obtain rfl := List.mem_singleton.1 hf
      exact hkpos
  · rintro ⟨t, a, ha, hid⟩
    obtain ⟨a', ha', hae⟩ := RefBook.mem_update_ids hids ha
    exact ht.absent ⟨t, a', ha', hae.trans hid⟩
  · have hsub : (left - k).toNat = left.toNat - k.toNat :=
      UInt32.toNat_sub_of_le _ _ (UInt32.le_iff_toNat_le.2 hkleft)
    have := ht.balance
    rw [hfill, if_pos (.inl rfl), hsub]
    omega

/-- Matching a whole message against the opposite side. -/
theorem Trading.matchSide {msg : NewOrderMessage} {qty : Quantity}
    (ht : Trading sub msg ref fills qty) (s : Side) (beyond : Int → Bool) :
    Trading sub msg
      (Function.update ref s (LockfreeMatching.matchSide s beyond (ref s) qty).side)
      (fills ++ (LockfreeMatching.matchSide s beyond (ref s) qty).takes.map (fillOf msg))
      (LockfreeMatching.matchSide s beyond (ref s) qty).left := by
  refine matchSide_induction (Q := fun side takes left =>
    Trading sub msg (Function.update ref s side) (fills ++ takes.map (fillOf msg)) left)
    (ht.ids s) ?_ ?_
  · simpa using ht
  · intro side takes left r hq hr hleft
    have := hq.trade (s := s) (r := r) (by simpa using hr) hleft
    simpa using this

/-- Resting what is left closes the account of the message. -/
theorem Trading.rest {msg : NewOrderMessage} {left : Quantity}
    (ht : Trading sub msg ref fills left) : Conserved sub (ref.rest msg left) fills := by
  unfold RefBook.rest
  split_ifs with hrest
  · obtain ⟨-, hpos, -, -⟩ := hrest
    refine ⟨fun t => RefBook.ids_append ht.ids ht.absent, RefBook.sides_append ht.sides ht.absent,
      fun t a ha => ?_, fun t a ha => ?_, ht.bound, ht.named, ht.pos⟩
    · rcases RefBook.mem_append.1 ha with ha | ⟨-, rfl⟩
      exacts [ht.isOpen t a ha, hpos]
    · rcases RefBook.mem_append.1 ha with ha | ⟨-, rfl⟩
      · exact ht.resting t a ha
      · refine ⟨msg, ht.submitted, rfl, ?_⟩
        have := ht.balance
        change left.toNat + filledOf msg.id fills = _
        omega
  · exact ht.toConserved

end Conserved

/-! ## Messages and runs of the reference -/

theorem cancel_sublist (ref : RefBook) (id : OrderId) (s : Side) :
    (ref.cancel id s).Sublist (ref s) := List.filter_sublist

theorem not_holds_cancel (ref : RefBook) (id : OrderId) : ¬ (ref.cancel id).holds id := by
  rintro ⟨s, r, hr, hid⟩
  simp only [RefBook.cancel, List.mem_filter, decide_eq_true_eq] at hr
  exact hr.2 hid

/-- A message with a new id starts out with nothing filled and all of it left. -/
theorem Conserved.trading {sub : List NewOrderMessage} {ref : RefBook} {fills : List Fill}
    (hc : Conserved sub ref fills) {m : NewOrderMessage}
    (hids : ((sub ++ [m]).map (·.id)).Nodup) :
    Conserved.Trading (sub ++ [m]) m ref fills m.quantity := by
  have hnew : ∀ a ∈ sub, a.id ≠ m.id := by
    rw [List.map_append, List.nodup_append] at hids
    intro a ha
    exact hids.2.2 a.id (List.mem_map_of_mem ha) m.id (by simp)
  have habsent : ¬ ref.holds m.id := by
    rintro ⟨s, r, hr, hid⟩
    obtain ⟨a, ha, ha', -⟩ := hc.resting s r hr
    exact hnew a ha (ha'.trans hid)
  exact ⟨hc.submit hnew, by simp, hids, habsent, by rw [hc.filledOf_fresh hnew]; omega⟩

/-- One message keeps the accounts of all orders submitted so far, its own included. -/
theorem Conserved.process {sub : List NewOrderMessage} {ref : RefBook} {fills : List Fill}
    (hc : Conserved sub ref fills) (msg : EngineMessage)
    (hids : ((sub ++ submitted [msg]).map (·.id)).Nodup) :
    Conserved (sub ++ submitted [msg]) (ref.process msg).1 (fills ++ (ref.process msg).2) := by
  cases msg with
  | cancel c => simpa [submitted, RefBook.process] using hc.shrink (cancel_sublist ref c.id)
  | newOrder m =>
    have ht : Conserved.Trading (sub ++ [m]) m ref fills m.quantity := hc.trading hids
    change Conserved (sub ++ [m]) (ref.newOrder m).1 (fills ++ (ref.newOrder m).2)
    unfold RefBook.newOrder
    split_ifs with hign
    · simpa using ht.toConserved
    · exact (ht.matchSide m.side.opposite (beyondLimit m)).rest

/-- Matching neither names nor brings back an id the side does not hold. -/
theorem matchSide_not_held (s : Side) (beyond : Int → Bool) {side : List Resting}
    (qty : Quantity) {id : OrderId} (hids : (side.map (·.id)).Nodup)
    (hid : ∀ r ∈ side, r.id ≠ id) :
    (∀ r ∈ (matchSide s beyond side qty).side, r.id ≠ id) ∧
      ∀ t ∈ (matchSide s beyond side qty).takes, t.1.id ≠ id := by
  refine matchSide_induction (Q := fun side takes _ => (∀ r ∈ side, r.id ≠ id) ∧
    ∀ t ∈ takes, (t : Resting × Quantity).1.id ≠ id) hids ⟨hid, by simp⟩ ?_
  rintro side takes left r ⟨hside, htakes⟩ hr -
  refine ⟨fun a ha he => ?_, fun t ht => ?_⟩
  · have hids := (execute_ids side r.id _).subset (List.mem_map_of_mem ha)
    obtain ⟨a', ha', hae⟩ := List.mem_map.1 hids
    exact hside a' ha' (hae.trans he)
  · rcases List.mem_append.1 ht with ht | ht
    · exact htakes t ht
    · rw [List.mem_singleton.1 ht]
      exact hside r hr

theorem update_not_holds {ref : RefBook} {id : OrderId} (hid : ¬ ref.holds id) {s : Side}
    {side : List Resting} (hside : ∀ r ∈ side, r.id ≠ id) :
    ¬ RefBook.holds (Function.update ref s side) id := by
  rintro ⟨t, r, hr, he⟩
  by_cases hts : t = s
  · subst hts
    rw [Function.update_self] at hr
    exact hside r hr he
  · rw [Function.update_of_ne hts] at hr
    exact hid ⟨t, r, hr, he⟩

theorem rest_not_holds {ref : RefBook} {id : OrderId} (hid : ¬ ref.holds id)
    {msg : NewOrderMessage} (hmsg : msg.id ≠ id) (left : Quantity) :
    ¬ (ref.rest msg left).holds id := by
  unfold RefBook.rest
  split_ifs
  · rintro ⟨t, r, hr, he⟩
    rcases RefBook.mem_append.1 hr with hr | ⟨-, rfl⟩
    · exact hid ⟨t, r, hr, he⟩
    · exact hmsg he
  · exact hid

/-- An order that is not resting is not named by the fills of other orders' messages, and
does not come back. -/
theorem process_not_held {ref : RefBook} {id : OrderId} (hids : ∀ s, ((ref s).map (·.id)).Nodup)
    (hid : ¬ ref.holds id) {msg : EngineMessage} (hmsg : ∀ m ∈ submitted [msg], m.id ≠ id) :
    (∀ f ∈ (ref.process msg).2, f.aggressiveId ≠ id ∧ f.passiveId ≠ id) ∧
      ¬ (ref.process msg).1.holds id := by
  cases msg with
  | cancel c =>
    refine ⟨by simp [RefBook.process], ?_⟩
    rintro ⟨s, r, hr, he⟩
    exact hid ⟨s, r, (cancel_sublist ref c.id s).mem hr, he⟩
  | newOrder m =>
    have hm : m.id ≠ id := hmsg m (by simp [submitted])
    change (∀ f ∈ (ref.newOrder m).2, _) ∧ ¬ (ref.newOrder m).1.holds id
    unfold RefBook.newOrder
    split_ifs with hign
    · exact ⟨by simp, hid⟩
    · obtain ⟨hside, htakes⟩ := matchSide_not_held m.side.opposite (beyondLimit m)
        m.quantity (hids m.side.opposite) fun r hr he => hid ⟨_, r, hr, he⟩
      refine ⟨fun f hf => ?_, rest_not_holds (update_not_holds hid hside) hm _⟩
      obtain ⟨t, ht, rfl⟩ := List.mem_map.1 hf
      exact ⟨hm, htakes t ht⟩

/-- Run the reference and collect all fills. -/
def RefBook.trace (ref : RefBook) : List EngineMessage → RefBook × List Fill
  | [] => (ref, [])
  | msg :: msgs =>
    let r := RefBook.trace (ref.process msg).1 msgs
    (r.1, (ref.process msg).2 ++ r.2)

theorem RefBook.trace_append (ref : RefBook) (a b : List EngineMessage) :
    ref.trace (a ++ b) =
      ((RefBook.trace (ref.trace a).1 b).1,
        (ref.trace a).2 ++ (RefBook.trace (ref.trace a).1 b).2) := by
  induction a generalizing ref with
  | nil => rfl
  | cons msg a ih => simp [RefBook.trace, ih]

theorem submitted_cons (sub : List NewOrderMessage) (msg : EngineMessage)
    (msgs : List EngineMessage) :
    sub ++ submitted (msg :: msgs) = sub ++ submitted [msg] ++ submitted msgs := by
  rw [List.append_assoc, ← submitted_append]
  rfl

theorem nodup_ids_left {a b : List NewOrderMessage} (h : ((a ++ b).map (·.id)).Nodup) :
    (a.map (·.id)).Nodup := by
  rw [List.map_append] at h
  exact (List.nodup_append.1 h).1

theorem Conserved.trace {sub : List NewOrderMessage} {ref : RefBook} {fills : List Fill}
    (hc : Conserved sub ref fills) (msgs : List EngineMessage)
    (hids : ((sub ++ submitted msgs).map (·.id)).Nodup) :
    Conserved (sub ++ submitted msgs) (ref.trace msgs).1 (fills ++ (ref.trace msgs).2) := by
  induction msgs generalizing sub ref fills with
  | nil => simpa [submitted, RefBook.trace] using hc
  | cons msg msgs ih =>
    rw [submitted_cons] at hids ⊢
    have := ih (hc.process msg (nodup_ids_left hids)) hids
    simpa [RefBook.trace] using this

/-- After an order stopped resting, no later fill names it. -/
theorem trace_not_held {sub : List NewOrderMessage} {ref : RefBook} {fills : List Fill}
    {id : OrderId} (hc : Conserved sub ref fills) (hid : ¬ ref.holds id)
    (hsub : ∃ m ∈ sub, m.id = id) (msgs : List EngineMessage)
    (hids : ((sub ++ submitted msgs).map (·.id)).Nodup) :
    (∀ f ∈ (ref.trace msgs).2, f.aggressiveId ≠ id ∧ f.passiveId ≠ id) ∧
      ¬ (ref.trace msgs).1.holds id := by
  induction msgs generalizing sub ref fills with
  | nil => exact ⟨by simp [RefBook.trace], hid⟩
  | cons msg msgs ih =>
    rw [submitted_cons] at hids
    have hfirst := nodup_ids_left hids
    obtain ⟨m, hm, rfl⟩ := hsub
    have hother : ∀ a ∈ submitted [msg], a.id ≠ m.id := by
      rw [List.map_append, List.nodup_append] at hfirst
      intro a ha he
      exact hfirst.2.2 m.id (List.mem_map_of_mem hm) a.id (List.mem_map_of_mem ha) he.symm
    obtain ⟨hfills, hid'⟩ := process_not_held hc.ids hid hother
    obtain ⟨hrest, hend⟩ := ih (hc.process msg hfirst) hid' ⟨m, by simp [hm], rfl⟩ hids
    refine ⟨fun f hf => ?_, hend⟩
    rcases List.mem_append.1 hf with hf | hf
    exacts [hfills f hf, hrest f hf]

/-! ## Runs of the engine -/

/-- Run the engine and collect everything `process` returned. -/
def MatchingEngine.trace (e : MatchingEngine) : List EngineMessage →
    Option (MatchingEngine × List Fill)
  | [] => some (e, [])
  | msg :: msgs => (e.process msg).bind fun e' =>
    (MatchingEngine.trace e' msgs).map fun r => (r.1, e'.fills ++ r.2)

theorem Simulates.trace {e : MatchingEngine} {ref : RefBook} (hsim : Simulates e ref)
    (msgs : List EngineMessage) :
    ∃ e', e.trace msgs = some (e', (ref.trace msgs).2) ∧ Simulates e' (ref.trace msgs).1 := by
  induction msgs generalizing e ref with
  | nil => exact ⟨e, rfl, hsim⟩
  | cons msg msgs ih =>
    obtain ⟨e₁, hstep, hfills, hsim₁⟩ := process_simulates hsim msg
    obtain ⟨e', htrace, hsim'⟩ := ih hsim₁
    exact ⟨e', by simp [MatchingEngine.trace, hstep, htrace, hfills, RefBook.trace], hsim'⟩

/-- The order of `m`, submitted somewhere in `msgs`, is done: all of it was filled, or it was
cancelled, or its own message did not leave it resting. -/
inductive Finished (msgs : List EngineMessage) (fills : List Fill) (m : NewOrderMessage) :
    Prop where
  | filled : filledOf m.id fills = m.quantity.toNat → Finished msgs fills m
  | cancelled (pre post : List EngineMessage) (c : CancelMessage) :
      msgs = pre ++ .cancel c :: post → .newOrder m ∈ pre → c.id = m.id → Finished msgs fills m
  | notResting (pre post : List EngineMessage) (e : MatchingEngine) (past : List Fill) :
      msgs = pre ++ .newOrder m :: post → new.trace (pre ++ [.newOrder m]) = some (e, past) →
      e.book.getOrder m.id = none → Finished msgs fills m

/-- Orders that are done do not rest. -/
theorem Finished.not_holds {msgs : List EngineMessage} {m : NewOrderMessage}
    (hids : ((submitted msgs).map (·.id)).Nodup) (hm : .newOrder m ∈ msgs)
    (hf : Finished msgs (RefBook.trace .empty msgs).2 m) :
    ¬ (RefBook.trace .empty msgs).1.holds m.id := by
  -- once the order does not rest after a prefix, it does not rest at the end
  have hprefix : ∀ pre post, msgs = pre ++ post → .newOrder m ∈ pre →
      ¬ (RefBook.trace .empty pre).1.holds m.id → ¬ (RefBook.trace .empty msgs).1.holds m.id := by
    rintro pre post rfl hpre hid
    rw [submitted_append] at hids
    have hc := Conserved.new.trace pre (by simpa using nodup_ids_left hids)
    rw [RefBook.trace_append]
    exact (trace_not_held hc hid ⟨m, by simpa using mem_submitted.2 hpre, rfl⟩ post
      (by simpa using hids)).2
  cases hf with
  | filled hfull =>
    have hc := Conserved.new.trace msgs (by simpa using hids)
    simp only [List.nil_append] at hc
    rintro ⟨s, r, hr, hid⟩
    obtain ⟨a, ha, haid, hbal⟩ := hc.resting s r hr
    obtain rfl : a = m :=
      List.inj_on_of_nodup_map hids ha (mem_submitted.2 hm) (haid.trans hid)
    have := UInt32.lt_iff_toNat_lt.1 (hc.isOpen s r hr)
    rw [hid, hfull] at hbal
    simp only [UInt32.toNat_zero] at this
    omega
  | cancelled pre post c heq hpre hcid =>
    refine hprefix (pre ++ [.cancel c]) post (by simp [heq]) (by simp [hpre]) ?_
    rw [RefBook.trace_append, ← hcid]
    exact not_holds_cancel _ _
  | notResting pre post e past heq htrace hnone =>
    refine hprefix (pre ++ [.newOrder m]) post (by simp [heq]) (by simp) ?_
    obtain ⟨e', htrace', hsim⟩ := Simulates.new.trace (pre ++ [.newOrder m])
    obtain ⟨rfl, -⟩ := Prod.mk.inj (Option.some.inj (htrace.symm.trans htrace'))
    exact (hsim.shows.lookup m.id).1 hnone

/-- Over any run with distinct order ids, and any continuation of it: fills are positive, an
order's fills never exceed its quantity, a resting order has exactly the rest remaining, and
an order that is done is not named again. -/
theorem run_conserves (msgs later : List EngineMessage)
    (hids : ((submitted (msgs ++ later)).map (·.id)).Nodup) :
    ∃ e fills e' fills', new.trace msgs = some (e, fills) ∧
      e.trace later = some (e', fills') ∧ (∀ f ∈ fills, 1 ≤ f.quantity) ∧
      ∀ m, .newOrder m ∈ msgs →
        filledOf m.id fills ≤ m.quantity.toNat ∧
        (∀ p x, LinkedAt e.heap e.book p x → (e.heap.order x).id = m.id →
          (e.heap.order x).remainingQuantity.toNat =
            m.quantity.toNat - filledOf m.id fills) ∧
        (Finished msgs fills m →
          ∀ f ∈ fills', f.aggressiveId ≠ m.id ∧ f.passiveId ≠ m.id) := by
  obtain ⟨e, htrace, hsim⟩ := Simulates.new.trace msgs
  obtain ⟨e', htrace', -⟩ := hsim.trace later
  rw [submitted_append] at hids
  have hfirst := nodup_ids_left hids
  have hc := Conserved.new.trace msgs (by simpa using hfirst)
  simp only [List.nil_append] at hc
  refine ⟨e, _, e', _, htrace, htrace', fun f hf => ?_, fun m hm => ⟨?_, ?_, ?_⟩⟩
  · have := hc.pos f hf
    grind
  · exact hc.bound m (mem_submitted.2 hm)
  · intro p x hx hid
    obtain ⟨q, free, he, hv⟩ := hsim
    have hr := hv.mem he.rep (he.rep.linkedAt_iff.1 hx)
    obtain ⟨a, ha, haid, hbal⟩ := hc.resting _ _ hr
    obtain rfl : a = m :=
      List.inj_on_of_nodup_map hfirst ha (mem_submitted.2 hm) (haid.trans hid)
    rw [show (restingOf (e.heap.order x)).id = a.id from hid] at hbal
    simp only [restingOf] at hbal
    omega
  · intro hf
    exact (trace_not_held hc (hf.not_holds hfirst hm) ⟨m, mem_submitted.2 hm, rfl⟩ later hids).1

/-- An ask for 10, partly filled by a bid for 4 and then cancelled. -/
def partialThenCancelled : List EngineMessage :=
  [.newOrder { id := 1, side := .ask, price := 100, quantity := 10 },
    .newOrder { id := 2, side := .bid, price := 100, quantity := 4 },
    .cancel { id := 1 }]

theorem run_conserves_partialThenCancelled :
    ((submitted partialThenCancelled).map (·.id)).Nodup ∧
      ∃ e fills e' fills', new.trace partialThenCancelled = some (e, fills) ∧
        e.trace [.newOrder { id := 3, type := .market, quantity := 6 }] = some (e', fills') ∧
        filledOf 1 fills ≤ 10 ∧ ∀ f ∈ fills', f.aggressiveId ≠ 1 ∧ f.passiveId ≠ 1 := by
  refine ⟨by decide, ?_⟩
  obtain ⟨e, fills, e', fills', htrace, htrace', -, horder⟩ := run_conserves partialThenCancelled
    [.newOrder { id := 3, type := .market, quantity := 6 }] (by decide)
  obtain ⟨hbound, -, hdone⟩ := horder { id := 1, side := .ask, price := 100, quantity := 10 }
    (by simp [partialThenCancelled])
  refine ⟨e, fills, e', fills', htrace, htrace', hbound, hdone ?_⟩
  exact .cancelled (partialThenCancelled.take 2) [] { id := 1 } rfl
    (by simp [partialThenCancelled]) rfl

end LockfreeMatching
