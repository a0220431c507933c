import LockfreeMatching.Bench.MapBookEngine
import LockfreeMatching.Core.Outcome

/-!
# The flat-array engine and the baseline agree

Both engines are compared with the reference book. `MapRep m ref` says that the level lists
of the baseline are the orders of `ref` at each price, that the index locates exactly these
orders, and that iterators tell nodes apart. Read level by level, such a book is the
reference side sorted by priority (`MapRep.orders_eq`), so that each execution of the
baseline is one `matchSide_step` too.

## Main results

* `MapRep.remove`, `MapRep.reduce`, `MapRep.rest`: the three kinds of change.
* `handleNewOrder_refines`, `handleCancel_refines`: one message.
* `run_agrees`: fill counts and books agree after every message.
-/
namespace LockfreeMatching

open Lib

/-! ## Representation -/

/-- What the reference book remembers of a node at price `p`. -/
def restingAt (p : Int) (o : RestingOrder) : Resting where
  id := o.id
  price := p
  remaining := o.qty

structure MapRep (m : MapBookEngine) (ref : RefBook) : Prop where
  queue : ∀ s p, (m.queue s p).map (restingAt p) = (ref s).filter (·.price = p)
  index : ∀ id loc, m.index id = some loc ↔
    ∃ o ∈ m.queue loc.side loc.price, o.node = loc.it ∧ o.id = id
  nodes : ∀ s p, ((m.queue s p).map (·.node)).Nodup
  fresh : ∀ s p, ∀ o ∈ m.queue s p, o.node < m.nextNode
  ids : ∀ s, ((ref s).map (·.id)).Nodup
  sides : ∀ r ∈ ref .bid, ∀ r' ∈ ref .ask, r.id ≠ r'.id

/-- No level of side `s` is empty. -/
def Packed (m : MapBookEngine) (s : Side) : Prop := ∀ l ∈ (m.book s).entries, l.2 ≠ []

theorem MapRep.new : MapRep {} .empty where
  queue s p := by cases s <;> rfl
  index id loc := by cases loc with | mk s p it => cases s <;> simp [MapBookEngine.queue,
    MapBookEngine.book]
  nodes s p := by cases s <;> simp [MapBookEngine.queue, MapBookEngine.book]
  fresh s p := by cases s <;> simp [MapBookEngine.queue, MapBookEngine.book]
  ids := by simp [RefBook.empty]
  sides := by simp [RefBook.empty]

/-- The orders of one side, best level first. -/
def MapBookEngine.orders (m : MapBookEngine) (s : Side) : List Resting :=
  (m.book s).entries.flatMap fun l => l.2.map (restingAt l.1)

theorem filter_flatMap_levels {s : Side} {l : List (Int × Level)}
    (hl : l.Pairwise fun a b => ahead s a.1 b.1) (p : Int) :
    (l.flatMap fun a => a.2.map (restingAt a.1)).filter (·.price = p) =
      (((l.find? (·.1 = p)).map (·.2)).getD []).map (restingAt p) := by
  induction l with
  | nil => rfl
  | cons a l ih =>
    obtain ⟨ha, hl⟩ := List.pairwise_cons.1 hl
    rw [List.flatMap_cons, List.filter_append, ih hl]
    by_cases hp : a.1 = p
    · -- the level itself, and no other one
      have hnone : l.find? (·.1 = p) = none := by
        rw [List.find?_eq_none]
        intro b hb hbp
        rw [decide_eq_true_eq] at hbp
        have := ha b hb
        rw [hp, hbp] at this
        exact Std.Irrefl.irrefl p this
      subst hp
      simp [hnone, restingAt]
    · simp [hp, restingAt]

theorem pairwise_flatMap_levels {s : Side} {l : List (Int × Level)}
    (hl : l.Pairwise fun a b => ahead s a.1 b.1) :
    (l.flatMap fun a => a.2.map (restingAt a.1)).Pairwise (priority s) := by
  induction l with
  | nil => exact List.Pairwise.nil
  | cons a l ih =>
    obtain ⟨ha, hl⟩ := List.pairwise_cons.1 hl
    rw [List.flatMap_cons, List.pairwise_append]
    refine ⟨?_, ih hl, ?_⟩
    · refine List.pairwise_of_forall_mem_list fun r hr r' hr' => ?_
      obtain ⟨o, -, rfl⟩ := List.mem_map.1 hr
      obtain ⟨o', -, rfl⟩ := List.mem_map.1 hr'
      exact before_refl s a.1
    · intro r hr r' hr'
      obtain ⟨o, -, rfl⟩ := List.mem_map.1 hr
      obtain ⟨b, hb, hr'⟩ := List.mem_flatMap.1 hr'
      obtain ⟨o', -, rfl⟩ := List.mem_map.1 hr'
      have := ha b hb
      cases s <;> simp only [ahead] at this <;> simp only [priority, before, restingAt] <;> omega

namespace MapRep

variable {m : MapBookEngine} {ref : RefBook}

/-- Level by level the book is the reference side, sorted by priority. -/
theorem orders_eq (hr : MapRep m ref) (s : Side) :
    m.orders s = (ref s).insertionSort (priority s) := by
  refine eq_of_filter_key (r := priority s) Resting.price (fun a b h h' => before_antisymm h h')
    (pairwise_flatMap_levels (m.book s).sorted)
    (List.pairwise_insertionSort (priority s) (ref s)) fun p => ?_
  rw [MapBookEngine.orders, filter_flatMap_levels (m.book s).sorted p,
    filter_insertionSort_of_equiv]
  · exact hr.queue s p
  · intro a _ b _ ha hb
    rw [decide_eq_true_eq] at ha hb
    simp only [priority, ha, hb]
    exact before_refl s p

theorem length_eq (hr : MapRep m ref) (s : Side) :
    (((m.book s).entries.map (·.2.length)).sum) = (ref s).length := by
  have := congrArg List.length (hr.orders_eq s)
  rw [List.length_insertionSort] at this
  rw [← this, MapBookEngine.orders, List.length_flatMap]
  simp

theorem size_eq (hr : MapRep m ref) : m.size = ref.size := by
  rw [MapBookEngine.size, RefBook.size, ← hr.length_eq .bid, ← hr.length_eq .ask]
  rfl

theorem mem (hr : MapRep m ref) {s : Side} {p : Int} {o : RestingOrder} (ho : o ∈ m.queue s p) :
    restingAt p o ∈ ref s := by
  have : restingAt p o ∈ (ref s).filter (·.price = p) := by
    rw [← hr.queue s p]
    exact List.mem_map_of_mem ho
  exact List.mem_of_mem_filter this

theorem exists_mem (hr : MapRep m ref) {s : Side} {r : Resting} (h : r ∈ ref s) :
    ∃ o ∈ m.queue s r.price, restingAt r.price o = r := by
  have : r ∈ (m.queue s r.price).map (restingAt r.price) := by
    rw [hr.queue]
    simp [h]
  exact List.mem_map.1 this

/-- An id occurs once in the levels. -/
theorem unique (hr : MapRep m ref) {s t : Side} {p r : Int} {o o' : RestingOrder}
    (ho : o ∈ m.queue s p) (ho' : o' ∈ m.queue t r) (hid : o.id = o'.id) :
    s = t ∧ p = r ∧ o = o' := by
  obtain ⟨rfl, heq⟩ := RefBook.entry_unique hr.ids hr.sides (hr.mem ho) (hr.mem ho') hid
  obtain rfl : p = r := congrArg Resting.price heq
  refine ⟨rfl, rfl, ?_⟩
  have hnodup : ((m.queue s p).map (·.id)).Nodup := by
    have : (((ref s).filter (·.price = p)).map (·.id)).Nodup :=
      (hr.ids s).sublist (List.filter_sublist.map _)
    rw [← hr.queue, List.map_map] at this
    exact this
  exact List.inj_on_of_nodup_map hnodup ho ho' hid

end MapRep

/-! ## Changing one level -/

/-- `m'` has level `l` at price `p` of side `s`, and the levels of `m` otherwise. -/
structure LevelChanged (m m' : MapBookEngine) (s : Side) (p : Int) (l : Level) : Prop where
  here : m'.queue s p = l
  elsewhere : ∀ t r, ¬ (t = s ∧ r = p) → m'.queue t r = m.queue t r

/-- What holds of the new level and of the other old ones holds of all levels. -/
theorem LevelChanged.forall_levels {m m' : MapBookEngine} {s : Side} {p : Int} {l : Level}
    (hq : LevelChanged m m' s p l) {P : Side → Int → Level → Prop} (hhere : P s p l)
    (helse : ∀ t r, ¬ (t = s ∧ r = p) → P t r (m.queue t r)) (t : Side) (r : Int) :
    P t r (m'.queue t r) := by
  by_cases h : t = s ∧ r = p
  · obtain ⟨rfl, rfl⟩ := h
    rw [hq.here]
    exact hhere
  · rw [hq.elsewhere t r h]
    exact helse t r h

theorem MapBookEngine.queue_congr {m m' : MapBookEngine} {s : Side} {p : Int}
    (h : (m'.book s).find? p = (m.book s).find? p) : m'.queue s p = m.queue s p := by
  rw [queue, queue, h]

theorem LevelChanged.of_find {m m' : MapBookEngine} {s : Side} {p : Int} {l : Level}
    {b : PriceMap s} (hbook : ∀ t, m'.book t = (m.setBook s b).book t)
    (hfind : ∀ r, (b.find? r).getD [] = if r = p then l else ((m.book s).find? r).getD []) :
    LevelChanged m m' s p l := by
  refine ⟨?_, fun t r h => ?_⟩
  · rw [MapBookEngine.queue, hbook, MapBookEngine.book_setBook_self, hfind, if_pos rfl]
  · by_cases hts : t = s
    · subst hts
      rw [MapBookEngine.queue, hbook, MapBookEngine.book_setBook_self, hfind,
        if_neg fun hr => h ⟨rfl, hr⟩]
      rfl
    · apply MapBookEngine.queue_congr
      rw [hbook, MapBookEngine.book_setBook_of_ne m hts]

theorem LevelChanged.set {m m' : MapBookEngine} {s : Side} {p : Int} {l : Level}
    (hbook : ∀ t, m'.book t = (m.setBook s ((m.book s).set p l)).book t) :
    LevelChanged m m' s p l :=
  .of_find hbook fun r => by
    rw [OrderedMap.find?_set]
    split_ifs <;> rfl

theorem LevelChanged.erase {m m' : MapBookEngine} {s : Side} {p : Int}
    (hbook : ∀ t, m'.book t = (m.setBook s ((m.book s).erase p)).book t) :
    LevelChanged m m' s p [] :=
  .of_find hbook fun r => by
    rw [OrderedMap.find?_erase]
    split_ifs <;> rfl

namespace MapRep

variable {m m' : MapBookEngine} {ref : RefBook} {s : Side} {p : Int}

/-- Only the queues, the index and the supply of addresses matter. -/
theorem congr (hr : MapRep m ref) (hq : ∀ s p, m'.queue s p = m.queue s p)
    (hindex : m'.index = m.index) (hnext : m'.nextNode = m.nextNode) : MapRep m' ref where
  queue s p := by rw [hq, hr.queue]
  index id loc := by rw [hindex, hq, hr.index]
  nodes s p := by rw [hq]; exact hr.nodes s p
  fresh s p := by rw [hq, hnext]; exact hr.fresh s p
  ids := hr.ids
  sides := hr.sides

/-- A level without orders may leave the map. -/
theorem dropLevel (hr : MapRep m ref) (hempty : m.queue s p = []) :
    MapRep (m.setBook s ((m.book s).erase p)) ref := by
  have hq : LevelChanged m (m.setBook s ((m.book s).erase p)) s p [] := .erase fun _ => rfl
  refine hr.congr ?_ (MapBookEngine.index_setBook _ _ _) (MapBookEngine.nextNode_setBook _ _ _)
  exact hq.forall_levels (P := fun t r l => l = m.queue t r) hempty.symm fun t r _ => rfl

/-- Unlinking a node and forgetting its id cancels the order. -/
theorem remove (hr : MapRep m ref) {o : RestingOrder} (ho : o ∈ m.queue s p)
    (hq : LevelChanged m m' s p ((m.queue s p).filter (·.node ≠ o.node)))
    (hindex : m'.index = Function.update m.index o.id none)
    (hnext : m'.nextNode = m.nextNode) : MapRep m' (ref.cancel o.id) := by
  have hnode : ∀ x ∈ m.queue s p, (x.node ≠ o.node ↔ x.id ≠ o.id) := by
    intro x hx
    refine not_congr ⟨fun h => ?_, fun h => ?_⟩
    · rw [List.inj_on_of_nodup_map (hr.nodes s p) hx ho h]
    · rw [(hr.unique hx ho h).2.2]
  have hqueue : ∀ t r, m'.queue t r = (m.queue t r).filter (·.id ≠ o.id) := by
    refine hq.forall_levels (P := fun t r l => l = (m.queue t r).filter (·.id ≠ o.id)) ?_ ?_
    · exact List.filter_congr fun x hx => by simp only [hnode x hx]
    · intro t r h
      rw [eq_comm, List.filter_eq_self]
      intro x hx
      rw [decide_eq_true_eq]
      intro hid
      obtain ⟨hs, hp, -⟩ := hr.unique hx ho hid
      exact h ⟨hs, hp⟩
  refine ⟨fun t r => ?_, fun id loc => ?_, fun t r => ?_, fun t r x hx => ?_, fun t => ?_, ?_⟩
  · have hfilter := congrArg (List.filter (·.id ≠ o.id)) (hr.queue t r)
    rw [List.filter_map, List.filter_filter] at hfilter
    rw [hqueue, RefBook.cancel, List.filter_filter]
    refine (congrArg _ ?_).trans (hfilter.trans ?_)
    · rfl
    · exact List.filter_congr fun a _ => Bool.and_comm _ _
  · rw [hindex, hqueue]
    by_cases hid : id = o.id
    · subst hid
      simp only [Function.update_self, List.mem_filter, decide_eq_true_eq]
      refine iff_of_false (by simp) ?_
      rintro ⟨x, ⟨-, hne⟩, -, heq⟩
      exact hne heq
    · rw [Function.update_of_ne hid, hr.index]
      refine exists_congr fun x => ?_
      simp only [List.mem_filter, decide_eq_true_eq]
      constructor
      · rintro ⟨hx, hnode, rfl⟩
        exact ⟨⟨hx, hid⟩, hnode, rfl⟩
      · rintro ⟨⟨hx, -⟩, h⟩
        exact ⟨hx, h⟩
  · rw [hqueue]
    exact (hr.nodes t r).sublist (List.filter_sublist.map _)
  · rw [hqueue] at hx
    rw [hnext]
    exact hr.fresh t r x (List.mem_of_mem_filter hx)
  · exact (hr.ids t).sublist ((cancel_sublist ref o.id t).map _)
  · intro a ha b hb
    exact hr.sides a ((cancel_sublist ref o.id _).mem ha) b ((cancel_sublist ref o.id _).mem hb)

/-- Executing part of the front order of a level. -/
theorem reduce (hr : MapRep m ref) {top : RestingOrder} {l : Level} {qty : Quantity}
    (hl : m.queue s p = top :: l) (hqty : ¬ top.qty ≤ qty)
    (hq : LevelChanged m m' s p ({ top with qty := top.qty - qty } :: l))
    (hindex : m'.index = m.index) (hnext : m'.nextNode = m.nextNode) :
    MapRep m' (Function.update ref s (execute (ref s) top.id qty)) := by
  have htop : top ∈ m.queue s p := by simp [hl]
  -- nodes keep their place, their address and their id
  have hmem : ∀ t r (P : Nat → OrderId → Prop), (∃ x ∈ m'.queue t r, P x.node x.id) ↔
      ∃ x ∈ m.queue t r, P x.node x.id := by
    intro t r P
    refine hq.forall_levels (P := fun t r l => (∃ x ∈ l, P x.node x.id) ↔
      ∃ x ∈ m.queue t r, P x.node x.id) ?_ (fun _ _ _ => Iff.rfl) t r
    rw [hl]
    simp
  have hids := execute_ids (ref s) top.id qty
  refine ⟨fun t r => ?_, fun id loc => ?_, fun t r => ?_, fun t r x hx => ?_,
    fun t => RefBook.ids_update hr.ids hids, RefBook.sides_update hr.sides hids⟩
  · by_cases hts : t = s
    · subst hts
      rw [Function.update_self, filter_execute, ← hr.queue]
      by_cases hrp : r = p
      · subst hrp
        have hrest : execute (l.map (restingAt r)) top.id qty = l.map (restingAt r) := by
          refine execute_of_notMem qty fun a ha hid => ?_
          obtain ⟨x, hx, rfl⟩ := List.mem_map.1 ha
          have hx' : x ∈ m.queue t r := by rw [hl]; exact List.mem_cons_of_mem _ hx
          obtain ⟨-, -, rfl⟩ := hr.unique hx' htop hid
          have := hr.nodes t r
          rw [hl, List.map_cons, List.nodup_cons] at this
          exact this.1 (List.mem_map_of_mem hx)
        have hfirst : execute (restingAt r top :: l.map (restingAt r)) top.id qty =
            restingAt r { top with qty := top.qty - qty } ::
              execute (l.map (restingAt r)) top.id qty := by
          simp [execute, restingAt, hqty]
        rw [hq.here, hl, List.map_cons, List.map_cons, hfirst, hrest]
      · rw [hq.elsewhere t r fun h => hrp h.2, execute_of_notMem]
        intro a ha hid
        obtain ⟨x, hx, rfl⟩ := List.mem_map.1 ha
        exact hrp (hr.unique hx htop hid).2.1
    · rw [Function.update_of_ne hts, hq.elsewhere t r fun h => hts h.1]
      exact hr.queue t r
  · rw [hindex, hr.index, hmem loc.side loc.price fun node i => node = loc.it ∧ i = id]
  · refine hq.forall_levels (P := fun _ _ l => (l.map (·.node)).Nodup) ?_
      (fun t r _ => hr.nodes t r) t r
    have hnodes := hr.nodes s p
    rw [hl] at hnodes
    exact hnodes
  · obtain ⟨y, hy, heq⟩ := (hmem t r fun node _ => node = x.node).1 ⟨x, hx, rfl⟩
    rw [hnext, ← heq]
    exact hr.fresh t r y hy

/-- Appending a node with a new id. -/
theorem rest (hr : MapRep m ref) {msg : NewOrderMessage} (hnew : ¬ ref.holds msg.id)
    (rem : Quantity) :
    MapRep (m.rest msg rem) (Function.update ref msg.side
      (ref msg.side ++ [⟨msg.id, msg.price, rem⟩])) := by
  have hunused : ∀ t r, ∀ x ∈ m.queue t r, x.id ≠ msg.id := fun t r x hx hid =>
    hnew ⟨t, _, hr.mem hx, hid⟩
  have hnone : m.index msg.id = none := by
    rw [Option.eq_none_iff_forall_ne_some]
    intro loc hloc
    obtain ⟨x, hx, -, hid⟩ := (hr.index msg.id loc).1 hloc
    exact hunused _ _ x hx hid
  have hq : LevelChanged m (m.rest msg rem) msg.side msg.price
      (m.queue msg.side msg.price ++ [⟨m.nextNode, msg.id, rem⟩]) :=
    .set fun t => by cases t <;> rfl
  have hindex : (m.rest msg rem).index = Function.update m.index msg.id
      (some ⟨msg.side, msg.price, m.nextNode⟩) := by
    simp only [MapBookEngine.rest, hnone, Option.getD_none]
  have hmem : ∀ t r x, x ∈ (m.rest msg rem).queue t r ↔ x ∈ m.queue t r ∨
      (t = msg.side ∧ r = msg.price ∧ x = ⟨m.nextNode, msg.id, rem⟩) := by
    intro t r x
    refine hq.forall_levels (P := fun t r l => x ∈ l ↔ x ∈ m.queue t r ∨
      (t = msg.side ∧ r = msg.price ∧ x = ⟨m.nextNode, msg.id, rem⟩)) ?_ ?_ t r
    · simp
    · intro t r h
      tauto
  refine ⟨fun t r => ?_, fun id loc => ?_, fun t r => ?_, fun t r x hx => ?_,
    fun t => RefBook.ids_append hr.ids hnew, RefBook.sides_append hr.sides hnew⟩
  · by_cases hts : t = msg.side
    · subst hts
      rw [Function.update_self, List.filter_append, ← hr.queue]
      by_cases hrp : r = msg.price
      · subst hrp
        rw [hq.here]
        simp [restingAt]
      · rw [hq.elsewhere _ r fun h => hrp h.2]
        simp [Ne.symm hrp]
    · rw [Function.update_of_ne hts, hq.elsewhere t r fun h => hts h.1]
      exact hr.queue t r
  · rw [hindex]
    by_cases hid : id = msg.id
    · subst hid
      rw [Function.update_self, Option.some.injEq]
      constructor
      · rintro rfl
        exact ⟨⟨m.nextNode, msg.id, rem⟩, (hmem _ _ _).2 (.inr ⟨rfl, rfl, rfl⟩), rfl, rfl⟩
      · rintro ⟨x, hx, hnode, hid⟩
        rcases (hmem _ _ x).1 hx with hx | ⟨hs, hp, rfl⟩
        · exact absurd hid (hunused _ _ x hx)
        · obtain ⟨ls, lp, li⟩ := loc
          simp only at hs hp hnode
          rw [hs, hp, hnode]
    · rw [Function.update_of_ne hid, hr.index]
      refine exists_congr fun x => ?_
      rw [hmem]
      refine and_congr_left fun h => ⟨.inl, ?_⟩
      rintro (hx | ⟨-, -, rfl⟩)
      exacts [hx, absurd h.2.symm hid]
  · refine hq.forall_levels (P := fun _ _ l => (l.map (·.node)).Nodup) ?_
      (fun t r _ => hr.nodes t r) t r
    rw [List.map_append]
    refine List.nodup_append.2 ⟨hr.nodes _ _, by simp, ?_⟩
    rintro i hi j hj rfl
    obtain ⟨x, hx, rfl⟩ := List.mem_map.1 hi
    have hlt := hr.fresh _ _ x hx
    simp only [List.map_cons, List.map_nil, List.mem_singleton] at hj
    omega
  · have hnext : (m.rest msg rem).nextNode = m.nextNode + 1 := rfl
    rw [hnext]
    rcases (hmem t r x).1 hx with hx | ⟨-, -, rfl⟩
    · exact Nat.lt_succ_of_lt (hr.fresh t r x hx)
    · exact Nat.lt_succ_self _

end MapRep

/-- Executing against the front of a level executes its entry of the reference book. -/
theorem MapRep.reduceTop {m : MapBookEngine} {ref : RefBook} {s : Side} {p : Int}
    (hr : MapRep m ref) {top : RestingOrder} {queue : Level} {qty : Quantity}
    (hl : m.queue s p = top :: queue) (hqty : qty ≤ top.qty) :
    MapRep (m.reduceTop s p top queue qty)
      (Function.update ref s (execute (ref s) top.id qty)) := by
  have htop : top ∈ m.queue s p := by simp [hl]
  have hzero : top.qty - qty = 0 ↔ top.qty ≤ qty := by
    rw [← UInt32.toNat_inj, UInt32.toNat_sub_of_le _ _ hqty, UInt32.le_iff_toNat_le]
    simp only [UInt32.toNat_zero]
    omega
  unfold MapBookEngine.reduceTop
  simp only [hzero]
  split_ifs with hfull
  · -- completely executed: the effect is that of a cancel
    have hmem := hr.mem htop
    have hcancel : Function.update ref s (execute (ref s) top.id qty) = ref.cancel top.id := by
      funext u
      by_cases hu : u = s
      · subst hu
        rw [Function.update_self]
        refine execute_eq_filter fun a ha hid => ?_
        rw [List.inj_on_of_nodup_map (hr.ids u) ha hmem hid]
        exact hfull
      · rw [Function.update_of_ne hu, RefBook.cancel, eq_comm, List.filter_eq_self]
        intro a ha
        rw [decide_eq_true_eq]
        exact fun hid => hu (RefBook.entry_unique hr.ids hr.sides ha hmem hid).1
    have hnodes := hr.nodes s p
    rw [hl, List.map_cons, List.nodup_cons] at hnodes
    have hrest : (m.queue s p).filter (·.node ≠ top.node) = queue := by
      rw [hl, List.filter_cons_of_neg (by simp), List.filter_eq_self]
      intro x hx
      rw [decide_eq_true_eq]
      exact fun hn => hnodes.1 (hn ▸ List.mem_map_of_mem hx)
    rw [hcancel]
    refine hr.remove htop (.set fun u => ?_) rfl (MapBookEngine.nextNode_setBook _ _ _)
    rw [hrest]
    cases u <;> rfl
  · exact hr.reduce hl hfull (.set fun u => rfl) (MapBookEngine.index_setBook _ _ _)
      (MapBookEngine.nextNode_setBook _ _ _)

theorem reduceTop_entries {m : MapBookEngine} {s : Side} {p : Int} {top : RestingOrder}
    {queue : Level} {levels : List (Int × Level)}
    (h : (m.book s).entries = (p, top :: queue) :: levels) (qty : Quantity) :
    ∃ queue', ((m.reduceTop s p top queue qty).book s).entries = (p, queue') :: levels := by
  have hset : ∀ l, ((m.setBook s ((m.book s).set p l)).book s).entries = (p, l) :: levels := by
    intro l
    rw [MapBookEngine.book_setBook_self]
    exact OrderedMap.set_first h l
  unfold MapBookEngine.reduceTop
  dsimp only
  split_ifs
  · refine ⟨queue, ?_⟩
    rw [← hset queue]
    cases s <;> rfl
  · exact ⟨_, hset _⟩

theorem reduceTop_book_of_ne (m : MapBookEngine) {s u : Side} (h : u ≠ s) (p : Int)
    (top : RestingOrder) (queue : Level) (qty : Quantity) :
    (m.reduceTop s p top queue qty).book u = m.book u := by
  unfold MapBookEngine.reduceTop
  dsimp only
  split_ifs
  · rw [← MapBookEngine.book_setBook_of_ne m h ((m.book s).set p queue)]
    cases u <;> rfl
  · exact MapBookEngine.book_setBook_of_ne m h _

/-! ## Matching -/

/-- Matching `msg` in the baseline: `side` is what is left of the opposite side and `takes`
what was taken from it. -/
structure MapMatching (msg : NewOrderMessage) (ref : RefBook) (t : MapBookEngine.MatchState)
    (side : List Resting) (takes : List (Resting × Quantity)) : Prop where
  rep : MapRep t.engine (Function.update ref msg.side.opposite side)
  isOpen : ∀ r ∈ side, 0 < r.remaining
  fills : t.fills = UInt64.ofNat takes.length
  walk : matchSide msg.side.opposite (beyondLimit msg) (ref msg.side.opposite) msg.quantity =
    let m := matchSide msg.side.opposite (beyondLimit msg) side t.remaining
    { m with takes := takes ++ m.takes }

theorem execute_isOpen {side : List Resting} (h : ∀ r ∈ side, 0 < r.remaining) (id : OrderId)
    (qty : Quantity) : ∀ r ∈ execute side id qty, 0 < r.remaining := by
  intro r hr
  rcases mem_execute hr with ⟨hr, -⟩ | ⟨r', -, -, hlt, rfl⟩
  · exact h r hr
  · have := UInt32.not_le.1 hlt
    grind

namespace MapMatching

variable {msg : NewOrderMessage} {ref : RefBook} {t : MapBookEngine.MatchState}
  {side : List Resting} {takes : List (Resting × Quantity)}

/-- One iteration of the inner loop is one step of the reference walk. -/
theorem fillTop (h : MapMatching msg ref t side takes) {p : Int} {top : RestingOrder}
    {queue : Level} {levels : List (Int × Level)}
    (hfirst : (t.engine.book msg.side.opposite).entries = (p, top :: queue) :: levels)
    (hpos : 0 < t.remaining) (hwithin : beyondLimit msg p = false) :
    ∃ t' side' takes' queue', MapBookEngine.fillTop msg.side.opposite p t = some t' ∧
      MapMatching msg ref t' side' takes' ∧
      (t'.engine.book msg.side.opposite).entries = (p, queue') :: levels ∧
      t'.engine.book msg.side = t.engine.book msg.side ∧ t'.remaining < t.remaining := by
  have hfind : (t.engine.book msg.side.opposite).find? p = some (top :: queue) :=
    (OrderedMap.mem_entries _).1 (by simp [hfirst])
  have hqueue : t.engine.queue msg.side.opposite p = top :: queue := by
    rw [MapBookEngine.queue, hfind]
    rfl
  have hmem : restingAt p top ∈ side := by
    have := h.rep.mem (s := msg.side.opposite) (p := p) (o := top) (by simp [hqueue])
    rwa [Function.update_self] at this
  have hids := h.rep.ids msg.side.opposite
  have hsort := h.rep.orders_eq msg.side.opposite
  rw [Function.update_self] at hids hsort
  rw [MapBookEngine.orders, hfirst, List.flatMap_cons, List.map_cons, List.cons_append] at hsort
  have hrep := h.rep.reduceTop hqueue (quantity_min_le t.remaining top.qty)
  rw [Function.update_self, Function.update_idem] at hrep
  obtain ⟨queue', hentries⟩ := reduceTop_entries hfirst (min t.remaining top.qty)
  have hne : t.remaining ≠ 0 := fun h0 => absurd (h0 ▸ hpos) (by decide)
  refine ⟨_, execute side top.id (min t.remaining top.qty),
    takes ++ [(restingAt p top, min t.remaining top.qty)], queue',
    by simp only [MapBookEngine.fillTop, hfind]; rfl, ⟨hrep, execute_isOpen h.isOpen _ _, ?_, ?_⟩,
    hentries, ?_, quantity_sub_min_lt hpos (h.isOpen _ hmem)⟩
  · simp only [h.fills, List.length_append, List.length_singleton, UInt64.ofNat_add]
    rfl
  · have hstep : matchSide msg.side.opposite (beyondLimit msg) side t.remaining = _ :=
      matchSide_step hsort.symm hids hne hwithin
    rw [h.walk, hstep]
    simp only [List.append_assoc, List.singleton_append]
    rfl
  · apply reduceTop_book_of_ne
    cases msg.side <;> simp [Side.opposite]

/-- The inner loop: it executes at least once and stops with the level or the quantity used
up. -/
theorem fillLevel (h : MapMatching msg ref t side takes) {p : Int} {queue : Level}
    {levels : List (Int × Level)}
    (hfirst : (t.engine.book msg.side.opposite).entries = (p, queue) :: levels)
    (hqueue : queue ≠ []) (hpos : 0 < t.remaining) (hwithin : beyondLimit msg p = false) :
    ∃ t' side' takes' queue',
      loop (MapBookEngine.queueOpen msg.side.opposite p)
        (MapBookEngine.fillTop msg.side.opposite p) t.remaining.toNat t = some t' ∧
      MapMatching msg ref t' side' takes' ∧
      (t'.engine.book msg.side.opposite).entries = (p, queue') :: levels ∧
      t'.engine.book msg.side = t.engine.book msg.side ∧ t'.remaining < t.remaining := by
  have hopen : ∀ (u : MapBookEngine.MatchState) (l : Level),
      (u.engine.book msg.side.opposite).entries = (p, l) :: levels →
      (MapBookEngine.queueOpen msg.side.opposite p u = true ↔ 0 < u.remaining ∧ l ≠ []) := by
    intro u l hl
    have hfind : (u.engine.book msg.side.opposite).find? p = some l :=
      (OrderedMap.mem_entries _).1 (by simp [hl])
    cases l <;> simp [MapBookEngine.queueOpen, hfind]
  have htotal := loop_total_lt (MapBookEngine.queueOpen msg.side.opposite p)
    (MapBookEngine.fillTop msg.side.opposite p)
    (fun u => ∃ side takes queue, MapMatching msg ref u side takes ∧
      (u.engine.book msg.side.opposite).entries = (p, queue) :: levels ∧
      u.engine.book msg.side = t.engine.book msg.side)
    (fun u => u.remaining.toNat) ?_ ⟨side, takes, queue, h, hfirst, rfl⟩
    ((hopen t queue hfirst).2 ⟨hpos, hqueue⟩)
  · obtain ⟨u, hloop, ⟨side', takes', queue', hm, hfirst', hother⟩, -, hlt⟩ := htotal
    exact ⟨u, side', takes', queue', hloop, hm, hfirst', hother, UInt32.lt_iff_toNat_lt.2 hlt⟩
  · rintro u ⟨side', takes', queue', hm, hfirst', hother⟩ hcond
    obtain ⟨hpos', hne⟩ := (hopen u queue' hfirst').1 hcond
    obtain ⟨top, rest, rfl⟩ := List.exists_cons_of_ne_nil hne
    obtain ⟨v, side'', takes'', queue'', hstep, hm', hfirst'', hother', hdec⟩ :=
      hm.fillTop hfirst' hpos' hwithin
    exact ⟨v, hstep, ⟨side'', takes'', queue'', hm', hfirst'', hother'.trans hother⟩,
      UInt32.lt_iff_toNat_lt.1 hdec⟩

/-- One iteration of the outer loop. -/
theorem fillFirst (h : MapMatching msg ref t side takes) (hpacked : ∀ s, Packed t.engine s)
    (hc : MapBookEngine.crossing msg.side.opposite (fun p => !beyondLimit msg p) t = true) :
    ∃ t' side' takes', MapBookEngine.fillFirst msg.side.opposite t = some t' ∧
      MapMatching msg ref t' side' takes' ∧ (∀ s, Packed t'.engine s) ∧
      t'.remaining < t.remaining := by
  cases hentries : (t.engine.book msg.side.opposite).entries with
  | nil => simp [MapBookEngine.crossing, OrderedMap.first?, hentries] at hc
  | cons lvl levels =>
    obtain ⟨p, queue⟩ := lvl
    have hfirst : (t.engine.book msg.side.opposite).first? = some (p, queue) := by
      rw [OrderedMap.first?, hentries]
      rfl
    simp only [MapBookEngine.crossing, hfirst, Bool.and_eq_true, decide_eq_true_eq,
      Bool.not_eq_true'] at hc
    have hqueue : queue ≠ [] := hpacked msg.side.opposite (p, queue) (by simp [hentries])
    obtain ⟨u, side', takes', queue', hloop, hm, hfirst', hother, hlt⟩ :=
      h.fillLevel hentries hqueue hc.1 hc.2
    have hfind : (u.engine.book msg.side.opposite).find? p = some queue' :=
      (OrderedMap.mem_entries _).1 (by simp [hfirst'])
    have hrest : ∀ l ∈ levels, l.2 ≠ [] := fun l hl =>
      hpacked msg.side.opposite l (by simp [hentries, hl])
    have hside : ∀ s, s = msg.side.opposite ∨ s = msg.side := by
      intro s
      cases s <;> cases msg.side <;> simp [Side.opposite]
    simp only [MapBookEngine.fillFirst, hfirst, hloop, Option.map_some, hfind,
      Option.some.injEq]
    by_cases hempty : queue' = []
    · -- the level is used up and leaves the map
      subst hempty
      refine ⟨_, side', takes', rfl, ?_, fun s => ?_, ?_⟩
      · rw [if_pos rfl]
        have hgone : u.engine.queue msg.side.opposite p = [] := by
          rw [MapBookEngine.queue, hfind]
          rfl
        exact ⟨hm.rep.dropLevel hgone, hm.isOpen, hm.fills, hm.walk⟩
      · rw [if_pos rfl]
        rcases hside s with rfl | rfl
        · intro l hl
          rw [MapBookEngine.book_setBook_self, OrderedMap.mem_erase, hfirst', List.mem_cons] at hl
          rcases hl with ⟨rfl | hl, hne⟩
          · exact absurd rfl hne
          · exact hrest l hl
        · have hne : msg.side ≠ msg.side.opposite := by cases msg.side <;> simp [Side.opposite]
          intro l hl
          rw [MapBookEngine.book_setBook_of_ne _ hne, hother] at hl
          exact hpacked msg.side l hl
      · rw [if_pos rfl]
        exact hlt
    · refine ⟨_, side', takes', rfl, ?_, fun s => ?_, ?_⟩
      · rwa [if_neg hempty]
      · rw [if_neg hempty]
        rcases hside s with rfl | rfl
        · intro l hl
          rw [hfirst'] at hl
          rcases List.mem_cons.1 hl with rfl | hl
          exacts [hempty, hrest l hl]
        · intro l hl
          rw [hother] at hl
          exact hpacked msg.side l hl
      · rwa [if_neg hempty]

/-- What the outer loop leaves for the reference to take: nothing. -/
theorem finished (h : MapMatching msg ref t side takes) (hpacked : ∀ s, Packed t.engine s)
    (hc : MapBookEngine.crossing msg.side.opposite (fun p => !beyondLimit msg p) t = false) :
    t.remaining = 0 ∨ ∀ r ∈ side, beyondLimit msg r.price = true := by
  by_cases hpos : 0 < t.remaining
  · right
    have hsort := h.rep.orders_eq msg.side.opposite
    rw [Function.update_self] at hsort
    intro r hr
    cases hentries : (t.engine.book msg.side.opposite).entries with
    | nil =>
      rw [MapBookEngine.orders, hentries] at hsort
      have hr' : r ∈ side.insertionSort (priority msg.side.opposite) := by
        rwa [List.mem_insertionSort]
      rw [← hsort] at hr'
      cases hr'
    | cons lvl levels =>
      obtain ⟨p, queue⟩ := lvl
      have hqueue : queue ≠ [] := hpacked msg.side.opposite (p, queue) (by simp [hentries])
      obtain ⟨top, rest, rfl⟩ := List.exists_cons_of_ne_nil hqueue
      have hbest : beyondLimit msg p = true := by
        simpa [MapBookEngine.crossing, OrderedMap.first?, hentries, hpos] using hc
      rw [MapBookEngine.orders, hentries, List.flatMap_cons, List.map_cons,
        List.cons_append] at hsort
      exact beyondLimit_mono hbest ((insertionSort_head hsort.symm).2 r hr)
  · left
    exact UInt32.le_antisymm (UInt32.not_lt.1 hpos) (by simp)

/-- The outer loop returns, having taken what the reference takes. -/
theorem matchBook (h : MapMatching msg ref t side takes) (hpacked : ∀ s, Packed t.engine s) :
    ∃ t' side' takes',
      MapBookEngine.matchBook msg.side.opposite (fun p => !beyondLimit msg p) t = some t' ∧
      MapMatching msg ref t' side' takes' ∧ (∀ s, Packed t'.engine s) ∧
      (t'.remaining = 0 ∨ ∀ r ∈ side', beyondLimit msg r.price = true) := by
  have htotal := loop_total
    (MapBookEngine.crossing msg.side.opposite fun p => !beyondLimit msg p)
    (MapBookEngine.fillFirst msg.side.opposite)
    (fun u => ∃ side takes, MapMatching msg ref u side takes ∧ ∀ s, Packed u.engine s)
    (fun u => u.remaining.toNat) ?_ t.remaining.toNat t ⟨side, takes, h, hpacked⟩ (le_refl _)
  · obtain ⟨u, hloop, ⟨side', takes', hm, hpacked'⟩, hexit⟩ := htotal
    exact ⟨u, side', takes', hloop, hm, hpacked', hm.finished hpacked' hexit⟩
  · rintro u ⟨side', takes', hm, hpacked'⟩ hcond
    obtain ⟨v, side'', takes'', hstep, hm', hpacked'', hlt⟩ := hm.fillFirst hpacked' hcond
    exact ⟨v, hstep, ⟨side'', takes'', hm', hpacked''⟩, UInt32.lt_iff_toNat_lt.1 hlt⟩

end MapMatching

/-! ## Messages -/

theorem Packed.setBook {m : MapBookEngine} (hpacked : ∀ s, Packed m s) {s : Side}
    {b : PriceMap s} (hb : ∀ l ∈ b.entries, l.2 ≠ []) (u : Side) : Packed (m.setBook s b) u := by
  by_cases hu : u = s
  · subst hu
    rw [Packed, MapBookEngine.book_setBook_self]
    exact hb
  · rw [Packed, MapBookEngine.book_setBook_of_ne m hu]
    exact hpacked u

/-- A message the flat-array engine does not turn away for its price, in the reference. -/
theorem newOrder_of_inRange (ref : RefBook) {msg : NewOrderMessage}
    (hrange : msg.type = .limit → 0 ≤ msg.price ∧ msg.price < maxPriceTicks) :
    ref.newOrder msg =
      (RefBook.rest (Function.update ref msg.side.opposite (ref.traded msg).side) msg
        (ref.traded msg).left, (ref.traded msg).takes.map (fillOf msg)) := by
  unfold RefBook.newOrder
  split_ifs with hign
  · -- only an order for nothing is ignored, and it would do nothing
    have hzero : msg.quantity = 0 := hign.resolve_right fun h => h.2 (hrange h.1)
    rw [RefBook.traded, matchSide_stop (.inl hzero), Function.update_eq_self, RefBook.rest,
      if_neg (by simp [hzero])]
    rfl
  · rfl

theorem handleNewOrder_eq (m : MapBookEngine) (msg : NewOrderMessage) :
    m.handleNewOrder msg =
      (MapBookEngine.matchBook msg.side.opposite (fun p => !beyondLimit msg p)
        ⟨m, msg.quantity, 0⟩).map fun t =>
        (if 0 < t.remaining ∧ msg.type = .limit then t.engine.rest msg t.remaining
          else t.engine, t.fills) := by
  have htype : (!decide (msg.type = .market)) = decide (msg.type = .limit) := by
    cases msg.type <;> rfl
  have hcross : ∀ p, (!beyondLimit msg p) = (decide (msg.type = .market) ||
      decide (before msg.side.opposite p msg.price)) := by
    intro p
    cases h : msg.type <;> simp [beyondLimit, h]
  simp only [hcross, MapBookEngine.handleNewOrder, htype, Bool.and_eq_true, decide_eq_true_eq]
  cases msg.side <;> rfl

theorem handleNewOrder_refines {m : MapBookEngine} {ref : RefBook} {msg : NewOrderMessage}
    (hr : MapRep m ref) (hpacked : ∀ s, Packed m s) (hopen : ∀ s, ∀ r ∈ ref s, 0 < r.remaining)
    (hnew : ¬ ref.holds msg.id)
    (hrange : msg.type = .limit → 0 ≤ msg.price ∧ msg.price < maxPriceTicks) :
    ∃ m', m.handleNewOrder msg = some (m', UInt64.ofNat (ref.newOrder msg).2.length) ∧
      (m'.size ≤ orderPoolSize → MapRep m' (ref.newOrder msg).1) ∧ ∀ s, Packed m' s := by
  have hstart : MapMatching msg ref ⟨m, msg.quantity, 0⟩ (ref msg.side.opposite) [] :=
    ⟨by rw [Function.update_eq_self]; exact hr, hopen _, rfl, rfl⟩
  obtain ⟨t, side, takes, hloop, hm, hpacked', hdone⟩ := hstart.matchBook hpacked
  have htraded : ref.traded msg = ⟨takes, side, t.remaining⟩ := by
    rw [RefBook.traded, hm.walk, matchSide_stop hdone]
    simp
  have habsent : ¬ RefBook.holds (Function.update ref msg.side.opposite side) msg.id := by
    obtain ⟨hside, -⟩ := matchSide_not_held msg.side.opposite (beyondLimit msg) msg.quantity
      (hr.ids msg.side.opposite) fun r hr he => hnew ⟨_, r, hr, he⟩
    rw [show (matchSide msg.side.opposite (beyondLimit msg) (ref msg.side.opposite)
      msg.quantity).side = side from congrArg Matched.side htraded] at hside
    exact update_not_holds hnew hside
  rw [handleNewOrder_eq, hloop, newOrder_of_inRange ref hrange, htraded]
  simp only [Option.map_some, hm.fills, List.length_map]
  by_cases hrest : 0 < t.remaining ∧ msg.type = .limit
  · rw [if_pos hrest]
    have hrep := hm.rep.rest habsent t.remaining
    refine ⟨_, rfl, fun hsize => ?_, ?_⟩
    · -- counting the new order, the baseline is within the pool size
      have hroom : RefBook.size (Function.update ref msg.side.opposite side) <
          orderPoolSize := by
        rw [hrep.size_eq] at hsize
        refine lt_of_lt_of_le ?_ hsize
        unfold RefBook.size
        cases msg.side <;> simp [Side.opposite]
      rw [RefBook.rest, if_pos ⟨hrest.2, hrest.1, habsent, hroom⟩]
      exact hrep
    · intro u
      have := Packed.setBook hpacked' (s := msg.side) (b := (t.engine.book msg.side).set msg.price
        (((t.engine.book msg.side).find? msg.price).getD [] ++
          [⟨t.engine.nextNode, msg.id, t.remaining⟩])) (fun l hl => by
            rcases OrderedMap.mem_set hl with rfl | hl
            · simp
            · exact hpacked' msg.side l hl) u
      cases u <;> exact this
  · rw [if_neg hrest, RefBook.rest, if_neg (by tauto)]
    exact ⟨_, rfl, fun _ => hm.rep, hpacked'⟩

theorem handleCancel_refines {m : MapBookEngine} {ref : RefBook} (hr : MapRep m ref)
    (hpacked : ∀ s, Packed m s) (msg : CancelMessage) :
    ∃ m', m.handleCancel msg = some (m', 0) ∧ MapRep m' (ref.cancel msg.id) ∧
      ∀ s, Packed m' s := by
  cases hindex : m.index msg.id with
  | none =>
    have hnot : ¬ ref.holds msg.id := by
      rintro ⟨s, r, hmem, hid⟩
      obtain ⟨o, ho, heq⟩ := hr.exists_mem hmem
      have hoid : o.id = msg.id := (congrArg Resting.id heq).trans hid
      have hsome := (hr.index msg.id ⟨s, r.price, o.node⟩).2 ⟨o, ho, rfl, hoid⟩
      exact absurd (hsome.symm.trans hindex) (by simp)
    rw [RefBook.cancel_of_not_holds hnot]
    exact ⟨m, by simp only [MapBookEngine.handleCancel, hindex], hr, hpacked⟩
  | some loc =>
    obtain ⟨o, ho, hnode, hid⟩ := (hr.index msg.id loc).1 hindex
    obtain ⟨level, hfind⟩ : ∃ level, (m.book loc.side).find? loc.price = some level := by
      cases hfind : (m.book loc.side).find? loc.price with
      | none => simp [MapBookEngine.queue, hfind] at ho
      | some level => exact ⟨level, rfl⟩
    have hqueue : m.queue loc.side loc.price = level := by rw [MapBookEngine.queue, hfind]; rfl
    have hany : level.any (·.node = loc.it) = true := by
      rw [List.any_eq_true]
      exact ⟨o, hqueue ▸ ho, by simp [hnode]⟩
    have hcancel : m.handleCancel msg = (m.eraseFrom loc.side loc).map fun (m' : MapBookEngine) =>
        ({ m' with index := Function.update m'.index msg.id none }, 0) := by
      simp only [MapBookEngine.handleCancel, hindex]
      obtain ⟨s, p, it⟩ := loc
      cases s <;> rfl
    rw [hcancel]
    simp only [MapBookEngine.eraseFrom, hfind, Option.bind_some, hany, if_true, Option.map_some]
    refine ⟨_, rfl, ?_, fun u => ?_⟩
    · rw [← hid]
      refine hr.remove ho ?_ (by rw [MapBookEngine.index_setBook])
        (MapBookEngine.nextNode_setBook _ _ _)
      rw [hqueue, hnode]
      split_ifs with hempty
      · rw [hempty]
        exact .erase fun u => by cases u <;> rfl
      · exact .set fun u => by cases u <;> rfl
    · have : Packed (m.setBook loc.side (if level.filter (·.node ≠ loc.it) = [] then
          (m.book loc.side).erase loc.price
        else (m.book loc.side).set loc.price (level.filter (·.node ≠ loc.it)))) u := by
        refine Packed.setBook hpacked (fun l hl => ?_) u
        split_ifs at hl with hempty
        · exact hpacked loc.side l (OrderedMap.mem_erase.1 hl).1
        · rcases OrderedMap.mem_set hl with rfl | hl
          · exact hempty
          · exact hpacked loc.side l hl
      cases u <;> exact this

/-! ## Runs of both engines -/

/-- Both engines hold the orders of one reference book. -/
structure Agreed (e : MatchingEngine) (m : MapBookEngine) (ref : RefBook) : Prop where
  sim : Simulates e ref
  rep : MapRep m ref
  packed : ∀ s, Packed m s

theorem Agreed.new : Agreed .new {} .empty where
  sim := .new
  rep := .new
  packed s := by cases s <;> simp [Packed, MapBookEngine.book, OrderedMap.empty]

/-- At each price the engine's level and the level lists of the baseline hold the same
orders, front to back. -/
def SameBook (e : MatchingEngine) (m : MapBookEngine) : Prop :=
  ∀ p, ∃ l, Chain (fun y => (e.heap.order y).next) (e.book.levels p).head l ∧
    l.map (fun x => ((e.heap.order x).side, restingOf (e.heap.order x))) =
      (m.queue .bid p).map (fun o => (.bid, restingAt p o)) ++
        (m.queue .ask p).map (fun o => (.ask, restingAt p o))

theorem Agreed.sameBook {e : MatchingEngine} {m : MapBookEngine} {ref : RefBook}
    (h : Agreed e m ref) : SameBook e m := by
  intro p
  obtain ⟨l, hl, hlevel⟩ := h.sim.shows.level p
  refine ⟨l, hl, ?_⟩
  rw [hlevel, RefBook.level, ← h.rep.queue, ← h.rep.queue, List.map_map, List.map_map]
  rfl

/-- One message in both engines. -/
theorem Agreed.process {e : MatchingEngine} {m : MapBookEngine} {ref : RefBook}
    (h : Agreed e m ref) (msg : EngineMessage)
    (hnew : ∀ a ∈ submitted [msg], ¬ ref.holds a.id)
    (hrange : ∀ a ∈ submitted [msg], a.type = .limit → 0 ≤ a.price ∧ a.price < maxPriceTicks) :
    ∃ e' m' n, e.process msg = some e' ∧ m.process msg = some (m', n) ∧
      e'.fills.length = n.toNat ∧
      (m'.size ≤ orderPoolSize → Agreed e' m' (ref.process msg).1) := by
  obtain ⟨e', hstep, hfills, hsim⟩ := process_simulates h.sim msg
  cases msg with
  | newOrder a =>
    obtain ⟨m', hmap, hrep, hpacked⟩ := handleNewOrder_refines h.rep h.packed h.sim.isOpen
      (hnew a (by simp)) (hrange a (by simp))
    refine ⟨e', m', _, hstep, hmap, ?_, fun hsize => ⟨hsim, hrep hsize, hpacked⟩⟩
    -- there are no more fills than opposite orders, and these are counted in 64 bits
    have hlen := newOrder_fills_length ref a
    rw [← h.sim.shows.count] at hlen
    have hlt := (e.book.count a.side.opposite).toNat_lt
    rw [hfills, UInt64.toNat_ofNat', RefBook.process, Nat.mod_eq_of_lt (by omega)]
  | cancel c =>
    obtain ⟨m', hmap, hrep, hpacked⟩ := handleCancel_refines h.rep h.packed c
    refine ⟨e', m', 0, hstep, hmap, ?_, fun _ => ⟨hsim, hrep, hpacked⟩⟩
    rw [hfills]
    rfl

theorem Conserved.not_holds {sub : List NewOrderMessage} {ref : RefBook} {fills : List Fill}
    (hc : Conserved sub ref fills) {msgs : List EngineMessage}
    (hids : ((sub ++ submitted msgs).map (·.id)).Nodup) :
    ∀ a ∈ submitted msgs, ¬ ref.holds a.id := by
  rintro a ha ⟨s, r, hr, hid⟩
  obtain ⟨b, hb, hbid, -⟩ := hc.resting s r hr
  rw [List.map_append, List.nodup_append] at hids
  exact hids.2.2 b.id (List.mem_map_of_mem hb) a.id (List.mem_map_of_mem ha) (hbid.trans hid)

theorem Agreed.run {e : MatchingEngine} {m : MapBookEngine} {ref : RefBook}
    {sub : List NewOrderMessage} {fills : List Fill} (h : Agreed e m ref)
    (hc : Conserved sub ref fills) (msgs : List EngineMessage)
    (hids : ((sub ++ submitted msgs).map (·.id)).Nodup)
    (hrange : ∀ a ∈ submitted msgs, a.type = .limit → 0 ≤ a.price ∧ a.price < maxPriceTicks)
    (hroom : ∀ k m', m.run (msgs.take k) = some m' → m'.size ≤ orderPoolSize) :
    ∃ e' m' fills', e.run msgs = some e' ∧ m.run msgs = some m' ∧ Agreed e' m' (ref.run msgs) ∧
      Conserved (sub ++ submitted msgs) (ref.run msgs) fills' := by
  induction msgs generalizing e m ref sub fills with
  | nil => exact ⟨e, m, fills, rfl, rfl, h, by simpa [submitted, RefBook.run] using hc⟩
  | cons msg msgs ih =>
    rw [submitted_cons] at hids ⊢
    have hfirst := nodup_ids_left hids
    have hrange' : ∀ a, a ∈ submitted [msg] ∨ a ∈ submitted msgs → a.type = .limit →
        0 ≤ a.price ∧ a.price < maxPriceTicks := by
      intro a ha
      apply hrange
      have := submitted_cons [] msg msgs
      simp only [List.nil_append] at this
      rw [this, List.mem_append]
      exact ha
    obtain ⟨e₁, m₁, n, hstep, hmap, -, hagreed⟩ := h.process msg (hc.not_holds hfirst)
      fun a ha => hrange' a (.inl ha)
    have hsize : m₁.size ≤ orderPoolSize := hroom 1 m₁ (by simp [MapBookEngine.run, hmap])
    obtain ⟨e', m', fills', hrun, hmrun, hend⟩ := ih (hagreed hsize) (hc.process msg hfirst) hids
      (fun a ha => hrange' a (.inr ha)) fun k m' hk =>
        hroom (k + 1) m' (by simp [MapBookEngine.run, hmap, hk])
    refine ⟨e', m', fills', ?_, ?_, hend⟩
    · simp [MatchingEngine.run, hstep, hrun]
    · simp [MapBookEngine.run, hmap, hmrun]

theorem MapBookEngine.run_append (m : MapBookEngine) (a b : List EngineMessage) :
    m.run (a ++ b) = (m.run a).bind fun m' => m'.run b := by
  induction a generalizing m with
  | nil => rfl
  | cons msg a ih => cases h : m.process msg <;> simp [MapBookEngine.run, h, ih]

/-- Over any stream with distinct order ids and limit prices in range, in which the baseline
never holds more orders than the pool, the two engines report the same number of fills for
every message and hold the same book after it. -/
theorem run_agrees (msgs : List EngineMessage) (msg : EngineMessage)
    (hids : ((submitted (msgs ++ [msg])).map (·.id)).Nodup)
    (hrange : ∀ a, .newOrder a ∈ msgs ++ [msg] → a.type = .limit →
      0 ≤ a.price ∧ a.price < maxPriceTicks)
    (hroom : ∀ k m, MapBookEngine.run {} ((msgs ++ [msg]).take k) = some m →
      m.size ≤ orderPoolSize) :
    ∃ e m e' m' n, MatchingEngine.new.run msgs = some e ∧
      MapBookEngine.run {} msgs = some m ∧ SameBook e m ∧
      e.process msg = some e' ∧ m.process msg = some (m', n) ∧ e'.fills.length = n.toNat ∧
      SameBook e' m' := by
  have hrange' : ∀ a ∈ submitted (msgs ++ [msg]), a.type = .limit →
      0 ≤ a.price ∧ a.price < maxPriceTicks := fun a ha => hrange a (mem_submitted.1 ha)
  rw [submitted_append] at hids hrange'
  obtain ⟨e, m, fills, hrun, hmrun, hagreed, hc⟩ := Agreed.new.run Conserved.new msgs
    (by simpa using nodup_ids_left hids) (fun a ha => hrange' a (by simp [ha])) fun k m hk =>
      hroom (min k msgs.length) m (by
        rw [List.take_append_of_le_length (by omega), ← List.take_eq_take_min]
        exact hk)
  simp only [List.nil_append] at hc
  obtain ⟨e', m', n, hstep, hmap, hcount, hafter⟩ := hagreed.process msg (hc.not_holds hids)
    fun a ha => hrange' a (by simp [ha])
  have hsize : m'.size ≤ orderPoolSize := by
    refine hroom (msgs.length + 1) m' ?_
    rw [List.take_of_length_le (by simp), MapBookEngine.run_append, hmrun]
    simp [MapBookEngine.run, hmap]
  exact ⟨e, m, e', m', n, hrun, hmrun, hagreed.sameBook, hstep, hmap, hcount,
    (hafter hsize).sameBook⟩

/-- Two asks at one price and one above, swept by a bid that leaves part of the last. -/
def sweptAsks : List EngineMessage :=
  [.newOrder { id := 1, side := .ask, price := 100, quantity := 5 },
    .newOrder { id := 2, side := .ask, price := 101, quantity := 5 },
    .newOrder { id := 3, side := .ask, price := 100, quantity := 5 }]

theorem run_agrees_sweptAsks :
    ∃ e m e' m' n, MatchingEngine.new.run sweptAsks = some e ∧
      MapBookEngine.run {} sweptAsks = some m ∧ SameBook e m ∧
      e.process (.newOrder { id := 4, price := 101, quantity := 12 }) = some e' ∧
      m.process (.newOrder { id := 4, price := 101, quantity := 12 }) = some (m', n) ∧
      e'.fills.length = n.toNat ∧ SameBook e' m' := by
  apply run_agrees sweptAsks (.newOrder { id := 4, price := 101, quantity := 12 })
  · decide
  · simp [sweptAsks, maxPriceTicks]
  · intro k m hk
    have hsize : ∀ j < 5, ((MapBookEngine.run {} ((sweptAsks ++
        [EngineMessage.newOrder { id := 4, price := 101, quantity := 12 }]).take j)).all
          fun m => decide (m.size ≤ 4)) = true := by decide +kernel
    have hfew := hsize (min k 4) (by omega)
    rw [show min k 4 = min k (sweptAsks ++
        [EngineMessage.newOrder { id := 4, price := 101, quantity := 12 }]).length from rfl,
      ← List.take_eq_take_min, hk] at hfew
    simp only [Option.all_some, decide_eq_true_eq] at hfew
    rw [orderPoolSize_eq]
    omega

end LockfreeMatching
