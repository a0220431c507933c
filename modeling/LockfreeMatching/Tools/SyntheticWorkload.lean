import LockfreeMatching.Core.Types
import Mathlib.Data.List.Nodup
import Mathlib.Data.List.Perm.Basic
import Mathlib.Data.Rat.Defs
import Mathlib.Tactic.Linarith

/-!
# Synthetic workload

The order flow of the generator tool and the benchmarks. Doubles are rationals here, and a decimal
constant stands for the double nearest to it. They decide which branch is taken. The conversion of
dollars to ticks, which divides doubles, rounds and casts to an integer, is a parameter; what it
returns is clamped.

The random engine and its distributions belong to the standard library. `Rng` takes them as
functions of a state, which also holds what the normal distribution saves between two draws, and
promises only that each draw lies in the range of its distribution.
-/
namespace LockfreeMatching

/-! ## Prices in dollars -/

def dollarsPerTick : Rat := 1 / 100

/-! ## Swap and pop -/

section SwapAndPop

variable {α : Type} {xs : List α} {i : Nat}

/-- Swap the entry at `i` with the last one and drop it. -/
def swapAndPop (xs : List α) (i : Nat) : Option (α × List α) :=
  xs[i]?.bind fun x => xs.getLast?.map fun back =>
    (x, ((xs.set i back).set (xs.length - 1) x).dropLast)

/-- What is left is a rearrangement of the other entries, also when the last one is taken. -/
theorem swapAndPop_perm (h : i < xs.length) :
    ∃ x rest, swapAndPop xs i = some (x, rest) ∧ (x :: rest).Perm xs := by
  rcases List.eq_nil_or_concat' xs with rfl | ⟨front, back, rfl⟩
  · simp at h
  have hback := List.perm_append_singleton back front
  by_cases hlast : i < front.length
  · refine ⟨front[i], front.set i back, ?_, ?_⟩
    · simp [swapAndPop, List.getElem?_append_left hlast, List.set_append_left _ _ hlast, hlast]
    · -- the last entry takes the place of the one taken
      have hset := (List.set_perm_cons_eraseIdx hlast back).cons front[i]
      have hget := (List.getElem_cons_eraseIdx_perm hlast).cons back
      exact hset.trans ((List.Perm.swap _ _ _).trans (hget.trans hback.symm))
  · obtain rfl : i = front.length := by simp at h; omega
    exact ⟨back, front, by simp [swapAndPop], hback.symm⟩

end SwapAndPop

/-! ## Generator -/

structure WorkloadConfig where
  cancelRate : Rat := 1 / 5
  marketRate : Rat := 1 / 10
  priceMeanDollars : Rat := 100
  priceStddevDollars : Rat := 2
  minQuantity : Quantity := 1
  maxQuantity : Quantity := 500
  seed : UInt64 := 42

/-- A random engine with state `ρ` and the distributions over it. -/
structure Rng (ρ : Type) where
  seed : UInt64 → ρ
  normal : Rat → Rat → ρ → Rat × ρ
  uniformReal : Rat → Rat → ρ → Rat × ρ
  uniformInt : Nat → Nat → ρ → Nat × ρ
  uniformReal_range : ∀ lo hi r, lo < hi →
    lo ≤ (uniformReal lo hi r).1 ∧ (uniformReal lo hi r).1 < hi
  uniformInt_range : ∀ lo hi r, lo ≤ hi →
    lo ≤ (uniformInt lo hi r).1 ∧ (uniformInt lo hi r).1 ≤ hi

structure WorkloadGenerator (ρ : Type) where
  cfg : WorkloadConfig
  rng : ρ
  liveIds : List OrderId := []
  nextId : OrderId := 1
  logicalClock : Timestamp := 0

namespace WorkloadGenerator

variable {ρ : Type} (R : Rng ρ) (dollarsToTicks : Rat → Int)

def new (cfg : WorkloadConfig) : WorkloadGenerator ρ := { cfg, rng := R.seed cfg.seed }

def makeNewOrder (g : WorkloadGenerator ρ) : NewOrderMessage × WorkloadGenerator ρ :=
  let side := R.uniformReal 0 1 g.rng
  let type := R.uniformReal 0 1 side.2
  let price := R.normal g.cfg.priceMeanDollars g.cfg.priceStddevDollars type.2
  let quantity := R.uniformInt g.cfg.minQuantity.toNat g.cfg.maxQuantity.toNat price.2
  let dollars := max dollarsPerTick price.1
  let msg : NewOrderMessage :=
    { id := g.nextId
      side := if side.1 < 1 / 2 then .bid else .ask
      type := if type.1 < g.cfg.marketRate then .market else .limit
      price := max 1 (min (dollarsToTicks dollars) (maxPriceTicks - 1))
      quantity := UInt32.ofNat quantity.1
      timestamp := g.logicalClock + 1 }
  (msg,
    { g with
      rng := quantity.2
      nextId := g.nextId + 1
      logicalClock := g.logicalClock + 1
      -- only limit orders can rest, so only they are cancel candidates
      liveIds := if msg.type = .limit then g.liveIds ++ [msg.id] else g.liveIds })

/-- Cancel the live order at a random index. It fails where the index is outside the vector. -/
def makeCancel (g : WorkloadGenerator ρ) : Option (CancelMessage × WorkloadGenerator ρ) :=
  let idx := R.uniformInt 0 (g.liveIds.length - 1) g.rng
  (swapAndPop g.liveIds idx.1).map fun taken =>
    ({ id := taken.1, timestamp := g.logicalClock + 1 },
      { g with
        rng := idx.2
        logicalClock := g.logicalClock + 1
        liveIds := taken.2 })

/-- The next message of the stream. No coin is tossed while nothing can be cancelled. -/
def next (g : WorkloadGenerator ρ) : Option (EngineMessage × WorkloadGenerator ρ) :=
  if g.liveIds.isEmpty then
    some ((makeNewOrder R dollarsToTicks g).map .newOrder id)
  else
    let coin := R.uniformReal 0 1 g.rng
    let g := { g with rng := coin.2 }
    if coin.1 < g.cfg.cancelRate then
      (makeCancel R g).map (Prod.map .cancel id)
    else some ((makeNewOrder R dollarsToTicks g).map .newOrder id)

/-- The first messages of the stream. -/
def generate (g : WorkloadGenerator ρ) : Nat → Option (List EngineMessage × WorkloadGenerator ρ)
  | 0 => some ([], g)
  | n + 1 => (generate g n).bind fun run => (next R dollarsToTicks run.2).map fun step =>
      (run.1 ++ [step.1], step.2)

/-! ## One message -/

/-- What producing one message does to the counters and the live orders. -/
inductive Produces (g : WorkloadGenerator ρ) : EngineMessage → WorkloadGenerator ρ → Prop
  | newOrder {msg : NewOrderMessage} {g' : WorkloadGenerator ρ} (id : msg.id = g.nextId)
      (price : 1 ≤ msg.price ∧ msg.price ≤ maxPriceTicks - 1)
      (timestamp : msg.timestamp = g.logicalClock + 1) (nextId : g'.nextId = g.nextId + 1)
      (clock : g'.logicalClock = g.logicalClock + 1)
      (live : g'.liveIds = if msg.type = .limit then g.liveIds ++ [msg.id] else g.liveIds) :
      Produces g (.newOrder msg) g'
  | cancel {msg : CancelMessage} {g' : WorkloadGenerator ρ}
      (live : (msg.id :: g'.liveIds).Perm g.liveIds)
      (timestamp : msg.timestamp = g.logicalClock + 1) (nextId : g'.nextId = g.nextId)
      (clock : g'.logicalClock = g.logicalClock + 1) :
      Produces g (.cancel msg) g'

theorem makeNewOrder_produces (g : WorkloadGenerator ρ) :
    Produces g (.newOrder (makeNewOrder R dollarsToTicks g).1)
      (makeNewOrder R dollarsToTicks g).2 := by
  apply Produces.newOrder <;> try rfl
  simp only [makeNewOrder, maxPriceTicks]
  omega

theorem makeCancel_produces {g : WorkloadGenerator ρ} (hlive : g.liveIds ≠ []) :
    ∃ msg g', makeCancel R g = some (msg, g') ∧ Produces g (.cancel msg) g' := by
  have hpos := List.length_pos_iff.2 hlive
  have hidx := (R.uniformInt_range 0 (g.liveIds.length - 1) g.rng (Nat.zero_le _)).2
  have hlt : (R.uniformInt 0 (g.liveIds.length - 1) g.rng).1 < g.liveIds.length := by omega
  obtain ⟨id, rest, hpop, hperm⟩ := swapAndPop_perm hlt
  have hmake := makeCancel.eq_1 R g
  rw [hpop, Option.map_some] at hmake
  exact ⟨_, _, hmake, .cancel hperm rfl rfl rfl⟩

/-- Every call returns a message, whatever is drawn. -/
theorem next_produces (g : WorkloadGenerator ρ) :
    ∃ msg g', next R dollarsToTicks g = some (msg, g') ∧ Produces g msg g' := by
  unfold next
  split_ifs with hempty
  · exact ⟨_, _, rfl, makeNewOrder_produces R dollarsToTicks g⟩
  · -- tossing the coin changes the state of the random engine only
    simp only
    split_ifs with hcoin
    · obtain ⟨msg, g', hmake, hprod⟩ := makeCancel_produces R
        (g := { g with rng := (R.uniformReal 0 1 g.rng).2 }) (by simpa using hempty)
      refine ⟨.cancel msg, g', by rw [hmake]; rfl, ?_⟩
      cases hprod with
      | cancel live timestamp nextId clock => exact .cancel live timestamp nextId clock
    · refine ⟨_, _, rfl, ?_⟩
      have hprod := makeNewOrder_produces R dollarsToTicks
        { g with rng := (R.uniformReal 0 1 g.rng).2 }
      cases hprod with
      | newOrder id price timestamp nextId clock live =>
        exact .newOrder id price timestamp nextId clock live

/-! ## Well-formed streams -/

end WorkloadGenerator

def EngineMessage.timestamp : EngineMessage → Timestamp
  | .newOrder msg => msg.timestamp
  | .cancel msg => msg.timestamp

/-- The limit orders created by a stream. -/
def limitIds (out : List EngineMessage) : List OrderId :=
  ((submitted out).filter (·.type = .limit)).map (·.id)

namespace WorkloadGenerator

variable {ρ : Type} (R : Rng ρ) (dollarsToTicks : Rat → Int) {g g' : WorkloadGenerator ρ}
  {out : List EngineMessage} {msg : EngineMessage}

/-- A stream `out` that leads to the generator `g`: orders and messages are numbered from one, a
cancel names an earlier limit order that was not cancelled before, and the live ids are the limit
orders not cancelled so far. -/
structure WellFormed (out : List EngineMessage) (g : WorkloadGenerator ρ) : Prop where
  ids : (submitted out).map (·.id.toNat) = List.range' 1 (submitted out).length
  timestamps : out.map (·.timestamp.toNat) = List.range' 1 out.length
  cancels : ∀ pre c post, out = pre ++ .cancel c :: post →
    c.id ∈ limitIds pre ∧ c.id ∉ cancelledIds pre
  nodup : g.liveIds.Nodup
  live : ∀ id, id ∈ g.liveIds ↔ id ∈ limitIds out ∧ id ∉ cancelledIds out

/-- The counters after `out`. They wrap around. -/
structure Counts (out : List EngineMessage) (g : WorkloadGenerator ρ) : Prop where
  nextId : g.nextId = UInt64.ofNat ((submitted out).length + 1)
  clock : g.logicalClock = UInt64.ofNat out.length

theorem Counts.step (h : Counts out g) (hprod : Produces g msg g') : Counts (out ++ [msg]) g' := by
  cases hprod with
  | newOrder id price timestamp nextId clock live =>
    constructor
    · simp [nextId, h.nextId, UInt64.ofNat_add]
    · simp [clock, h.clock, UInt64.ofNat_add]
  | cancel live timestamp nextId clock =>
    constructor
    · simp [nextId, h.nextId]
    · simp [clock, h.clock, UInt64.ofNat_add]

@[simp] theorem limitIds_append (a b : List EngineMessage) :
    limitIds (a ++ b) = limitIds a ++ limitIds b := by
  simp [limitIds]

@[simp] theorem limitIds_newOrder (m : NewOrderMessage) :
    limitIds [.newOrder m] = if m.type = .limit then [m.id] else [] := by
  split_ifs with h <;> simp [limitIds, h]

@[simp] theorem limitIds_cancel (c : CancelMessage) : limitIds [.cancel c] = [] := rfl

theorem WellFormed.new (cfg : WorkloadConfig) : WellFormed [] (new R cfg) where
  ids := rfl
  timestamps := rfl
  cancels pre c post h := by simp at h
  nodup := List.nodup_nil
  live := by simp [WorkloadGenerator.new, limitIds, submitted]

/-- The next number is not the id of any order so far. -/
theorem WellFormed.fresh (h : WellFormed out g) (hc : Counts out g)
    (hlen : (submitted out).length + 1 < 2 ^ 64) : g.nextId ∉ (submitted out).map (·.id) := by
  intro hmem
  obtain ⟨m, hm, hid⟩ := List.mem_map.1 hmem
  have hnat : m.id.toNat ∈ List.range' 1 (submitted out).length :=
    h.ids ▸ List.mem_map_of_mem hm
  rw [hid, hc.nextId, UInt64.toNat_ofNat', Nat.mod_eq_of_lt hlen, List.mem_range'_1] at hnat
  omega

theorem limitIds_subset (out : List EngineMessage) :
    limitIds out ⊆ (submitted out).map (·.id) :=
  List.map_subset _ (List.filter_subset_self _)

/-- Only limit orders of the stream are cancelled. -/
theorem WellFormed.cancelledIds_subset (h : WellFormed out g) :
    cancelledIds out ⊆ limitIds out := by
  intro id hid
  obtain ⟨m, hm, he⟩ := List.mem_filterMap.1 hid
  cases m with
  | newOrder => cases he
  | cancel c =>
    cases he
    obtain ⟨pre, post, rfl⟩ := List.append_of_mem hm
    simp only [limitIds_append, List.mem_append]
    exact .inl (h.cancels pre c post rfl).1

/-- Only the last message of a longer stream is new. -/
theorem WellFormed.cancels_step (h : WellFormed out g) (msg : EngineMessage)
    (hlast : ∀ c, msg = .cancel c → c.id ∈ limitIds out ∧ c.id ∉ cancelledIds out) :
    ∀ pre c post, out ++ [msg] = pre ++ .cancel c :: post →
      c.id ∈ limitIds pre ∧ c.id ∉ cancelledIds pre := by
  intro pre c post heq
  rcases List.eq_nil_or_concat' post with rfl | ⟨post, m, rfl⟩
  · obtain ⟨rfl, hmsg⟩ := List.append_inj' heq rfl
    exact hlast c (by simpa using hmsg)
  · rw [← List.cons_append, ← List.append_assoc] at heq
    exact h.cancels pre c post (List.append_inj' heq rfl).1

theorem Produces.timestamp (hprod : Produces g msg g') :
    msg.timestamp = g.logicalClock + 1 := by
  cases hprod <;> assumption

theorem WellFormed.timestamps_step (h : WellFormed out g) (hc : Counts out g)
    (hlen : out.length + 1 < 2 ^ 64) (hprod : Produces g msg g') :
    (out ++ [msg]).map (·.timestamp.toNat) = List.range' 1 (out ++ [msg]).length := by
  have hstamp : msg.timestamp.toNat = 1 + out.length := by
    rw [hprod.timestamp, hc.clock, UInt64.toNat_add, UInt64.toNat_ofNat',
      Nat.mod_eq_of_lt (a := out.length) (by omega)]
    simp only [UInt64.toNat_one]
    omega
  simp [h.timestamps, hstamp, List.range'_concat]

theorem WellFormed.ids_step (h : WellFormed out g) (hc : Counts out g) {m : NewOrderMessage}
    (hlen : (submitted out).length + 1 < 2 ^ 64) (hid : m.id = g.nextId) :
    (submitted (out ++ [.newOrder m])).map (·.id.toNat) =
      List.range' 1 (submitted (out ++ [.newOrder m])).length := by
  have hnat : m.id.toNat = 1 + (submitted out).length := by
    rw [hid, hc.nextId, UInt64.toNat_ofNat', Nat.mod_eq_of_lt hlen, Nat.add_comm]
  simp [h.ids, hnat, List.range'_concat]

theorem length_submitted_le (out : List EngineMessage) : (submitted out).length ≤ out.length :=
  List.length_filterMap_le _ _

theorem WellFormed.step (h : WellFormed out g) (hc : Counts out g)
    (hlen : out.length + 1 < 2 ^ 64) (hprod : Produces g msg g') :
    WellFormed (out ++ [msg]) g' := by
  have hstamps := h.timestamps_step hc hlen hprod
  have hsub : (submitted out).length + 1 < 2 ^ 64 :=
    lt_of_le_of_lt (Nat.succ_le_succ (length_submitted_le out)) hlen
  cases hprod with
  | @newOrder m _ id price timestamp nextId clock live =>
    have hids := h.ids_step hc hsub id
    have hcancels := h.cancels_step (.newOrder m) nofun
    by_cases htype : m.type = .limit
    · -- the number is new, so the order was neither created nor cancelled before
      have hfresh : m.id ∉ limitIds out := fun hmem =>
        h.fresh hc hsub (id ▸ limitIds_subset out hmem)
      have hkept : m.id ∉ cancelledIds out := fun hmem => hfresh (h.cancelledIds_subset hmem)
      rw [if_pos htype] at live
      refine ⟨hids, hstamps, hcancels, ?_, ?_⟩
      · rw [live, List.nodup_append_comm, List.singleton_append, List.nodup_cons]
        exact ⟨fun hmem => hfresh ((h.live _).1 hmem).1, h.nodup⟩
      · intro x
        simp only [live, List.mem_append, List.mem_singleton, h.live, limitIds_append,
          limitIds_newOrder, if_pos htype, cancelledIds_append, cancelledIds_newOrder,
          List.append_nil]
        grind
    · rw [if_neg htype] at live
      refine ⟨hids, hstamps, hcancels, live ▸ h.nodup, ?_⟩
      simp [live, h.live, htype]
  | @cancel c _ live timestamp nextId clock =>
    obtain ⟨hgone, hnodup⟩ := List.nodup_cons.1 (live.nodup_iff.2 h.nodup)
    have hnamed := (h.live c.id).1 (live.subset List.mem_cons_self)
    refine ⟨by simpa using h.ids, hstamps, h.cancels_step _ ?_, hnodup, ?_⟩
    · rintro _ ⟨rfl⟩
      exact hnamed
    · intro x
      have hx := live.mem_iff (a := x)
      simp only [limitIds_append, limitIds_cancel, List.append_nil, cancelledIds_append,
        cancelledIds_cancel, List.mem_append, List.mem_singleton]
      rw [h.live, List.mem_cons] at hx
      grind

/-! ## Every run -/

/-- Whatever is drawn, the generator never indexes outside its vector and prices stay inside the
level array. Up to the last value of the 64-bit counters the stream is well-formed. -/
theorem generate_wellFormed (cfg : WorkloadConfig) (n : Nat) :
    ∃ out g, generate R dollarsToTicks (new R cfg) n = some (out, g) ∧ out.length = n ∧
      Counts out g ∧
      (∀ m ∈ submitted out, 1 ≤ m.price ∧ m.price ≤ maxPriceTicks - 1) ∧
      (n < 2 ^ 64 → WellFormed out g) := by
  induction n with
  | zero =>
    exact ⟨[], _, rfl, rfl, ⟨rfl, rfl⟩, by simp [submitted], fun _ => WellFormed.new R cfg⟩
  | succ n ih =>
    obtain ⟨out, g, hgen, hlen, hcounts, hprices, hwf⟩ := ih
    obtain ⟨msg, g', hnext, hprod⟩ := next_produces R dollarsToTicks g
    refine ⟨out ++ [msg], g', ?_, by simp [hlen], hcounts.step hprod, ?_, ?_⟩
    · simp only [generate, hgen, hnext, Option.bind_some, Option.map_some]
    · cases hprod with
      | newOrder id price => grind [submitted_append, submitted_newOrder]
      | cancel => simpa using hprices
    · intro hn
      exact (hwf (by omega)).step hcounts (by omega) hprod

/-- A random engine that counts its draws. A draw from a uniform range is the low end where the
script says so, else a real one is the middle and an integer the high end. -/
def scripted (low : Nat → Bool) : Rng Nat where
  seed _ := 0
  normal mean _ r := (mean, r + 1)
  uniformReal lo hi r := (if low r then lo else (lo + hi) / 2, r + 1)
  uniformInt lo hi r := (if low r then lo else hi, r + 1)
  uniformReal_range lo hi r h := by
    constructor <;> split_ifs <;> linarith
  uniformInt_range lo hi r h := by
    constructor <;> split_ifs <;> omega

/-- The conversion where the doubles happen to be exact. -/
def nearestTick (dollars : Rat) : Int := (dollars / dollarsPerTick + 1 / 2).floor

/-- A limit order and its cancel: the fifth draw is the first coin of the second message. -/
theorem generate_wellFormed_two :
    ∃ out g, generate (scripted (· == 4)) nearestTick (new (scripted (· == 4)) {}) 2 =
        some (out, g) ∧
      out = [.newOrder ⟨1, .ask, .limit, 10000, 500, 1⟩, .cancel ⟨1, 2⟩] ∧ WellFormed out g := by
  obtain ⟨out, g, hgen, -, -, -, hwf⟩ := generate_wellFormed (scripted (· == 4)) nearestTick {} 2
  refine ⟨out, g, hgen, ?_, hwf (by decide)⟩
  have hrun : (generate (scripted (· == 4)) nearestTick (new (scripted (· == 4)) {}) 2).map
      Prod.fst = some [.newOrder ⟨1, .ask, .limit, 10000, 500, 1⟩, .cancel ⟨1, 2⟩] := by
    decide +kernel
  rw [hgen] at hrun
  exact Option.some.inj hrun

/-! ## The counters wrap around -/

/-- Every message takes five draws but the first, which takes four: it tosses no coin for a
cancel. The coin for the type is low for the messages from the second to number `2 ^ 64`, and no
other draw is. -/
def marketDraw (r : Nat) : Bool := r % 5 = 1 ∧ 1 < r ∧ r < 5 * 2 ^ 64

theorem marketDraw_eq (n k : Nat) (hk : k < 5) :
    marketDraw (5 * n + k) = decide (k = 1 ∧ 0 < n ∧ n < 2 ^ 64) := by
  unfold marketDraw
  congr 1
  apply propext
  omega

/-- The draw for the type decides whether the order can rest. -/
theorem makeNewOrder_liveIds (low : Nat → Bool) {g : WorkloadGenerator Nat} (hcfg : g.cfg = {}) :
    (makeNewOrder (scripted low) nearestTick g).2.liveIds =
      if low (g.rng + 1) then g.liveIds else g.liveIds ++ [g.nextId] := by
  have hlimit : ¬ ((0 : Rat) + 1) / 2 < 1 / 10 := by norm_num
  have hmarket : (0 : Rat) < 1 / 10 := by norm_num
  cases hlow : low (g.rng + 1)
  · simp only [makeNewOrder, scripted, hcfg, hlow, Bool.false_eq_true, if_false, if_neg hlimit,
      if_true]
  · simp only [makeNewOrder, scripted, hcfg, hlow, if_true, if_pos hmarket, reduceCtorEq, if_false]

/-- The first message is a limit order. -/
theorem next_first {g : WorkloadGenerator Nat} (hcfg : g.cfg = {}) (hrng : g.rng = 0)
    (hlive : g.liveIds = []) :
    ∃ m g', next (scripted marketDraw) nearestTick g = some (.newOrder m, g') ∧ g'.cfg = {} ∧
      g'.rng = 4 ∧ g'.nextId = g.nextId + 1 ∧ g'.liveIds = [g.nextId] := by
  have hlive' := makeNewOrder_liveIds marketDraw hcfg
  rw [hrng, hlive, if_neg (by decide)] at hlive'
  refine ⟨_, _, if_pos (by rw [hlive]; rfl), hcfg, ?_, rfl, hlive'⟩
  show g.rng + 1 + 1 + 1 + 1 = 4
  rw [hrng]

/-- A later message is a market order before the last id is used up. -/
theorem next_later {g : WorkloadGenerator Nat} {n : Nat} (hcfg : g.cfg = {})
    (hrng : g.rng = 5 * n + 4) (hlive : g.liveIds ≠ []) :
    ∃ m g', next (scripted marketDraw) nearestTick g = some (.newOrder m, g') ∧ g'.cfg = {} ∧
      g'.rng = 5 * (n + 1) + 4 ∧ g'.nextId = g.nextId + 1 ∧
      g'.liveIds = if n + 1 < 2 ^ 64 then g.liveIds else g.liveIds ++ [g.nextId] := by
  have hcoin : marketDraw g.rng = false := by
    rw [hrng, marketDraw_eq n 4 (by omega)]
    simp
  have hcancel : ¬ ((scripted marketDraw).uniformReal 0 1 g.rng).1 < g.cfg.cancelRate := by
    simp only [scripted, hcfg, hcoin, Bool.false_eq_true, if_false]
    norm_num
  have htype : marketDraw (g.rng + 1 + 1) = decide (n + 1 < 2 ^ 64) := by
    rw [hrng, show 5 * n + 4 + 1 + 1 = 5 * (n + 1) + 1 by omega, marketDraw_eq _ 1 (by omega)]
    simp
  have hlive' := makeNewOrder_liveIds marketDraw (g := { g with rng := g.rng + 1 }) hcfg
  simp only [htype, decide_eq_true_eq] at hlive'
  let made := makeNewOrder (scripted marketDraw) nearestTick { g with rng := g.rng + 1 }
  refine ⟨made.1, made.2, ?_, hcfg, ?_, rfl, hlive'⟩
  · rw [next, if_neg (by simpa using hlive)]
    exact if_neg hcancel
  · show g.rng + 1 + 1 + 1 + 1 + 1 = _
    omega

/-- As long as the ids last, the first order is the only limit order. -/
theorem generate_marketDraw {n : Nat} (hn : n < 2 ^ 64) :
    ∃ out g, generate (scripted marketDraw) nearestTick (new (scripted marketDraw) {}) (n + 1) =
        some (out, g) ∧ g.cfg = {} ∧ g.rng = 5 * n + 4 ∧ g.nextId = UInt64.ofNat (n + 2) ∧
      g.liveIds = [1] := by
  induction n with
  | zero =>
    obtain ⟨m, g, hnext, hcfg, hrng, hid, hlive⟩ :=
      next_first (g := new (scripted marketDraw) {}) rfl rfl rfl
    exact ⟨[.newOrder m], g, by rw [generate, generate, Option.bind_some, hnext]; rfl, hcfg, hrng,
      hid, hlive⟩
  | succ n ih =>
    obtain ⟨out, g, hgen, hcfg, hrng, hid, hlive⟩ := ih (by omega)
    obtain ⟨m, g', hnext, hcfg', hrng', hid', hlive'⟩ := next_later hcfg hrng (by simp [hlive])
    refine ⟨out ++ [.newOrder m], g', ?_, hcfg', hrng', ?_, ?_⟩
    · rw [generate, hgen, Option.bind_some, hnext]
      rfl
    · rw [hid', hid, UInt64.ofNat_add (n + 2) 1]
      rfl
    · rw [hlive', if_pos hn, hlive]

/-- A limit order, market orders up to the wrap of the ids, then a limit order again: the order
with id one is live twice. -/
theorem generate_repeats_liveId :
    ∃ out g, generate (scripted marketDraw) nearestTick (new (scripted marketDraw) {})
        (2 ^ 64 + 1) = some (out, g) ∧ g.liveIds = [1, 1] ∧ ¬ g.liveIds.Nodup := by
  obtain ⟨out, g, hgen, hcfg, hrng, hid, hlive⟩ := generate_marketDraw (n := 2 ^ 64 - 1) (by omega)
  obtain ⟨m, g', hnext, -, -, -, hlive'⟩ := next_later hcfg hrng (by simp [hlive])
  have htwice : g'.liveIds = [1, 1] := by
    rw [hlive', if_neg (by omega), hlive, hid]
    decide
  refine ⟨out ++ [.newOrder m], g', ?_, htwice, by simp [htwice]⟩
  rw [show 2 ^ 64 + 1 = (2 ^ 64 - 1 + 1) + 1 by omega, generate, hgen, Option.bind_some, hnext]
  rfl

end WorkloadGenerator

end LockfreeMatching
