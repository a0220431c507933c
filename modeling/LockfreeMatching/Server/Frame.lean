import LockfreeMatching.Lib.Json
import LockfreeMatching.Server.DashboardHub

/-!
# Dashboard frames

The JSON text that the server sends to the dashboard and the value a client reads from it.

The text is put together from pieces that are formatted into one buffer of 160 bytes. The header
and the rows always fit. The two pieces with the statistics fit only as long as their numbers are
short: `snapshotJson_roundTrips_iff` says how short. A longer latency piece loses its comma, a
longer counter piece the closing braces, and no client can parse the frame.

Texts are lists of characters. The client keeps numbers exactly.
-/
namespace LockfreeMatching

open Lib Json

namespace DashboardHub

/-! ## Encoder -/

/-- What is left of a formatted text in a buffer of `size` bytes. -/
def snprintf (size : Nat) (text : List Char) : List Char := text.take (size - 1)

def bufSize : Nat := 160

/-- The conversions `%llu` and `%u`. -/
def unsignedText (n : Nat) : List Char := Nat.toDigits 10 n

/-- The conversions `%lld` and `%d`. -/
def signedText : Int → List Char
  | .ofNat n => Nat.toDigits 10 n
  | .negSucc n => '-' :: Nat.toDigits 10 (n + 1)

def headerText (hub : DashboardHub) (nowMs : UInt64) : List Char :=
  "\x7b\"t\":".toList ++ unsignedText nowMs.toNat ++ ",\"mode\":\"".toList ++ hub.mode.toList ++
    "\",\"product\":\"".toList ++ hub.product.toList ++ "\",\"bids\":[".toList

def levelText (l : Level) : List Char :=
  '[' :: signedText l.price ++ ',' :: unsignedText l.qty.toNat ++
    ',' :: unsignedText l.orders.toNat ++ [']']

def fillText (f : FillRow) : List Char :=
  '[' :: unsignedText f.seq.toNat ++ ',' :: unsignedText f.tsMs.toNat ++
    ',' :: signedText f.price ++ ',' :: unsignedText f.qty.toNat ++
    ',' :: signedText (if f.takerIsBid then 1 else 0) ++ [']']

/-- The rows of one array, each but the first behind a comma. -/
def rowsText {α : Type} (text : α → List Char) (rows : List α) : List Char :=
  rows.zipIdx.flatMap fun row =>
    snprintf bufSize ((if row.2 ≠ 0 then [','] else []) ++ text row.1)

def latencyText (s : Stats) : List Char :=
  "],\"stats\":\x7b\"match_p50\":".toList ++ unsignedText s.matchP50.toNat ++
    ",\"match_p95\":".toList ++ unsignedText s.matchP95.toNat ++
    ",\"match_p99\":".toList ++ unsignedText s.matchP99.toNat ++
    ",\"order_p50\":".toList ++ unsignedText s.orderP50.toNat ++
    ",\"order_p99\":".toList ++ unsignedText s.orderP99.toNat ++ ",".toList

def counterText (hub : DashboardHub) : List Char :=
  "\"processed\":".toList ++ unsignedText hub.stats.processed.toNat ++
    ",\"fills\":".toList ++ unsignedText hub.stats.fills.toNat ++
    ",\"pool_free\":".toList ++ unsignedText hub.stats.poolFree.toNat ++
    ",\"pool_capacity\":".toList ++ unsignedText hub.stats.poolCapacity.toNat ++
    ",\"dropped\":".toList ++ unsignedText hub.stats.dropped.toNat ++
    ",\"clients\":".toList ++ unsignedText hub.stats.clients.toNat ++
    ",\"book_bids\":".toList ++ unsignedText hub.totalBids.toNat ++
    ",\"book_asks\":".toList ++ unsignedText hub.totalAsks.toNat ++ "\x7d\x7d".toList

def snapshotJson (hub : DashboardHub) (nowMs : UInt64) : List Char :=
  snprintf bufSize (hub.headerText nowMs) ++ rowsText levelText hub.bids ++
    "],\"asks\":[".toList ++ rowsText levelText hub.asks ++
    "],\"fills\":[".toList ++ rowsText fillText hub.fillRows ++
    snprintf bufSize (latencyText hub.stats) ++ snprintf bufSize hub.counterText

/-! ## Decoder -/

/-- What the dashboard reads from a frame. -/
structure Frame where
  t : UInt64
  mode : List UInt16
  product : List UInt16
  bids : List Level
  asks : List Level
  fills : List FillRow
  stats : Stats
  bookBids : UInt64
  bookAsks : UInt64

def toInt : Json → Option Int
  | .num mantissa exponent => if exponent = 0 then some mantissa else none
  | _ => none

def toUInt64 (j : Json) : Option UInt64 :=
  (toInt j).bind fun n =>
    if 0 ≤ n ∧ n.toNat < UInt64.size then some (UInt64.ofNat n.toNat) else none

def toUInt32 (j : Json) : Option UInt32 :=
  (toInt j).bind fun n =>
    if 0 ≤ n ∧ n.toNat < UInt32.size then some (UInt32.ofNat n.toNat) else none

def toUnits : Json → Option (List UInt16)
  | .str s => some s
  | _ => none

def toLevel : Json → Option Level
  | .arr [price, qty, orders] => do
    some { price := ← toInt price, qty := ← toUInt64 qty, orders := ← toUInt32 orders }
  | _ => none

def toFillRow : Json → Option FillRow
  | .arr [seq, tsMs, price, qty, taker] => do
    some {
      seq := ← toUInt64 seq
      tsMs := ← toUInt64 tsMs
      price := ← toInt price
      qty := ← toUInt32 qty
      takerIsBid := (← toInt taker) = 1 }
  | _ => none

def toRows {α : Type} (row : Json → Option α) : Json → Option (List α)
  | .arr rows => rows.mapM row
  | _ => none

def toStats (j : Json) : Option Stats := do
  some {
    matchP50 := ← (j.field "match_p50").bind toUInt64
    matchP95 := ← (j.field "match_p95").bind toUInt64
    matchP99 := ← (j.field "match_p99").bind toUInt64
    orderP50 := ← (j.field "order_p50").bind toUInt64
    orderP99 := ← (j.field "order_p99").bind toUInt64
    processed := ← (j.field "processed").bind toUInt64
    fills := ← (j.field "fills").bind toUInt64
    poolFree := ← (j.field "pool_free").bind toUInt64
    poolCapacity := ← (j.field "pool_capacity").bind toUInt64
    dropped := ← (j.field "dropped").bind toUInt64
    clients := ← (j.field "clients").bind toUInt64 }

def toFrame (j : Json) : Option Frame := do
  let stats ← j.field "stats"
  some {
    t := ← (j.field "t").bind toUInt64
    mode := ← (j.field "mode").bind toUnits
    product := ← (j.field "product").bind toUnits
    bids := ← (j.field "bids").bind (toRows toLevel)
    asks := ← (j.field "asks").bind (toRows toLevel)
    fills := ← (j.field "fills").bind (toRows toFillRow)
    stats := ← toStats stats
    bookBids := ← (stats.field "book_bids").bind toUInt64
    bookAsks := ← (stats.field "book_asks").bind toUInt64 }

/-- The contents of the hub at time `nowMs`. -/
def frame (hub : DashboardHub) (nowMs : UInt64) : Frame where
  t := nowMs
  mode := units hub.mode.toList
  product := units hub.product.toList
  bids := hub.bids
  asks := hub.asks
  fills := hub.fillRows
  stats := hub.stats
  bookBids := hub.totalBids
  bookAsks := hub.totalAsks

/-- A client that parses the frame gets the contents of the hub. -/
def RoundTrips (hub : DashboardHub) (nowMs : UInt64) : Prop :=
  (parse (hub.snapshotJson nowMs)).bind toFrame = some (hub.frame nowMs)

/-! ## Meaning of the pieces -/

def levelJson (l : Level) : Json :=
  .arr [.num l.price 0, .num l.qty.toNat 0, .num l.orders.toNat 0]

def fillJson (f : FillRow) : Json :=
  .arr [.num f.seq.toNat 0, .num f.tsMs.toNat 0, .num f.price 0, .num f.qty.toNat 0,
    .num (if f.takerIsBid then 1 else 0) 0]

theorem reads_signedText (n : Int) : Reads (signedText n) (.num n 0) := by
  cases n with
  | ofNat n => exact Reads.nat n
  | negSucc n => exact Reads.neg (n + 1)

/-- An array written out. -/
theorem reads_arr {cells : List (List Char × Json)} (h : ∀ c ∈ cells, Reads c.1 c.2) :
    Reads ('[' :: ([','].intercalate (cells.map Prod.fst) ++ [']'])) (.arr (cells.map Prod.snd)) :=
  Reads.arr h

theorem reads_levelText (l : Level) : Reads (levelText l) (levelJson l) := by
  have hcells : ∀ c ∈ [(signedText l.price, Json.num l.price 0),
      (unsignedText l.qty.toNat, .num l.qty.toNat 0),
      (unsignedText l.orders.toNat, .num l.orders.toNat 0)], Reads c.1 c.2 := by
    simp only [List.forall_mem_cons]
    exact ⟨reads_signedText _, Reads.nat _, Reads.nat _, nofun⟩
  simpa [levelText, levelJson, List.intercalate] using reads_arr hcells

theorem reads_fillText (f : FillRow) : Reads (fillText f) (fillJson f) := by
  have hcells : ∀ c ∈ [(unsignedText f.seq.toNat, Json.num f.seq.toNat 0),
      (unsignedText f.tsMs.toNat, .num f.tsMs.toNat 0), (signedText f.price, .num f.price 0),
      (unsignedText f.qty.toNat, .num f.qty.toNat 0),
      (signedText (if f.takerIsBid then 1 else 0), .num (if f.takerIsBid then 1 else 0) 0)],
      Reads c.1 c.2 := by
    simp only [List.forall_mem_cons]
    exact ⟨Reads.nat _, Reads.nat _, reads_signedText _, Reads.nat _, reads_signedText _, nofun⟩
  simpa [fillText, fillJson, List.intercalate] using reads_arr hcells

def natMember (name : String) (n : UInt64) : Member where
  key := name.toList
  text := unsignedText n.toNat
  value := .num n.toNat 0

def strMember (name : String) (s : String) : Member where
  key := name.toList
  text := quoted s.toList
  value := .str (units s.toList)

def rowsMember {α : Type} (name : String) (text : α → List Char) (json : α → Json)
    (rows : List α) : Member where
  key := name.toList
  text := '[' :: ([','].intercalate (rows.map text) ++ [']'])
  value := .arr (rows.map json)

/-- The members of a frame before the statistics. -/
def fields (hub : DashboardHub) (nowMs : UInt64) : List Member :=
  [natMember "t" nowMs, strMember "mode" hub.mode, strMember "product" hub.product,
    rowsMember "bids" levelText levelJson hub.bids,
    rowsMember "asks" levelText levelJson hub.asks,
    rowsMember "fills" fillText fillJson hub.fillRows]

/-- The latencies but the last one, whose piece may be cut. -/
def latencies (s : Stats) : List Member :=
  [natMember "match_p50" s.matchP50, natMember "match_p95" s.matchP95,
    natMember "match_p99" s.matchP99, natMember "order_p50" s.orderP50]

def counters (hub : DashboardHub) : List Member :=
  [natMember "processed" hub.stats.processed, natMember "fills" hub.stats.fills,
    natMember "pool_free" hub.stats.poolFree, natMember "pool_capacity" hub.stats.poolCapacity,
    natMember "dropped" hub.stats.dropped, natMember "clients" hub.stats.clients,
    natMember "book_bids" hub.totalBids, natMember "book_asks" hub.totalAsks]

def statsMember (hub : DashboardHub) : Member :=
  let members := latencies hub.stats ++ natMember "order_p99" hub.stats.orderP99 :: hub.counters
  { key := "stats".toList
    text := '{' :: ([','].intercalate (members.map Member.label) ++ ['}'])
    value := .obj (members.map Member.entry) }

/-! ## Texts without truncation -/

/-- The pieces before the statistics. -/
def frontText (hub : DashboardHub) (nowMs : UInt64) : List Char :=
  hub.headerText nowMs ++ [','].intercalate (hub.bids.map levelText) ++ "],\"asks\":[".toList ++
    [','].intercalate (hub.asks.map levelText) ++ "],\"fills\":[".toList ++
    [','].intercalate (hub.fillRows.map fillText)

/-- The latency piece up to the last number. -/
def latencyFront (s : Stats) : List Char :=
  "],\"stats\":\x7b\"match_p50\":".toList ++ unsignedText s.matchP50.toNat ++
    ",\"match_p95\":".toList ++ unsignedText s.matchP95.toNat ++
    ",\"match_p99\":".toList ++ unsignedText s.matchP99.toNat ++
    ",\"order_p50\":".toList ++ unsignedText s.orderP50.toNat ++ ",\"order_p99\":".toList

theorem latencyText_eq (s : Stats) :
    latencyText s = latencyFront s ++ unsignedText s.orderP99.toNat ++ [','] := rfl

/-- Behind the key of the last latency. -/
theorem latencyFront_eq (s : Stats) :
    latencyFront s = ']' :: ',' :: (keyText "stats".toList ++
      ('{' :: (((latencies s).flatMap fun m => m.label ++ [',']) ++
        keyText "order_p99".toList))) := by
  unfold latencyFront
  simp only [latencies, List.flatMap_cons, List.flatMap_nil, Member.label, natMember,
    List.append_assoc, List.append_nil]
  rfl

theorem frontText_eq (hub : DashboardHub) (nowMs : UInt64) :
    hub.frontText nowMs ++ [']', ','] =
      '{' :: (hub.fields nowMs).flatMap fun m => m.label ++ [','] := by
  unfold frontText headerText
  simp only [fields, List.flatMap_cons, List.flatMap_nil, Member.label, natMember, strMember,
    rowsMember, quoted, List.append_assoc, List.append_nil, List.cons_append]
  rfl

theorem counterText_eq (hub : DashboardHub) :
    hub.counterText = [','].intercalate (hub.counters.map Member.label) ++ ['}', '}'] := by
  unfold counterText
  simp only [counters, List.map_cons, List.map_nil, Member.label, natMember,
    List.intercalate_cons_cons, List.intercalate_singleton, List.append_assoc]
  rfl

/-- Everything before the last latency. -/
theorem frontText_latencyFront (hub : DashboardHub) (nowMs : UInt64) :
    hub.frontText nowMs ++ latencyFront hub.stats =
      '{' :: (((hub.fields nowMs).flatMap fun m => m.label ++ [',']) ++ keyText "stats".toList ++
        ('{' :: (((latencies hub.stats).flatMap fun m => m.label ++ [',']) ++
          keyText "order_p99".toList))) := by
  rw [latencyFront_eq, List.append_cons, List.append_cons, List.append_assoc (frontText _ _),
    List.singleton_append, frontText_eq, List.cons_append, List.append_assoc]

theorem statsMember_text (hub : DashboardHub) :
    hub.statsMember.text = '{' :: (((latencies hub.stats).flatMap fun m => m.label ++ [',']) ++
      keyText "order_p99".toList ++ unsignedText hub.stats.orderP99.toNat ++ [','] ++
      [','].intercalate (hub.counters.map Member.label) ++ ['}']) := by
  have hcounters : hub.counters.map Member.label ≠ [] := List.cons_ne_nil _ _
  unfold statsMember
  simp only [List.map_append, List.map_cons]
  rw [intercalate_append _ (List.cons_ne_nil _ _),
    List.intercalate_cons_of_ne_nil hcounters, List.flatMap_map]
  simp only [Member.label, natMember, List.append_assoc]

theorem fullText_eq (hub : DashboardHub) (nowMs : UInt64) :
    hub.frontText nowMs ++ latencyText hub.stats ++ hub.counterText =
      '{' :: ([','].intercalate ((hub.fields nowMs ++ [hub.statsMember]).map Member.label) ++
        ['}']) := by
  have hstats : hub.statsMember.label = keyText "stats".toList ++ _ :=
    congrArg (keyText "stats".toList ++ ·) hub.statsMember_text
  rw [latencyText_eq, counterText_eq, ← List.append_assoc (frontText _ _),
    ← List.append_assoc (frontText _ _), frontText_latencyFront, List.map_append,
    List.map_singleton, intercalate_append _ (List.cons_ne_nil _ _), List.intercalate_singleton,
    List.flatMap_map, hstats]
  simp only [List.append_assoc, List.cons_append, List.nil_append]

/-! ## Meaning of a whole frame -/

def frameJson (hub : DashboardHub) (nowMs : UInt64) : Json :=
  .obj ((hub.fields nowMs ++ [hub.statsMember]).map Member.entry)

theorem natMember_sound {name : String} (hname : Plain name.toList) (n : UInt64) :
    (natMember name n).Sound := ⟨hname, Reads.nat _⟩

theorem strMember_sound {name s : String} (hname : Plain name.toList) (hs : Plain s.toList) :
    (strMember name s).Sound := ⟨hname, Reads.str hs⟩

theorem rowsMember_sound {α : Type} {name : String} (hname : Plain name.toList)
    {text : α → List Char} {json : α → Json} (h : ∀ r, Reads (text r) (json r)) (rows : List α) :
    (rowsMember name text json rows).Sound := ⟨hname, Reads.arr fun r _ => h r⟩

theorem fields_sound {hub : DashboardHub} (hmode : Plain hub.mode.toList)
    (hproduct : Plain hub.product.toList) (nowMs : UInt64) :
    ∀ m ∈ hub.fields nowMs, m.Sound := by
  simp only [fields, List.forall_mem_cons]
  exact ⟨natMember_sound (by decide) _, strMember_sound (by decide) hmode,
    strMember_sound (by decide) hproduct, rowsMember_sound (by decide) reads_levelText _,
    rowsMember_sound (by decide) reads_levelText _, rowsMember_sound (by decide) reads_fillText _,
    nofun⟩

theorem latencies_sound (s : Stats) : ∀ m ∈ latencies s, m.Sound := by
  simp only [latencies, List.forall_mem_cons]
  exact ⟨natMember_sound (by decide) _, natMember_sound (by decide) _,
    natMember_sound (by decide) _, natMember_sound (by decide) _, nofun⟩

theorem counters_sound (hub : DashboardHub) : ∀ m ∈ hub.counters, m.Sound := by
  simp only [counters, List.forall_mem_cons]
  exact ⟨natMember_sound (by decide) _, natMember_sound (by decide) _,
    natMember_sound (by decide) _, natMember_sound (by decide) _, natMember_sound (by decide) _,
    natMember_sound (by decide) _, natMember_sound (by decide) _, natMember_sound (by decide) _,
    nofun⟩

theorem statsMember_sound (hub : DashboardHub) : hub.statsMember.Sound := by
  have hkey : Plain "stats".toList := by decide
  refine ⟨hkey, Reads.obj ?_⟩
  simp only [List.forall_mem_append, List.forall_mem_cons]
  exact ⟨latencies_sound _, natMember_sound (by decide) _, hub.counters_sound⟩

/-- The pieces without truncation denote the contents of the hub. -/
theorem reads_fullText {hub : DashboardHub} (hmode : Plain hub.mode.toList)
    (hproduct : Plain hub.product.toList) (nowMs : UInt64) :
    Reads (hub.frontText nowMs ++ latencyText hub.stats ++ hub.counterText)
      (hub.frameJson nowMs) := by
  rw [fullText_eq]
  apply Reads.obj
  simp only [List.forall_mem_append, List.forall_mem_cons]
  exact ⟨fields_sound hmode hproduct nowMs, hub.statsMember_sound, nofun⟩

@[simp] theorem toUInt64_num (n : UInt64) : toUInt64 (.num n.toNat 0) = some n := by
  have hrange : 0 ≤ (n.toNat : Int) ∧ (n.toNat : Int).toNat < UInt64.size :=
    ⟨Int.natCast_nonneg _, n.toNat_lt_size⟩
  rw [toUInt64, toInt, if_pos rfl, Option.bind_some, if_pos hrange, Int.toNat_natCast,
    UInt64.ofNat_toNat]

@[simp] theorem toUInt32_num (n : UInt32) : toUInt32 (.num n.toNat 0) = some n := by
  have hrange : 0 ≤ (n.toNat : Int) ∧ (n.toNat : Int).toNat < UInt32.size :=
    ⟨Int.natCast_nonneg _, n.toNat_lt_size⟩
  rw [toUInt32, toInt, if_pos rfl, Option.bind_some, if_pos hrange, Int.toNat_natCast,
    UInt32.ofNat_toNat]

@[simp] theorem toInt_num (n : Int) : toInt (.num n 0) = some n := rfl

@[simp] theorem toLevel_levelJson (l : Level) : toLevel (levelJson l) = some l := by
  simp [toLevel, levelJson]

@[simp] theorem toFillRow_fillJson (f : FillRow) : toFillRow (fillJson f) = some f := by
  cases f with
  | mk seq tsMs price qty takerIsBid => cases takerIsBid <;> simp [toFillRow, fillJson]

theorem toRows_map {α : Type} {row : Json → Option α} {json : α → Json}
    (h : ∀ r, row (json r) = some r) (rows : List α) :
    toRows row (.arr (rows.map json)) = some rows := by
  rw [toRows]
  induction rows with
  | nil => rfl
  | cons r rows ih => simp [h, ih]

theorem toStats_statsMember (hub : DashboardHub) :
    toStats hub.statsMember.value = some hub.stats := by
  have hfield : ∀ name n, hub.statsMember.value.field name = some (.num (UInt64.toNat n) 0) →
      (hub.statsMember.value.field name).bind toUInt64 = some n := by
    intro name n h
    rw [h, Option.bind_some, toUInt64_num]
  unfold toStats
  simp only [hfield "match_p50" hub.stats.matchP50 rfl,
    hfield "match_p95" hub.stats.matchP95 rfl, hfield "match_p99" hub.stats.matchP99 rfl,
    hfield "order_p50" hub.stats.orderP50 rfl, hfield "order_p99" hub.stats.orderP99 rfl,
    hfield "processed" hub.stats.processed rfl, hfield "fills" hub.stats.fills rfl,
    hfield "pool_free" hub.stats.poolFree rfl, hfield "pool_capacity" hub.stats.poolCapacity rfl,
    hfield "dropped" hub.stats.dropped rfl, hfield "clients" hub.stats.clients rfl]
  rfl

theorem toFrame_frameJson (hub : DashboardHub) (nowMs : UInt64) :
    toFrame (hub.frameJson nowMs) = some (hub.frame nowMs) := by
  have ht : ((hub.frameJson nowMs).field "t").bind toUInt64 = some nowMs :=
    toUInt64_num nowMs
  have hmode : ((hub.frameJson nowMs).field "mode").bind toUnits = some (units hub.mode.toList) :=
    rfl
  have hproduct : ((hub.frameJson nowMs).field "product").bind toUnits =
      some (units hub.product.toList) := rfl
  have hbids : ((hub.frameJson nowMs).field "bids").bind (toRows toLevel) = some hub.bids :=
    toRows_map toLevel_levelJson hub.bids
  have hasks : ((hub.frameJson nowMs).field "asks").bind (toRows toLevel) = some hub.asks :=
    toRows_map toLevel_levelJson hub.asks
  have hfills : ((hub.frameJson nowMs).field "fills").bind (toRows toFillRow) =
      some hub.fillRows := toRows_map toFillRow_fillJson hub.fillRows
  have hstats : (hub.frameJson nowMs).field "stats" = some hub.statsMember.value := rfl
  have hbookBids : (hub.statsMember.value.field "book_bids").bind toUInt64 = some hub.totalBids :=
    toUInt64_num hub.totalBids
  have hbookAsks : (hub.statsMember.value.field "book_asks").bind toUInt64 = some hub.totalAsks :=
    toUInt64_num hub.totalAsks
  unfold toFrame
  simp only [hstats, ht, hmode, hproduct, hbids, hasks, hfills, Option.bind_eq_bind,
    Option.bind_some, toStats_statsMember, hbookBids, hbookAsks]
  rfl

/-! ## Widths -/

def width (n : UInt64) : Nat := (unsignedText n.toNat).length

/-- Total width of the latencies. -/
def latencyWidth (s : Stats) : Nat :=
  width s.matchP50 + width s.matchP95 + width s.matchP99 + width s.orderP50 + width s.orderP99

/-- Total width of the counters. -/
def counterWidth (hub : DashboardHub) : Nat :=
  width hub.stats.processed + width hub.stats.fills + width hub.stats.poolFree +
    width hub.stats.poolCapacity + width hub.stats.dropped + width hub.stats.clients +
    width hub.totalBids + width hub.totalAsks

theorem length_latencyText (s : Stats) : (latencyText s).length = 76 + latencyWidth s := by
  unfold latencyText
  simp only [List.length_append, String.reduceToList, List.length_cons, List.length_nil,
    latencyWidth, width]
  omega

theorem length_counterText (hub : DashboardHub) :
    hub.counterText.length = 101 + hub.counterWidth := by
  unfold counterText
  simp only [List.length_append, String.reduceToList, List.length_cons, List.length_nil,
    counterWidth, width]
  omega

theorem length_unsignedText_le {n k : Nat} (hk : 0 < k) (hn : n < 10 ^ k) :
    (unsignedText n).length ≤ k := (Nat.length_toDigits_le_iff (by decide) hk).2 hn

/-- A 64-bit number has at most twenty digits. -/
theorem width_le (n : UInt64) : width n ≤ 20 :=
  length_unsignedText_le (by decide) (lt_trans n.toNat_lt (by norm_num))

theorem length_qty_le (n : UInt32) : (unsignedText n.toNat).length ≤ 10 :=
  length_unsignedText_le (by decide) (lt_trans n.toNat_lt (by norm_num))

/-- The range of a price in the source. -/
def IsInt64 (p : Int) : Prop := -9223372036854775808 ≤ p ∧ p ≤ 9223372036854775807

theorem length_signedText_le {p : Int} (hp : IsInt64 p) : (signedText p).length ≤ 20 := by
  obtain ⟨hlow, hhigh⟩ := hp
  cases p with
  | ofNat n =>
    have hn : n < 10 ^ 20 := by simp only [Int.ofNat_eq_natCast] at hhigh; omega
    exact length_unsignedText_le (by decide) hn
  | negSucc n =>
    have hn : n + 1 < 10 ^ 19 := by omega
    exact Nat.succ_le_succ (length_unsignedText_le (by decide) hn)

/-! ## Rows and header -/

theorem snprintf_of_lt {text : List Char} (h : text.length < bufSize) :
    snprintf bufSize text = text := List.take_of_length_le (Nat.le_sub_one_of_lt h)

theorem flatMap_zipIdx_succ {α : Type} {text : α → List Char} {rows : List α}
    (h : ∀ r ∈ rows, (text r).length + 1 < bufSize) (k : Nat) :
    ((rows.zipIdx (k + 1)).flatMap fun row =>
      snprintf bufSize ((if row.2 ≠ 0 then [','] else []) ++ text row.1)) =
      rows.flatMap fun r => ',' :: text r := by
  induction rows generalizing k with
  | nil => rfl
  | cons r rows ih =>
    have hr : snprintf bufSize (',' :: text r) = ',' :: text r :=
      snprintf_of_lt (h r List.mem_cons_self)
    rw [List.zipIdx_cons, List.flatMap_cons, List.flatMap_cons,
      ih (fun r hr => h r (List.mem_cons_of_mem _ hr))]
    simp [hr]

theorem rowsText_eq {α : Type} {text : α → List Char} {rows : List α}
    (h : ∀ r ∈ rows, (text r).length + 1 < bufSize) :
    rowsText text rows = [','].intercalate (rows.map text) := by
  cases rows with
  | nil => rfl
  | cons r rows =>
    have hr : snprintf bufSize (text r) = text r :=
      snprintf_of_lt (Nat.lt_of_succ_lt (h r List.mem_cons_self))
    rw [rowsText, List.zipIdx_cons, List.flatMap_cons,
      flatMap_zipIdx_succ (fun r hr => h r (List.mem_cons_of_mem _ hr)), List.map_cons,
      intercalate_cons, List.flatMap_map]
    simp [hr]

theorem levelText_fits {l : Level} (hl : IsInt64 l.price) :
    (levelText l).length + 1 < bufSize := by
  have hprice := length_signedText_le hl
  have hqty := width_le l.qty
  have horders := length_qty_le l.orders
  rw [width] at hqty
  simp only [levelText, List.length_append, List.length_cons, List.length_nil, bufSize]
  omega

theorem fillText_fits {f : FillRow} (hf : IsInt64 f.price) :
    (fillText f).length + 1 < bufSize := by
  have hseq := width_le f.seq
  have hts := width_le f.tsMs
  have hprice := length_signedText_le hf
  have hqty := length_qty_le f.qty
  have htaker : (signedText (if f.takerIsBid then 1 else 0)).length ≤ 20 :=
    length_signedText_le (by split_ifs <;> simp [IsInt64])
  rw [width] at hseq hts
  simp only [fillText, List.length_append, List.length_cons, List.length_nil, bufSize]
  omega

theorem headerText_fits {hub : DashboardHub} (hmode : hub.mode.toList.length ≤ 9)
    (hproduct : hub.product.toList.length ≤ 32) (nowMs : UInt64) :
    (hub.headerText nowMs).length < bufSize := by
  have hnow := width_le nowMs
  have hlen : (hub.headerText nowMs).length =
      37 + width nowMs + hub.mode.toList.length + hub.product.toList.length := by
    unfold headerText
    simp only [List.length_append, String.reduceToList, List.length_cons, List.length_nil, width]
    omega
  rw [hlen, bufSize]
  omega

/-- A row of the tape is a stored one or the blank one. -/
theorem mem_fillRows {hub : DashboardHub} {f : FillRow} (hf : f ∈ hub.fillRows) :
    f ∈ hub.fills ∨ f = {} := by
  obtain ⟨i, -, rfl⟩ := List.mem_map.1 hf
  rw [List.getD_eq_getElem?_getD]
  cases hget : hub.fills[(hub.fillHead + fillKeep - hub.fillCount + i) % fillKeep]? with
  | none => exact .inr rfl
  | some f => exact .inl (List.mem_of_getElem? hget)

section Sent

variable {hub : DashboardHub} {nowMs : UInt64}

/-- Truncation can only hit the two pieces with the statistics. -/
theorem snapshotJson_eq (hmode : hub.mode.toList.length ≤ 9)
    (hproduct : hub.product.toList.length ≤ 32) (hbids : ∀ l ∈ hub.bids, IsInt64 l.price)
    (hasks : ∀ l ∈ hub.asks, IsInt64 l.price) (hfills : ∀ f ∈ hub.fills, IsInt64 f.price) :
    hub.snapshotJson nowMs = hub.frontText nowMs ++ snprintf bufSize (latencyText hub.stats) ++
      snprintf bufSize hub.counterText := by
  have hrows : ∀ f ∈ hub.fillRows, (fillText f).length + 1 < bufSize := by
    intro f hf
    rcases mem_fillRows hf with hmem | rfl
    · exact fillText_fits (hfills f hmem)
    · exact fillText_fits (by simp [IsInt64])
  rw [snapshotJson, frontText, snprintf_of_lt (headerText_fits hmode hproduct nowMs),
    rowsText_eq fun l hl => levelText_fits (hbids l hl),
    rowsText_eq fun l hl => levelText_fits (hasks l hl), rowsText_eq hrows]

/-- The last latency loses its comma, and maybe digits, but never all of them. -/
theorem snprintf_latencyText (s : Stats) (hwide : 83 < latencyWidth s) :
    ∃ ds, ds ≠ [] ∧ (∀ c ∈ ds, c.isDigit = true) ∧
      snprintf bufSize (latencyText s) = latencyFront s ++ ds := by
  have h1 := width_le s.matchP50
  have h2 := width_le s.matchP95
  have h3 := width_le s.matchP99
  have h4 := width_le s.orderP50
  have hlen := length_latencyText s
  rw [latencyText_eq] at hlen ⊢
  simp only [List.length_append, List.length_singleton] at hlen
  simp only [latencyWidth] at hwide hlen
  have hwidth : (unsignedText s.orderP99.toNat).length = width s.orderP99 := rfl
  refine ⟨(unsignedText s.orderP99.toNat).take (159 - (latencyFront s).length), ?_, ?_, ?_⟩
  · intro hnil
    rw [List.take_eq_nil_iff] at hnil
    rcases hnil with hzero | hnil
    · omega
    · exact Nat.toDigits_ne_nil hnil
  · intro c hc
    exact Nat.isDigit_of_mem_toDigits (by decide) (by decide) (List.mem_of_mem_take hc)
  · rw [snprintf, List.append_assoc, List.take_append,
      List.take_of_length_le (by simp [bufSize]; omega),
      List.take_append_of_le_length (by simp [bufSize]; omega)]
    rfl

/-- The counter piece starts with a key. -/
theorem snprintf_counterText (hub : DashboardHub) :
    ∃ rest, snprintf bufSize hub.counterText = '"' :: rest := by
  rw [counterText_eq, counters, List.map_cons, intercalate_cons, Member.label, keyText, quoted]
  exact ⟨_, rfl⟩

theorem parse_latency_cut (hmode : Plain hub.mode.toList) (hproduct : Plain hub.product.toList)
    (hwide : 83 < latencyWidth hub.stats) :
    parse (hub.frontText nowMs ++ snprintf bufSize (latencyText hub.stats) ++
      snprintf bufSize hub.counterText) = none := by
  obtain ⟨ds, hne, hds, hcut⟩ := snprintf_latencyText hub.stats hwide
  obtain ⟨rest, hrest⟩ := hub.snprintf_counterText
  have hkey : Plain "stats".toList := by decide
  have hkey' : Plain "order_p99".toList := by decide
  have hrun : run ⟨[], .value⟩ (hub.frontText nowMs ++ latencyFront hub.stats ++
      (ds ++ '"' :: rest)) = none := by
    rw [frontText_latencyFront]
    simp only [List.cons_append, List.append_assoc]
    rw [← List.append_assoc, run_member (fields_sound hmode hproduct nowMs) hkey,
      ← List.append_assoc, run_member (latencies_sound hub.stats) hkey']
    exact run_digits_quote hne hds
  rw [hcut, hrest, parse, ← List.append_assoc, List.append_assoc _ ds, hrun]
  rfl

/-- The text lacks at least its last brace. -/
theorem parse_counter_cut (hmode : Plain hub.mode.toList) (hproduct : Plain hub.product.toList)
    (hwide : 58 < hub.counterWidth) :
    parse (hub.frontText nowMs ++ latencyText hub.stats ++ snprintf bufSize hub.counterText) =
      none := by
  obtain ⟨text, hbrace⟩ : ∃ text, hub.counterText = text ++ ['}'] :=
    ⟨_, hub.counterText_eq.trans (List.append_assoc _ ['}'] ['}']).symm⟩
  have hlen := hub.length_counterText
  rw [hbrace, List.length_append, List.length_singleton] at hlen
  have hsplit : hub.counterText =
      snprintf bufSize hub.counterText ++ text.drop (bufSize - 1) ++ ['}'] := by
    rw [snprintf, List.append_assoc, ← List.drop_append_of_le_length (by simp [bufSize]; omega),
      ← hbrace, List.take_append_drop]
  have hreads := reads_fullText hmode hproduct nowMs
  rw [hsplit, ← List.append_assoc, ← List.append_assoc] at hreads
  exact hreads.parse_prefix

theorem roundTrips_of_fits (hmode : Plain hub.mode.toList) (hproduct : Plain hub.product.toList)
    (hlatency : latencyWidth hub.stats ≤ 83) (hcounter : hub.counterWidth ≤ 58) :
    (parse (hub.frontText nowMs ++ snprintf bufSize (latencyText hub.stats) ++
      snprintf bufSize hub.counterText)).bind toFrame = some (hub.frame nowMs) := by
  have hlen := length_latencyText hub.stats
  have hlen' := hub.length_counterText
  rw [snprintf_of_lt (by rw [bufSize]; omega), snprintf_of_lt (by rw [bufSize]; omega),
    (reads_fullText hmode hproduct nowMs).parse, Option.bind_some, toFrame_frameJson]

end Sent

/-- No control character is a letter or a digit. -/
theorem le_toNat_of_isAlphanum {c : Char} (h : c.isAlphanum = true) : 0x20 ≤ c.toNat := by
  by_contra hlow
  rw [← Char.ofNat_toNat c] at h
  generalize c.toNat = k at h hlow
  have hk : k < 32 := by omega
  interval_cases k <;> exact absurd h (by decide)

theorem plain_of_alphanum {s : List Char} (h : ∀ c ∈ s, c.isAlphanum = true ∨ c = '-') :
    Plain s := by
  intro c hc
  rcases h c hc with halpha | rfl
  · refine ⟨?_, ?_, le_toNat_of_isAlphanum halpha⟩
    · rintro rfl
      exact absurd halpha (by decide)
    · rintro rfl
      exact absurd halpha (by decide)
  · decide

/-- A frame can be read back exactly if the five latencies have at most 83 digits together and the
eight counters at most 58. -/
theorem snapshotJson_roundTrips_iff (hub : DashboardHub) (nowMs : UInt64)
    (hmode : hub.mode = "live" ∨ hub.mode = "synthetic")
    (hproduct : hub.product.toList.length ≤ 32 ∧
      ∀ c ∈ hub.product.toList, c.isAlphanum = true ∨ c = '-')
    (hbids : ∀ l ∈ hub.bids, IsInt64 l.price) (hasks : ∀ l ∈ hub.asks, IsInt64 l.price)
    (hfills : ∀ f ∈ hub.fills, IsInt64 f.price) :
    hub.RoundTrips nowMs ↔ latencyWidth hub.stats ≤ 83 ∧ hub.counterWidth ≤ 58 := by
  have hmode' : hub.mode.toList.length ≤ 9 ∧ Plain hub.mode.toList := by
    rcases hmode with h | h <;> rw [h] <;> decide
  have hproduct' := plain_of_alphanum hproduct.2
  rw [RoundTrips, snapshotJson_eq hmode'.1 hproduct.1 hbids hasks hfills]
  constructor
  · intro h
    by_contra hwide
    by_cases hlatency : latencyWidth hub.stats ≤ 83
    · have hlen := length_latencyText hub.stats
      rw [snprintf_of_lt (show (latencyText hub.stats).length < bufSize by rw [bufSize]; omega),
        parse_counter_cut hmode'.2 hproduct' (by omega)] at h
      cases h
    · rw [parse_latency_cut hmode'.2 hproduct' (by omega)] at h
      cases h
  · rintro ⟨hlatency, hcounter⟩
    exact roundTrips_of_fits hmode'.2 hproduct' hlatency hcounter

/-- Levels and fills at the two ends of the price range. -/
theorem snapshotJson_roundTrips_rows :
    DashboardHub.RoundTrips
      { mode := "live", product := "BTC-USD"
        bids := [⟨9223372036854775807, 18446744073709551615, 4294967295⟩, ⟨9999, 5, 1⟩]
        asks := [⟨-9223372036854775808, 7, 2⟩]
        fills := [⟨1, 1700000000000, 10000, 3, true⟩, ⟨2, 1700000000001, 9999, 4, false⟩]
        fillHead := 2, fillCount := 2, stats.processed := 12, totalBids := 2, totalAsks := 1 }
      1700000000002 := by
  have hproduct : ∀ c ∈ "BTC-USD".toList, c.isAlphanum = true ∨ c = '-' := by
    simp
  apply (snapshotJson_roundTrips_iff _ _ (.inl rfl) ⟨by decide, hproduct⟩ ?_ ?_ ?_).2
  · decide
  · simp [IsInt64]
  · simp [IsInt64]
  · simp [IsInt64]

/-- The counters of a long session, 59 digits together. -/
def longSession : DashboardHub where
  mode := "live"
  product := "BTC-USD"
  totalBids := 1000
  totalAsks := 1000
  stats :=
    { processed := 100000000000
      fills := 100000000000
      poolFree := 1000000
      poolCapacity := 1048576
      dropped := 100000000000
      clients := 1 }

/-- Its frame ends with one brace instead of two. -/
theorem longSession_not_roundTrips : ¬ longSession.RoundTrips 1700000000000 := by
  have hparse : (parse (longSession.snapshotJson 1700000000000)).isNone = true := by
    decide +kernel
  rw [RoundTrips, Option.isNone_iff_eq_none.1 hparse]
  exact nofun

end DashboardHub

end LockfreeMatching
