import Mathlib.Data.List.Basic
import Mathlib.Tactic.IntervalCases

/-!
# JSON texts

A parser for JSON as an automaton with a stack, which reads one character at a time, and rules
for texts that are put together from pieces.

`Reads text v` says that `text` denotes the value `v` wherever a value is expected. There is one
rule for each kind of value, so that the meaning of a text follows its pieces and the automaton
is never run on a text as a whole.

## Main results

* `Reads.parse`: a text that denotes a value parses to it.
* `Reads.arr`, `Reads.obj`: elements and members between commas.
* `Reads.parse_prefix`: no proper prefix of a text that ends with a brace parses.
* `run_digits_quote`: digits and a quote after them are not the start of a JSON text.
-/
namespace LockfreeMatching.Lib

/-- A number is `mantissa * 10 ^ exponent`, a string its UTF-16 code units. -/
inductive Json where
  | null
  | bool (b : Bool)
  | num (mantissa exponent : Int)
  | str (units : List UInt16)
  | arr (elems : List Json)
  | obj (members : List (List UInt16 × Json))

namespace Json

/-! ## Strings and numbers -/

def charUnits (c : Char) : List UInt16 :=
  if c.toNat < 0x10000 then [UInt16.ofNat c.toNat]
  else [UInt16.ofNat (0xD800 + (c.toNat - 0x10000) / 0x400),
    UInt16.ofNat (0xDC00 + (c.toNat - 0x10000) % 0x400)]

def units (s : List Char) : List UInt16 := s.flatMap charUnits

/-- The last member of that name. -/
def field (name : String) : Json → Option Json
  | obj members => members.reverse.lookup (units name.toList)
  | _ => none

def digit (c : Char) : Nat := c.toNat - '0'.toNat

def hexDigit (c : Char) : Option Nat :=
  if c.isDigit then some (digit c)
  else if 'a' ≤ c ∧ c ≤ 'f' then some (c.toNat - 'a'.toNat + 10)
  else if 'A' ≤ c ∧ c ≤ 'F' then some (c.toNat - 'A'.toNat + 10)
  else none

def signed (neg : Bool) (n : Nat) : Int := if neg then -n else n

/-- How far a number has been read. -/
inductive Phase where
  | minus | zero | int | dot | frac | exp | expSign | expDigits
deriving DecidableEq

structure Number where
  phase : Phase
  neg : Bool := false
  mantissa : Nat := 0
  /-- Digits after the point. -/
  places : Nat := 0
  expNeg : Bool := false
  exponent : Nat := 0

namespace Number

def value (n : Number) : Json :=
  .num (signed n.neg n.mantissa) (signed n.expNeg n.exponent - n.places)

def isComplete (n : Number) : Bool :=
  n.phase = .zero || n.phase = .int || n.phase = .frac || n.phase = .expDigits

def start (neg : Bool) (c : Char) : Option Number :=
  if c = '0' then some { phase := .zero, neg }
  else if c.isDigit then some { phase := .int, neg, mantissa := digit c }
  else none

def startExp (n : Number) (c : Char) : Option Number :=
  if c = 'e' ∨ c = 'E' then some { n with phase := .exp } else none

/-- Read one more character of the number. -/
def more (n : Number) (c : Char) : Option Number :=
  match n.phase with
  | .minus => start n.neg c
  | .zero => if c = '.' then some { n with phase := .dot } else n.startExp c
  | .int =>
    if c.isDigit then some { n with mantissa := 10 * n.mantissa + digit c }
    else if c = '.' then some { n with phase := .dot }
    else n.startExp c
  | .dot => fraction n c
  | .frac => if c.isDigit then fraction n c else n.startExp c
  | .exp =>
    if c = '+' ∨ c = '-' then some { n with phase := .expSign, expNeg := c = '-' }
    else expDigit n c
  | .expSign | .expDigits => expDigit n c
where
  fraction (n : Number) (c : Char) : Option Number :=
    if c.isDigit then
      some { n with
        phase := .frac
        mantissa := 10 * n.mantissa + digit c
        places := n.places + 1 }
    else none
  expDigit (n : Number) (c : Char) : Option Number :=
    if c.isDigit then some { n with phase := .expDigits, exponent := 10 * n.exponent + digit c }
    else none

end Number

/-! ## Automaton -/

/-- A container that is still open, with what was read of it: `member` waits for the value of a
key. -/
inductive Open where
  | arr (elems : List Json)
  | obj (members : List (List UInt16 × Json))
  | member (members : List (List UInt16 × Json)) (key : List UInt16)

/-- What is read at the moment. `first` and `firstKey` stand after an opening bracket, where the
container may also end; `after` follows a complete entry of a container. -/
inductive Mode where
  | value
  | first
  | firstKey
  | key
  | colon
  | after
  | done (v : Json)
  | text (isKey : Bool) (units : List UInt16)
  | escape (isKey : Bool) (units : List UInt16)
  | hex (isKey : Bool) (units : List UInt16) (left code : Nat)
  | literal (rest : List Char) (v : Json)
  | number (n : Number)

structure State where
  stack : List Open
  mode : Mode

/-- The value `v` is complete. -/
def complete (stack : List Open) (v : Json) : State :=
  match stack with
  | [] => ⟨[], .done v⟩
  | .arr elems :: st => ⟨.arr (elems ++ [v]) :: st, .after⟩
  | .member members key :: st => ⟨.obj (members ++ [(key, v)]) :: st, .after⟩
  | .obj members :: st => ⟨.obj members :: st, .after⟩

def isSpace (c : Char) : Bool := c = ' ' || c = '\t' || c = '\n' || c = '\r'

def stepValue (st : List Open) (c : Char) : Option State :=
  if c = '"' then some ⟨st, .text false []⟩
  else if c = '[' then some ⟨.arr [] :: st, .first⟩
  else if c = '{' then some ⟨.obj [] :: st, .firstKey⟩
  else if c = 't' then some ⟨st, .literal ['r', 'u', 'e'] (.bool true)⟩
  else if c = 'f' then some ⟨st, .literal ['a', 'l', 's', 'e'] (.bool false)⟩
  else if c = 'n' then some ⟨st, .literal ['u', 'l', 'l'] .null⟩
  else if c = '-' then some ⟨st, .number { phase := .minus, neg := true }⟩
  else (Number.start false c).map fun n => ⟨st, .number n⟩

def stepLiteral (st : List Open) (rest : List Char) (v : Json) (c : Char) : Option State :=
  match rest with
  | [] => none
  | r :: rest =>
    if c = r then some (if rest.isEmpty then complete st v else ⟨st, .literal rest v⟩) else none

/-- The closing quote of a string. -/
def closeText (st : List Open) (isKey : Bool) (s : List UInt16) : Option State :=
  if isKey then
    match st with
    | .obj members :: st => some ⟨.member members s :: st, .colon⟩
    | _ => none
  else some (complete st (.str s))

def stepText (st : List Open) (isKey : Bool) (s : List UInt16) (c : Char) : Option State :=
  if c = '"' then closeText st isKey s
  else if c = '\\' then some ⟨st, .escape isKey s⟩
  else if c.toNat < 0x20 then none
  else some ⟨st, .text isKey (s ++ charUnits c)⟩

/-- The character behind a backslash, other than `u`. -/
def escaped (c : Char) : Option Char :=
  if c = '"' ∨ c = '\\' ∨ c = '/' then some c
  else if c = 'b' then some '\x08'
  else if c = 'f' then some '\x0c'
  else if c = 'n' then some '\n'
  else if c = 'r' then some '\r'
  else if c = 't' then some '\t'
  else none

def stepEscape (st : List Open) (isKey : Bool) (s : List UInt16) (c : Char) : Option State :=
  if c = 'u' then some ⟨st, .hex isKey s 4 0⟩
  else (escaped c).map fun c => ⟨st, .text isKey (s ++ charUnits c)⟩

def stepHex (st : List Open) (isKey : Bool) (s : List UInt16) (left code : Nat) (c : Char) :
    Option State :=
  (hexDigit c).map fun d =>
    if left = 1 then ⟨st, .text isKey (s ++ [UInt16.ofNat (16 * code + d)])⟩
    else ⟨st, .hex isKey s (left - 1) (16 * code + d)⟩

/-- A character that follows a complete value. -/
def stepAfter (s : State) (c : Char) : Option State :=
  if isSpace c then some s
  else match s.stack, s.mode with
    | .arr elems :: st, .after =>
      if c = ',' then some ⟨.arr elems :: st, .value⟩
      else if c = ']' then some (complete st (.arr elems))
      else none
    | .obj members :: st, .after =>
      if c = ',' then some ⟨.obj members :: st, .key⟩
      else if c = '}' then some (complete st (.obj members))
      else none
    | _, _ => none

def step (s : State) (c : Char) : Option State :=
  match s.mode with
  | .value => if isSpace c then some s else stepValue s.stack c
  | .first =>
    if isSpace c then some s
    else if c = ']' then some (complete s.stack.tail (.arr []))
    else stepValue s.stack c
  | .firstKey =>
    if isSpace c then some s
    else if c = '}' then some (complete s.stack.tail (.obj []))
    else if c = '"' then some ⟨s.stack, .text true []⟩
    else none
  | .key =>
    if isSpace c then some s
    else if c = '"' then some ⟨s.stack, .text true []⟩
    else none
  | .colon =>
    if isSpace c then some s
    else if c = ':' then some ⟨s.stack, .value⟩
    else none
  | .after | .done _ => stepAfter s c
  | .text isKey units => stepText s.stack isKey units c
  | .escape isKey units => stepEscape s.stack isKey units c
  | .hex isKey units left code => stepHex s.stack isKey units left code c
  | .literal rest v => stepLiteral s.stack rest v c
  | .number n =>
    -- a number ends at the first character that does not continue it
    match n.more c with
    | some n => some ⟨s.stack, .number n⟩
    | none => if n.isComplete then stepAfter (complete s.stack n.value) c else none

def run (s : State) (text : List Char) : Option State := text.foldlM step s

def finish (s : State) : Option Json :=
  match s.stack, s.mode with
  | [], .done v => some v
  | [], .number n => if n.isComplete then some n.value else none
  | _, _ => none

def parse (text : List Char) : Option Json := (run ⟨[], .value⟩ text).bind finish

/-! ## Runs -/

variable {s t : State} {st : List Open} {text rest : List Char} {v : Json} {c : Char}

@[simp] theorem run_nil (s : State) : run s [] = some s := rfl

theorem run_cons (s : State) (c : Char) (text : List Char) :
    run s (c :: text) = (step s c).bind fun s => run s text := rfl

theorem run_append (s : State) (a b : List Char) :
    run s (a ++ b) = (run s a).bind fun s => run s b := List.foldlM_append

theorem run_cons_some (h : step s c = some t) (text : List Char) :
    run s (c :: text) = run t text := by
  rw [run_cons, h, Option.bind_some]

theorem run_append_some (h : run s text = some t) (rest : List Char) :
    run s (text ++ rest) = run t rest := by
  rw [run_append, h, Option.bind_some]

theorem step_complete (st : List Open) (v : Json) (c : Char) :
    step (complete st v) c = stepAfter (complete st v) c := by
  rcases st with _ | ⟨_ | _ | _, _⟩ <;> rfl

/-- The characters that can follow an entry of a container. -/
def Delimiter (c : Char) : Prop := c = ',' ∨ c = ']' ∨ c = '}'

/-- The states `s` and `t` go on alike at a delimiter and at the end of the text. -/
structure Closes (s t : State) : Prop where
  step : ∀ c, Delimiter c → step s c = step t c
  finish : finish s = finish t

theorem Closes.refl (s : State) : Closes s s := ⟨fun _ _ => rfl, rfl⟩

/-- The text denotes the value, wherever one is expected. -/
def Reads (text : List Char) (v : Json) : Prop :=
  ∀ st, ∃ s, run ⟨st, .value⟩ text = some s ∧ Closes s (complete st v)

theorem Reads.parse (h : Reads text v) : parse text = some v := by
  obtain ⟨s, hrun, hs⟩ := h []
  rw [Json.parse, hrun, Option.bind_some, hs.finish]
  rfl

/-! ## Numbers -/

def Number.ofNat (neg : Bool) (n : Nat) : Number where
  phase := if n = 0 then .zero else .int
  neg := neg
  mantissa := n

theorem Number.start_digitChar (neg : Bool) {n : Nat} (hn : n < 10) :
    Number.start neg n.digitChar = some (.ofNat neg n) := by
  interval_cases n <;> rfl

theorem isDigit_digitChar {n : Nat} (hn : n < 10) : n.digitChar.isDigit = true := by
  rw [Nat.isDigit_digitChar, decide_eq_true hn]

theorem exists_digitChar (hc : c.isDigit = true) : ∃ n < 10, n.digitChar = c := by
  have hrange : 48 ≤ c.toNat ∧ c.toNat ≤ 57 := by
    simpa [Char.isDigit, UInt32.le_iff_toNat_le] using hc
  rw [← Char.ofNat_toNat c]
  generalize c.toNat = k at hrange
  obtain ⟨hlo, hhi⟩ := hrange
  refine ⟨k - 48, by omega, ?_⟩
  interval_cases k <;> rfl

theorem digit_digitChar {n : Nat} (hn : n < 10) : digit n.digitChar = n := by
  interval_cases n <;> rfl

/-- The digits of a number, read by a state that expects the first one. -/
theorem run_toDigits {neg : Bool} (hstart : ∀ c, c.isDigit = true →
      step s c = (Number.start neg c).map fun n => ⟨st, .number n⟩) (n : Nat) :
    run s (Nat.toDigits 10 n) = some ⟨st, .number (.ofNat neg n)⟩ := by
  induction n using Nat.strong_induction_on with
  | _ n ih =>
    by_cases hn : n < 10
    · have hstep := hstart _ (isDigit_digitChar hn)
      rw [Number.start_digitChar neg hn] at hstep
      rw [Nat.toDigits_of_lt_base hn]
      exact run_cons_some hstep []
    · have hlt : n % 10 < 10 := Nat.mod_lt _ (by omega)
      have hdig : (n % 10).digitChar.isDigit = true := isDigit_digitChar hlt
      rw [Nat.toDigits_of_base_le (by omega) (by omega), run_append_some (ih (n / 10) (by omega)),
        run_cons]
      simp only [step, Number.more, Number.ofNat, if_neg (show n / 10 ≠ 0 by omega), hdig,
        if_true, Option.bind_some, run_nil, digit_digitChar hlt, if_neg (show n ≠ 0 by omega)]
      rw [Nat.div_add_mod]

/-- Only digits, the point, the exponent and its sign continue a number. -/
theorem Number.more_eq_none (hdigit : c.isDigit = false) (hc : c ∉ ['.', 'e', 'E', '+', '-'])
    (n : Number) : n.more c = none := by
  have hzero : c ≠ '0' := by
    rintro rfl
    exact absurd hdigit (by decide)
  simp only [List.mem_cons, List.not_mem_nil, or_false, not_or] at hc
  cases hphase : n.phase <;>
    simp [Number.more, hphase, Number.start, Number.startExp, Number.more.fraction,
      Number.more.expDigit, hdigit, hc, hzero]

theorem closes_ofNat (neg : Bool) (n : Nat) (st : List Open) :
    Closes ⟨st, .number (.ofNat neg n)⟩ (complete st (.num (signed neg n) 0)) := by
  have hvalue : (Number.ofNat neg n).value = .num (signed neg n) 0 := rfl
  have hcomplete : (Number.ofNat neg n).isComplete = true := by
    by_cases hn : n = 0 <;> simp [Number.isComplete, Number.ofNat, hn]
  constructor
  · intro c hc
    have hmore : (Number.ofNat neg n).more c = none := by
      rcases hc with rfl | rfl | rfl <;> exact Number.more_eq_none (by decide) (by decide) _
    rw [step_complete, step]
    simp only [hmore, hcomplete, if_true, hvalue]
  · rcases st with _ | ⟨_ | _ | _, _⟩
    · simp only [finish, complete, hcomplete, if_true, hvalue]
    all_goals rfl

/-- A value that starts with a digit is a number. -/
theorem step_value_digit (hc : c.isDigit = true) :
    step ⟨st, .value⟩ c = (Number.start false c).map fun n => ⟨st, .number n⟩ := by
  obtain ⟨n, hn, rfl⟩ := exists_digitChar hc
  interval_cases n <;> rfl

theorem step_minus_digit (hc : c.isDigit = true) :
    step ⟨st, .number { phase := .minus, neg := true }⟩ c =
      (Number.start true c).map fun n => ⟨st, .number n⟩ := by
  obtain ⟨n, hn, rfl⟩ := exists_digitChar hc
  interval_cases n <;> rfl

theorem Reads.nat (n : Nat) : Reads (Nat.toDigits 10 n) (.num n 0) := fun st =>
  ⟨_, run_toDigits (fun _ => step_value_digit) n, closes_ofNat false n st⟩

theorem Reads.neg (n : Nat) : Reads ('-' :: Nat.toDigits 10 n) (.num (-n) 0) := fun st =>
  ⟨_, run_toDigits (fun _ => step_minus_digit) n, closes_ofNat true n st⟩

/-- A digit that does not belong to a number read so far is an error. -/
theorem step_number_digit (n : Number) (hc : c.isDigit = true) :
    step ⟨st, .number n⟩ c = (n.more c).map fun n => ⟨st, .number n⟩ := by
  cases hmore : n.more c with
  | some n' => simp only [step, hmore, Option.map_some]
  | none =>
    have hafter : stepAfter (complete st n.value) c = none := by
      obtain ⟨d, hd, rfl⟩ := exists_digitChar hc
      rcases st with _ | ⟨_ | _ | _, _⟩ <;> interval_cases d <;> rfl
    simp only [step, hmore, hafter, ite_self, Option.map_none]

theorem run_number_digits_quote (n : Number) {ds : List Char}
    (hds : ∀ c ∈ ds, c.isDigit = true) :
    run ⟨st, .number n⟩ (ds ++ '"' :: rest) = none := by
  induction ds generalizing n with
  | nil =>
    have hmore := n.more_eq_none (c := '"') (by decide) (by decide)
    have hafter : stepAfter (complete st n.value) '"' = none := by
      rcases st with _ | ⟨_ | _ | _, _⟩ <;> rfl
    simp only [List.nil_append, run_cons, step, hmore, hafter, ite_self, Option.bind_none]
  | cons d ds ih =>
    obtain ⟨hd, hds⟩ := List.forall_mem_cons.1 hds
    rw [List.cons_append, run_cons, step_number_digit n hd]
    cases hmore : n.more d with
    | none => rfl
    | some n' => exact ih n' hds

/-- Digits with a quote after them are no value. -/
theorem run_digits_quote {ds : List Char} (hne : ds ≠ []) (hds : ∀ c ∈ ds, c.isDigit = true) :
    run ⟨st, .value⟩ (ds ++ '"' :: rest) = none := by
  obtain ⟨d, ds, rfl⟩ := List.exists_cons_of_ne_nil hne
  obtain ⟨hd, hds⟩ := List.forall_mem_cons.1 hds
  rw [List.cons_append, run_cons, step_value_digit hd]
  cases hstart : Number.start false d with
  | none => rfl
  | some n => exact run_number_digits_quote n hds

/-! ## Strings -/

/-- Text that stands for itself between quotes. -/
def Plain (s : List Char) : Prop := ∀ c ∈ s, c ≠ '"' ∧ c ≠ '\\' ∧ 0x20 ≤ c.toNat

instance (s : List Char) : Decidable (Plain s) := List.decidableBAll _ s

def quoted (s : List Char) : List Char := '"' :: (s ++ ['"'])

theorem run_plain {k : List Char} (hk : Plain k) (isKey : Bool) (u : List UInt16) :
    run ⟨st, .text isKey u⟩ k = some ⟨st, .text isKey (u ++ units k)⟩ := by
  induction k generalizing u with
  | nil => simp [units]
  | cons c k ih =>
    obtain ⟨⟨hquote, hback, hlow⟩, hk⟩ := List.forall_mem_cons.1 hk
    have hstep : step ⟨st, .text isKey u⟩ c = some ⟨st, .text isKey (u ++ charUnits c)⟩ := by
      simp only [step, stepText, if_neg hquote, if_neg hback, if_neg (Nat.not_lt.2 hlow)]
    rw [run_cons_some hstep, ih hk]
    simp [units]

/-- A string, read by a state that expects its opening quote. -/
theorem run_quoted {k : List Char} (hk : Plain k) {isKey : Bool}
    (hopen : step s '"' = some ⟨st, .text isKey []⟩) :
    run s (quoted k) = closeText st isKey (units k) := by
  have hclose : step ⟨st, .text isKey (units k)⟩ '"' = closeText st isKey (units k) := rfl
  rw [quoted, run_cons_some hopen, run_append_some (run_plain hk isKey []), List.nil_append,
    run_cons, hclose]
  cases closeText st isKey (units k) <;> rfl

theorem Reads.str {k : List Char} (hk : Plain k) : Reads (quoted k) (.str (units k)) := by
  intro st
  have hopen : step ⟨st, .value⟩ '"' = some ⟨st, .text false []⟩ := rfl
  exact ⟨_, run_quoted hk hopen, Closes.refl _⟩

/-! ## Containers -/

/-- How a container is read: `box` holds the entries so far, `entry` is where the next one starts
and `start` where the first one does, or the container ends. -/
structure Container (β : Type) where
  box : List β → Open
  whole : List β → Json
  opening : Char
  closing : Char
  start : Mode
  entry : Mode
  delimiter : Delimiter closing
  step_opening : ∀ st, step ⟨st, .value⟩ opening = some ⟨box [] :: st, start⟩
  step_empty : ∀ st, step ⟨box [] :: st, start⟩ closing = some (complete st (whole []))
  step_comma : ∀ bs st, step ⟨box bs :: st, .after⟩ ',' = some ⟨box bs :: st, entry⟩
  step_closing : ∀ bs st, step ⟨box bs :: st, .after⟩ closing = some (complete st (whole bs))
  complete_ne : ∀ st v, (complete st v).mode ≠ entry
  step_start : ∀ st c, step ⟨st, start⟩ c = step ⟨st, entry⟩ c ∨ step ⟨st, entry⟩ c = none ∨
    step ⟨st, start⟩ c = some ⟨st, start⟩ ∧ step ⟨st, entry⟩ c = some ⟨st, entry⟩

def Container.array : Container Json where
  box := .arr
  whole := .arr
  opening := '['
  closing := ']'
  start := .first
  entry := .value
  delimiter := .inr (.inl rfl)
  step_opening _ := rfl
  step_empty _ := rfl
  step_comma _ _ := rfl
  step_closing _ _ := rfl
  complete_ne st v := by rcases st with _ | ⟨_ | _ | _, _⟩ <;> exact nofun
  step_start st c := by
    by_cases hspace : isSpace c = true
    · simp [step, hspace]
    · by_cases hclose : c = ']'
      · exact .inr (.inl (by subst hclose; rfl))
      · exact .inl (by simp [step, hspace, hclose])

def Container.object : Container (List UInt16 × Json) where
  box := .obj
  whole := .obj
  opening := '{'
  closing := '}'
  start := .firstKey
  entry := .key
  delimiter := .inr (.inr rfl)
  step_opening _ := rfl
  step_empty _ := rfl
  step_comma _ _ := rfl
  step_closing _ _ := rfl
  complete_ne st v := by rcases st with _ | ⟨_ | _ | _, _⟩ <;> exact nofun
  step_start st c := by
    by_cases hspace : isSpace c = true
    · simp [step, hspace]
    · by_cases hclose : c = '}'
      · exact .inr (.inl (by subst hclose; rfl))
      · exact .inl (by simp [step, hspace, hclose])

theorem intercalate_cons (t : List Char) (texts : List (List Char)) :
    [','].intercalate (t :: texts) = t ++ texts.flatMap fun u => ',' :: u := by
  induction texts generalizing t with
  | nil => simp
  | cons u texts ih => rw [List.intercalate_cons_cons, ih, List.flatMap_cons]; simp

theorem intercalate_append (front : List (List Char)) {back : List (List Char)}
    (hne : back ≠ []) :
    [','].intercalate (front ++ back) =
      (front.flatMap fun t => t ++ [',']) ++ [','].intercalate back := by
  induction front with
  | nil => rfl
  | cons t front ih =>
    rw [List.cons_append, List.intercalate_cons_of_ne_nil (by simp [hne]), ih]
    simp

namespace Container

variable {ι β : Type} (C : Container β) {label : ι → List Char} {value : ι → β} {rows : List ι}

/-- The text denotes the entry `b`. -/
def Item (text : List Char) (b : β) : Prop :=
  ∀ bs st, ∃ s, run ⟨C.box bs :: st, C.entry⟩ text = some s ∧
    Closes s ⟨C.box (bs ++ [b]) :: st, .after⟩

/-- A text that brings an entry further does the same at the start of the container. -/
theorem run_start (hrun : run ⟨st, C.entry⟩ text = some s) (hmoved : s.mode ≠ C.entry) :
    run ⟨st, C.start⟩ text = some s := by
  induction text with
  | nil =>
    cases hrun
    exact absurd rfl hmoved
  | cons c text ih =>
    rw [run_cons] at hrun ⊢
    rcases C.step_start st c with heq | hnone | ⟨hstart, hentry⟩
    · rwa [heq]
    · simp [hnone] at hrun
    · -- white space leaves both where they are
      rw [hentry] at hrun
      rw [hstart]
      exact ih hrun

/-- Entries with a comma after each of them. -/
theorem run_commas (h : ∀ r ∈ rows, C.Item (label r) (value r)) (bs : List β)
    (st : List Open) :
    run ⟨C.box bs :: st, C.entry⟩ (rows.flatMap fun r => label r ++ [',']) =
      some ⟨C.box (bs ++ rows.map value) :: st, C.entry⟩ := by
  induction rows generalizing bs with
  | nil => simp
  | cons r rows ih =>
    obtain ⟨hr, hrows⟩ := List.forall_mem_cons.1 h
    obtain ⟨s, hrun, hs⟩ := hr bs st
    have hcomma : step s ',' = some ⟨C.box (bs ++ [value r]) :: st, C.entry⟩ :=
      (hs.step _ (.inl rfl)).trans (C.step_comma _ _)
    rw [List.flatMap_cons, List.append_assoc, run_append_some hrun, List.singleton_append,
      run_cons_some hcomma, ih hrows]
    simp

theorem run_close (h : ∀ r ∈ rows, C.Item (label r) (value r)) (hne : rows ≠ []) (bs : List β) :
    run ⟨C.box bs :: st, C.entry⟩ ([','].intercalate (rows.map label) ++ [C.closing]) =
      some (complete st (C.whole (bs ++ rows.map value))) := by
  obtain ⟨front, last, rfl⟩ := (List.eq_nil_or_concat' rows).resolve_left hne
  obtain ⟨s, hrun, hs⟩ := h last (by simp) (bs ++ front.map value) st
  have hfront := C.run_commas (fun r hr => h r (List.mem_append_left _ hr)) bs st
  have hclose := (hs.step _ C.delimiter).trans (C.step_closing _ _)
  rw [List.map_append, List.map_singleton, intercalate_append _ (List.cons_ne_nil _ _),
    List.intercalate_singleton, List.flatMap_map, List.append_assoc, run_append_some hfront,
    run_append_some hrun, run_cons_some hclose]
  simp

/-- Entries between commas, inside the brackets. -/
theorem reads (h : ∀ r ∈ rows, C.Item (label r) (value r)) :
    Reads (C.opening :: ([','].intercalate (rows.map label) ++ [C.closing]))
      (C.whole (rows.map value)) := by
  intro st
  refine ⟨_, ?_, Closes.refl _⟩
  rw [run_cons_some (C.step_opening st)]
  by_cases hne : rows = []
  · subst hne
    exact run_cons_some (C.step_empty st) []
  · exact C.run_start (C.run_close h hne []) (C.complete_ne st _)

end Container

theorem Reads.item_array (h : Reads text v) : Container.array.Item text v := fun bs st =>
  h (.arr bs :: st)

/-- What comes before the value of a member. -/
def keyText (k : List Char) : List Char := quoted k ++ [':']

theorem run_keyText {k : List Char} (hk : Plain k) (ms : List (List UInt16 × Json)) :
    run ⟨.obj ms :: st, .key⟩ (keyText k) = some ⟨.member ms (units k) :: st, .value⟩ := by
  have hopen : step ⟨.obj ms :: st, .key⟩ '"' = some ⟨.obj ms :: st, .text true []⟩ := rfl
  exact run_append_some (run_quoted hk hopen) [':']

theorem Reads.item_object {k : List Char} (hk : Plain k) (h : Reads text v) :
    Container.object.Item (keyText k ++ text) (units k, v) := by
  intro ms st
  obtain ⟨s, hrun, hs⟩ := h (.member ms (units k) :: st)
  exact ⟨s, (run_append_some (run_keyText hk ms) text).trans hrun, hs⟩

section Rules

variable {ι : Type} {rows : List ι} {label : ι → List Char}

theorem Reads.arr {value : ι → Json} (h : ∀ r ∈ rows, Reads (label r) (value r)) :
    Reads ('[' :: ([','].intercalate (rows.map label) ++ [']'])) (.arr (rows.map value)) :=
  Container.array.reads fun r hr => (h r hr).item_array

end Rules

/-- A member with the text of its value. -/
structure Member where
  key : List Char
  text : List Char
  value : Json

namespace Member

def label (m : Member) : List Char := keyText m.key ++ m.text

def entry (m : Member) : List UInt16 × Json := (units m.key, m.value)

def Sound (m : Member) : Prop := Plain m.key ∧ Reads m.text m.value

theorem Sound.item {m : Member} (h : m.Sound) : Container.object.Item m.label m.entry :=
  h.2.item_object h.1

end Member

theorem Reads.obj {members : List Member} (h : ∀ m ∈ members, m.Sound) :
    Reads ('{' :: ([','].intercalate (members.map Member.label) ++ ['}']))
      (.obj (members.map Member.entry)) :=
  Container.object.reads fun m hm => (h m hm).item

/-- Inside an object, behind a key. -/
theorem run_member {members : List Member} (h : ∀ m ∈ members, m.Sound) {k : List Char}
    (hk : Plain k) :
    run ⟨st, .value⟩ ('{' :: ((members.flatMap fun m => m.label ++ [',']) ++ keyText k ++ rest)) =
      run ⟨.member (members.map Member.entry) (units k) :: st, .value⟩ rest := by
  have hkey : run ⟨.obj [] :: st, .key⟩ ((members.flatMap fun m => m.label ++ [',']) ++ keyText k) =
      some ⟨.member (members.map Member.entry) (units k) :: st, .value⟩ := by
    have hcommas := Container.object.run_commas (fun m hm => (h m hm).item) [] st
    exact (run_append_some hcommas _).trans (run_keyText hk _)
  have hopen : step ⟨st, .value⟩ '{' = some ⟨.obj [] :: st, .firstKey⟩ := rfl
  exact (run_cons_some hopen _).trans (run_append_some (Container.object.run_start hkey nofun) rest)

/-! ## Prefixes -/

/-- Outside of every container, behind a value. -/
def TopLevel (s : State) : Prop :=
  s.stack = [] ∧ ((∃ v, s.mode = .done v) ∨ ∃ n, s.mode = .number n)

theorem TopLevel.of_finish (h : finish s = some v) : TopLevel s := by
  rcases s with ⟨_ | _, mode⟩
  · cases mode with
    | done v => exact ⟨rfl, .inl ⟨v, rfl⟩⟩
    | number n => exact ⟨rfl, .inr ⟨n, rfl⟩⟩
    | _ => cases h
  · cases h

theorem stepAfter_done (hstep : stepAfter (complete [] v) c = some t) : TopLevel t := by
  have hspace : stepAfter (complete [] v) c = if isSpace c then some (complete [] v) else none :=
    rfl
  rw [hspace] at hstep
  split_ifs at hstep
  cases hstep
  exact ⟨rfl, .inl ⟨v, rfl⟩⟩

theorem TopLevel.step (h : TopLevel s) (hstep : step s c = some t) : TopLevel t := by
  obtain ⟨stack, mode⟩ := s
  obtain ⟨rfl, ⟨v, rfl⟩ | ⟨n, rfl⟩⟩ := h
  · exact stepAfter_done hstep
  · simp only [Json.step] at hstep
    split at hstep
    · cases hstep
      exact ⟨rfl, .inr ⟨_, rfl⟩⟩
    · split_ifs at hstep
      exact stepAfter_done hstep

theorem TopLevel.run (h : TopLevel s) (hrun : run s text = some t) : TopLevel t := by
  induction text generalizing s with
  | nil => cases hrun; exact h
  | cons c text ih =>
    rw [run_cons] at hrun
    obtain ⟨s', hstep, hrest⟩ := Option.bind_eq_some_iff.1 hrun
    exact ih (h.step hstep) hrest

theorem TopLevel.step_brace (h : TopLevel s) : Json.step s '}' = none := by
  obtain ⟨stack, mode⟩ := s
  obtain ⟨rfl, ⟨v, rfl⟩ | ⟨n, rfl⟩⟩ := h
  · rfl
  · have hmore := n.more_eq_none (c := '}') (by decide) (by decide)
    simp only [Json.step, hmore]
    split_ifs <;> rfl

/-- A text that ends with a brace has no proper prefix that parses. -/
theorem Reads.parse_prefix (h : Reads (text ++ rest ++ ['}']) v) : Json.parse text = none := by
  obtain ⟨s, hrun, -⟩ := h []
  rw [run_append, run_append] at hrun
  obtain ⟨t, hrun, hbrace⟩ := Option.bind_eq_some_iff.1 hrun
  obtain ⟨u, htext, hrest⟩ := Option.bind_eq_some_iff.1 hrun
  rw [Json.parse, htext, Option.bind_some]
  cases hfin : finish u with
  | none => rfl
  | some w =>
    have htop := (TopLevel.of_finish hfin).run hrest
    rw [run_cons, htop.step_brace] at hbrace
    cases hbrace

end Json

end LockfreeMatching.Lib
