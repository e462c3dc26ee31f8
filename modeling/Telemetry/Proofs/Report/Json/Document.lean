import Std.Data.String.ToNat
import Telemetry.Proofs.Report.Json.Tokens

/-!
A JSON report can be read back.

`read?` makes a value of the tokens of a text. It is a machine with a stack of the arrays and
objects that are still open, and knows nothing of the writer. `summary?` reads a value by the schema
of a report: a field that must be there stands there once, in any order, a field that the schema
does not know is left aside, and the list of open names may be missing.

* `foldlM_tokens` — the machine takes the tokens of a value for the value.
* `read?_layout` — so a document is read as the value that was laid out.
* `summary?_ofSummary` — and the schema gives back what the document says.
* `decode_render` — the report on a catalogue is read as its summary, so two catalogues have the
  same report exactly if they have the same rows, counts and open names.
-/

namespace Telemetry.Report.Json

/-! ### Values -/

/-- JSON values. A number is kept as it is spelled, and the fields of an object keep their order. -/
inductive Value where
  | null
  | bool (b : Bool)
  | number (spelling : List Char)
  | string (s : String)
  | array (items : List Value)
  | object (fields : List (String × Value))

/-- An array or an object that is open, with what has been read of it in front of the value that is
being read. -/
inductive Frame where
  | array (items : List Value)
  | object (fields : List (String × Value)) (key : String)

/-- What a parser waits for. -/
inductive Focus where
  /-- A value. -/
  | value
  /-- The first item of an array, or its end. -/
  | first
  /-- A comma behind an item, or the end of the array. -/
  | item (items : List Value)
  /-- The first key of an object, or its end. -/
  | firstKey
  /-- A key behind a comma. -/
  | key (fields : List (String × Value))
  /-- The colon behind a key. -/
  | colon (fields : List (String × Value)) (key : String)
  /-- A comma behind a field, or the end of the object. -/
  | field (fields : List (String × Value))
  /-- Nothing more. -/
  | done (v : Value)

/-- The arrays and objects around the place, the innermost first, and what comes next. -/
structure Parser where
  stack : List Frame
  focus : Focus

namespace Parser

/-- Puts a value where it belongs. -/
def complete (v : Value) : List Frame → Parser
  | [] => ⟨[], .done v⟩
  | .array items :: stack => ⟨stack, .item (items ++ [v])⟩
  | .object fields key :: stack => ⟨stack, .field (fields ++ [(key, v)])⟩

/-- Reads the first token of a value. -/
def begin (stack : List Frame) : Token → Option Parser
  | .null => some (complete .null stack)
  | .bool b => some (complete (.bool b) stack)
  | .number spelling => some (complete (.number spelling) stack)
  | .string s => some (complete (.string s) stack)
  | .leftBracket => some ⟨stack, .first⟩
  | .leftBrace => some ⟨stack, .firstKey⟩
  | _ => none

/-- Reads one token. -/
def step (p : Parser) (t : Token) : Option Parser :=
  match p.focus, t with
  | .value, t => begin p.stack t
  | .first, .rightBracket => some (complete (.array []) p.stack)
  | .first, t => begin (.array [] :: p.stack) t
  | .item items, .comma => some ⟨.array items :: p.stack, .value⟩
  | .item items, .rightBracket => some (complete (.array items) p.stack)
  | .firstKey, .rightBrace => some (complete (.object []) p.stack)
  | .firstKey, .string key => some ⟨p.stack, .colon [] key⟩
  | .key fields, .string key => some ⟨p.stack, .colon fields key⟩
  | .colon fields key, .colon => some ⟨.object fields key :: p.stack, .value⟩
  | .field fields, .comma => some ⟨p.stack, .key fields⟩
  | .field fields, .rightBrace => some (complete (.object fields) p.stack)
  | _, _ => none

/-- The value at the end of the tokens. -/
def finish (p : Parser) : Option Value :=
  match p.focus with
  | .done v => some v
  | _ => none

end Parser

/-- The value of a text. -/
def read? (text : String) : Option Value :=
  (tokens? text.toList).bind fun ts =>
    (ts.foldlM Parser.step ⟨[], .value⟩).bind Parser.finish

/-! ### The schema of a report -/

namespace Value

/-- The value of a field that stands in an object once. -/
def field? (v : Value) (name : String) : Option Value :=
  match v with
  | .object fields =>
    match fields.filter (·.1 = name) with
    | [(_, value)] => some value
    | _ => none
  | _ => none

/-- Whether a value is an object that lacks a field. -/
def lacks (v : Value) (name : String) : Bool :=
  match v with
  | .object fields => fields.all (·.1 ≠ name)
  | _ => false

def string? : Value → Option String
  | .string s => some s
  | _ => none

/-- A number without sign, point and exponent. -/
def count? : Value → Option Nat
  | .number spelling => (String.ofList spelling).toNat?
  | _ => none

/-- A category by its name. -/
def category? (v : Value) : Option Category :=
  v.string?.bind fun s => [Category.meter, Category.event].find? (·.name = s)

def list? {α : Type} (item? : Value → Option α) : Value → Option (List α)
  | .array items => items.mapM item?
  | _ => none

def row? (v : Value) : Option Row :=
  return {
    category := ← (← v.field? "category").category?
    name := ← (← v.field? "name").string?
    kind := ← (← v.field? "type").string?
    severity := ← (← v.field? "severity").string?
    valueType := ← (← v.field? "value_type").string?
    sourceFile := ← (← v.field? "source_file").string? }

def openName? (v : Value) : Option OpenName :=
  return {
    sourceFile := ← (← v.field? "source_file").string?
    name := ← (← v.field? "name").string?
    category := ← (← v.field? "category").category? }

/-- The open names of a report, which are none if the field is missing. -/
def unresolved? (v : Value) : Option (List OpenName) :=
  if v.lacks "unresolved" then some [] else (v.field? "unresolved").bind (list? openName?)

def summary? (v : Value) : Option Summary :=
  return {
    version := ← (← v.field? "version").string?
    files := ← (← v.field? "files_scanned").count?
    meterCount := ← (← v.field? "meter_count").count?
    eventCount := ← (← v.field? "event_count").count?
    rows := ← (← v.field? "rows").list? row?
    unresolved := ← v.unresolved? }

end Value

/-- The report that a text says. -/
def decode (text : String) : Option Summary :=
  (read? text).bind Value.summary?

/-! ### Reading values -/

mutual

/-- A value of a document as a value of a text. -/
def value : Json → Value
  | .number n => .number (toString n).toList
  | .string s => .string s
  | .array items => .array (itemValues items)
  | .object fields => .object (fieldValues fields)

def itemValues : List Json → List Value
  | [] => []
  | item :: items => value item :: itemValues items

def fieldValues : List (String × Json) → List (String × Value)
  | [] => []
  | (key, field) :: fields => (key, value field) :: fieldValues fields

end

theorem itemValues_eq_map (items : List Json) : itemValues items = items.map value := by
  induction items with
  | nil => rw [itemValues, List.map_nil]
  | cons item items ih => rw [itemValues, ih, List.map_cons]

section Parsing

/-- A value begins in the same way behind a bracket. -/
theorem step_first {stack : List Frame} {t : Token} (h : t ≠ .rightBracket) :
    Parser.step ⟨stack, .first⟩ t = Parser.step ⟨.array [] :: stack, .value⟩ t := by
  cases t with
  | rightBracket => exact absurd rfl h
  | _ => rfl

/-- No value begins with a closing bracket. -/
theorem tokens_head (j : Json) : ∃ t ts, tokens j = t :: ts ∧ t ≠ .rightBracket := by
  cases j with
  | number n => exact ⟨_, _, by rw [tokens], by simp⟩
  | string s => exact ⟨_, _, by rw [tokens], by simp⟩
  | array items => cases items <;> exact ⟨_, _, by rw [tokens], by simp⟩
  | object fields => cases fields <;> exact ⟨_, _, by rw [tokens], by simp⟩

theorem foldlM_first (j : Json) (stack : List Frame) :
    (tokens j).foldlM Parser.step ⟨stack, .first⟩ =
      (tokens j).foldlM Parser.step ⟨.array [] :: stack, .value⟩ := by
  obtain ⟨t, ts, htokens, ht⟩ := tokens_head j
  rw [htokens, List.foldlM_cons, step_first ht, List.foldlM_cons]

mutual

/-- **The parser takes the tokens of a value for the value.** -/
theorem foldlM_tokens (j : Json) (stack : List Frame) :
    (tokens j).foldlM Parser.step ⟨stack, .value⟩ = some (Parser.complete (value j) stack) := by
  match j with
  | .number n =>
    rw [tokens, value]
    rfl
  | .string s =>
    rw [tokens, value]
    rfl
  | .array [] =>
    rw [tokens, value, itemValues]
    rfl
  | .array (item :: items) =>
    have hopen : Parser.step ⟨stack, .value⟩ .leftBracket = some ⟨stack, .first⟩ := rfl
    rw [tokens, List.foldlM_cons, hopen, Option.bind_eq_bind, Option.bind_some,
      List.foldlM_append, foldlM_first, foldlM_tokens item, Option.bind_eq_bind, Option.bind_some,
      List.foldlM_append, Parser.complete, foldlM_itemTokens items, value, itemValues]
    rfl
  | .object [] =>
    rw [tokens, value, fieldValues]
    rfl
  | .object ((key, field) :: fields) =>
    have hopen : ∀ ts, (.leftBrace :: .string key :: .colon :: ts).foldlM Parser.step
        ⟨stack, .value⟩ = ts.foldlM Parser.step ⟨.object [] key :: stack, .value⟩ := fun _ => rfl
    rw [tokens, hopen, List.foldlM_append, foldlM_tokens field, Option.bind_eq_bind,
      Option.bind_some, List.foldlM_append, Parser.complete, foldlM_fieldTokens fields, value,
      fieldValues]
    rfl

/-- The items behind the first one of an array. -/
theorem foldlM_itemTokens (items : List Json) (stack : List Frame) (read : List Value) :
    (itemTokens items).foldlM Parser.step ⟨stack, .item read⟩ =
      some ⟨stack, .item (read ++ itemValues items)⟩ := by
  match items with
  | [] =>
    rw [itemTokens, itemValues, List.append_nil]
    rfl
  | item :: items =>
    have hcomma : Parser.step ⟨stack, .item read⟩ .comma = some ⟨.array read :: stack, .value⟩ :=
      rfl
    rw [itemTokens, List.foldlM_cons, hcomma, Option.bind_eq_bind, Option.bind_some,
      List.foldlM_append, foldlM_tokens item, Option.bind_eq_bind, Option.bind_some,
      Parser.complete, foldlM_itemTokens items, itemValues, List.append_assoc]
    rfl

/-- The fields behind the first one of an object. -/
theorem foldlM_fieldTokens (fields : List (String × Json)) (stack : List Frame)
    (read : List (String × Value)) :
    (fieldTokens fields).foldlM Parser.step ⟨stack, .field read⟩ =
      some ⟨stack, .field (read ++ fieldValues fields)⟩ := by
  match fields with
  | [] =>
    rw [fieldTokens, fieldValues, List.append_nil]
    rfl
  | (key, field) :: fields =>
    have hcomma : ∀ ts, (.comma :: .string key :: .colon :: ts).foldlM Parser.step
        ⟨stack, .field read⟩ = ts.foldlM Parser.step ⟨.object read key :: stack, .value⟩ :=
      fun _ => rfl
    rw [fieldTokens, hcomma, List.foldlM_append, foldlM_tokens field, Option.bind_eq_bind,
      Option.bind_some, Parser.complete, foldlM_fieldTokens fields, fieldValues,
      List.append_assoc]
    rfl

end

/-- **A document is read as the value that was laid out.** -/
theorem read?_layout (level : Nat) (j : Json) :
    read? (String.ofList (layout level j ++ ['\n'])) = some (value j) := by
  rw [read?, String.toList_ofList, tokens?_layout, Option.bind_some, foldlM_tokens]
  rfl

end Parsing

/-! ### Reading reports -/

section Schema

open Value

@[simp] theorem string?_string (s : String) : (Value.string s).string? = some s := rfl

@[simp] theorem category?_name (c : Category) : (Value.string c.name).category? = some c := by
  cases c <;> simp [category?, Category.name]

/-- A count is written without sign, point and exponent. -/
@[simp] theorem count?_toDigits (n : Nat) : (Value.number (Nat.toDigits 10 n)).count? = some n := by
  rw [count?, ← Nat.repr_eq_ofList_toDigits]
  exact Nat.toNat?_repr n

/-- A list is read back if its items are. -/
theorem list?_map {α : Type} {write : α → Json} {item? : Value → Option α}
    (h : ∀ a, item? (value (write a)) = some a) (xs : List α) :
    (Value.array (itemValues (xs.map write))).list? item? = some xs := by
  rw [list?, itemValues_eq_map, List.map_map]
  induction xs with
  | nil => rfl
  | cons x xs ih => simp [List.mapM_cons, h, ih]

theorem row?_ofRow (r : Row) : row? (value (ofRow r)) = some r := by
  simp [row?, ofRow, value, fieldValues, field?]

theorem openName?_ofOpenName (n : OpenName) : openName? (value (ofOpenName n)) = some n := by
  simp [openName?, ofOpenName, value, fieldValues, field?]

/-- **The schema gives back what a document says**, the list of open names included where it is left
out. -/
theorem summary?_ofSummary (s : Summary) : summary? (value (ofSummary s)) = some s := by
  obtain ⟨version, files, meterCount, eventCount, rows, unresolved⟩ := s
  have hrows := list?_map row?_ofRow rows
  cases unresolved with
  | nil =>
    simp [summary?, ofSummary, unresolvedField, value, fieldValues, field?, hrows, unresolved?,
      lacks]
  | cons name names =>
    have hnames := list?_map openName?_ofOpenName (name :: names)
    rw [List.map_cons] at hnames
    simp [summary?, ofSummary, unresolvedField, value, fieldValues, field?, hrows, unresolved?,
      lacks, hnames]

/-- **The report on a catalogue is read as its summary.** So two catalogues have the same report
exactly if they have the same rows, the same counts and the same open names. -/
theorem decode_render (c : Catalog) :
    decode (render c) = some (.ofCatalog c) ∧
      ∀ c', render c' = render c ↔ c'.rows = c.rows ∧ c'.files = c.files ∧
        c'.meters.length = c.meters.length ∧ c'.events.length = c.events.length ∧
        c'.unresolved = c.unresolved := by
  have hdecode : ∀ c, decode (render c) = some (.ofCatalog c) := fun c => by
    rw [decode, render, read?_layout, Option.bind_some, summary?_ofSummary]
  refine ⟨hdecode c, fun c' => ⟨fun h => ?_, ?_⟩⟩
  · have hsummary : Summary.ofCatalog c' = .ofCatalog c :=
      Option.some.inj (by rw [← hdecode c', h, hdecode c])
    simpa [Summary.ofCatalog, and_assoc, and_comm, and_left_comm] using hsummary
  · rintro ⟨hrows, hfiles, hmeters, hevents, hunresolved⟩
    rw [render, render, Summary.ofCatalog, hrows, hfiles, hmeters, hevents, hunresolved]
    rfl

end Schema

end Telemetry.Report.Json
