import Telemetry.Proofs.Text.Reading
import Telemetry.Report.Json

/-!
The tokens of a JSON text, and those of a document that has been laid out.

`tokens?` is a reader of the format in its own right and knows nothing of the writer. It goes over
the text character by character. A string may hold any escape, those of code units included, where
two halves of a pair make one character and a half on its own is refused, as is a control character
that is not escaped. Numbers and names are read to the first character that can stand in neither,
and then checked.

* `foldlM_escapeChar`, `passes_quote` — a string that is written is read back, whatever its
  characters.
* `reads_number` — a number is read back too, but only the next character shows that it has ended.
* `reads_layout` — so behind a laid-out value the reader has read its tokens, provided that what
  follows cannot belong to a number.
* `tokens?_layout` — the tokens of a document are those of its value, whatever the layout.
-/

namespace Telemetry.Report.Json

open Telemetry.Text

/-- The tokens of a JSON text. A number is kept as it is spelled. -/
inductive Token where
  | leftBrace
  | rightBrace
  | leftBracket
  | rightBracket
  | colon
  | comma
  | null
  | bool (b : Bool)
  | number (spelling : List Char)
  | string (s : String)
  deriving DecidableEq, Repr

/-! ### Numbers -/

/-- Skips one digit or more. -/
def digits? (cs : List Char) : Option (List Char) :=
  if (cs.takeWhile Char.isDigit).isEmpty then none else some (cs.dropWhile Char.isDigit)

/-- Skips the minus sign of a number, if there is one. -/
def unsigned : List Char → List Char
  | '-' :: rest => rest
  | cs => cs

/-- Skips the digits in front of the point. A zero in front stands alone. -/
def integer? : List Char → Option (List Char)
  | '0' :: rest => some rest
  | cs => digits? cs

/-- Skips the point and the digits behind it, if there is a point. -/
def fraction? : List Char → Option (List Char)
  | '.' :: rest => digits? rest
  | cs => some cs

/-- Skips the exponent, if there is one. -/
def exponent? : List Char → Option (List Char)
  | [] => some []
  | c :: rest =>
    if c = 'e' || c = 'E' then
      match rest with
      | '+' :: rest => digits? rest
      | rest => digits? (unsigned rest)
    else some (c :: rest)

/-- Whether a text is a number from end to end. -/
def isNumber (cs : List Char) : Bool :=
  ((integer? (unsigned cs)).bind fraction?).bind exponent? == some []

/-- The token of a text without quotes and marks. -/
def bareToken? (word : List Char) : Option Token :=
  if word = "null".toList then some .null
  else if word = "true".toList then some (.bool true)
  else if word = "false".toList then some (.bool false)
  else if isNumber word then some (.number word)
  else none

/-! ### The reader of tokens -/

/-- Where a reader stands. Inside a string it keeps the characters read so far and the first half of
a pair of code units, if the second half must follow. -/
inductive Place where
  /-- Between tokens. -/
  | between
  /-- In a string. -/
  | string (read : List Char) (high : Option Nat)
  /-- Behind a backslash. -/
  | escape (read : List Char) (high : Option Nat)
  /-- In a code unit: its value so far and the number of digits that are missing. -/
  | unit (read : List Char) (high : Option Nat) (value missing : Nat)
  /-- In a number or a name. -/
  | bare (word : List Char)
  deriving DecidableEq, Repr

/-- The tokens read so far, and the place. -/
structure Lexer where
  tokens : List Token
  place : Place
  deriving DecidableEq, Repr

/-- The blanks between tokens. -/
def isGap (c : Char) : Bool :=
  c == ' ' || c == '\n' || c == '\r' || c == '\t'

/-- The characters of numbers and names. -/
def isBare (c : Char) : Bool :=
  c.isAlphanum || c == '+' || c == '-' || c == '.'

/-- The tokens of one character. -/
def mark? : Char → Option Token
  | '\x7b' => some .leftBrace
  | '\x7d' => some .rightBrace
  | '[' => some .leftBracket
  | ']' => some .rightBracket
  | ':' => some .colon
  | ',' => some .comma
  | _ => none

/-- The characters that a letter or a mark behind a backslash stands for. -/
def shortEscape? : Char → Option Char
  | '"' => some '"'
  | '\\' => some '\\'
  | '/' => some '/'
  | 'b' => some '\x08'
  | 'f' => some '\x0c'
  | 'n' => some '\n'
  | 'r' => some '\r'
  | 't' => some '\t'
  | _ => none

/-- The value of a hexadecimal digit in either case. -/
def hexValue? (c : Char) : Option Nat :=
  if c.isDigit then some (c.toNat - 48)
  else if 97 ≤ c.toNat ∧ c.toNat ≤ 102 then some (c.toNat - 87)
  else if 65 ≤ c.toNat ∧ c.toNat ≤ 70 then some (c.toNat - 55)
  else none

/-- Ends a code unit. The first half of a pair waits for the second one, which stands for nothing on
its own. -/
def endUnit? (read : List Char) (high : Option Nat) (value : Nat) : Option Place :=
  match high with
  | none =>
    if 0xD800 ≤ value ∧ value < 0xDC00 then some (.string read (some value))
    else if 0xDC00 ≤ value ∧ value < 0xE000 then none
    else some (.string (read ++ [Char.ofNat value]) none)
  | some first =>
    if 0xDC00 ≤ value ∧ value < 0xE000 then
      some (.string (read ++
        [Char.ofNat (0x10000 + (first - 0xD800) * 0x400 + (value - 0xDC00))]) none)
    else none

namespace Lexer

/-- Reads a character between tokens. -/
def stepBetween (tokens : List Token) (c : Char) : Option Lexer :=
  if isGap c then some ⟨tokens, .between⟩
  else if c = '"' then some ⟨tokens, .string [] none⟩
  else if isBare c then some ⟨tokens, .bare [c]⟩
  else (mark? c).map fun t => ⟨tokens ++ [t], .between⟩

/-- Reads one character. -/
def step (l : Lexer) (c : Char) : Option Lexer :=
  match l.place with
  | .between => stepBetween l.tokens c
  | .string read high =>
    if c = '\\' then some ⟨l.tokens, .escape read high⟩
    else if high.isSome || c.toNat < 0x20 then none
    else if c = '"' then some ⟨l.tokens ++ [.string (String.ofList read)], .between⟩
    else some ⟨l.tokens, .string (read ++ [c]) none⟩
  | .escape read high =>
    if c = 'u' then some ⟨l.tokens, .unit read high 0 4⟩
    else if high.isSome then none
    else (shortEscape? c).map fun c => ⟨l.tokens, .string (read ++ [c]) none⟩
  | .unit read high value missing =>
    (hexValue? c).bind fun digit =>
      if missing = 1 then (endUnit? read high (16 * value + digit)).map fun p => ⟨l.tokens, p⟩
      else some ⟨l.tokens, .unit read high (16 * value + digit) (missing - 1)⟩
  | .bare word =>
    if isBare c then some ⟨l.tokens, .bare (word ++ [c])⟩
    else (bareToken? word).bind fun t => stepBetween (l.tokens ++ [t]) c

/-- The tokens at the end of the text, where no string may be left open. -/
def finish (l : Lexer) : Option (List Token) :=
  match l.place with
  | .between => some l.tokens
  | .bare word => (bareToken? word).map fun t => l.tokens ++ [t]
  | _ => none

end Lexer

/-- The tokens of a text. -/
def tokens? (text : List Char) : Option (List Token) :=
  (text.foldlM Lexer.step ⟨[], .between⟩).bind Lexer.finish

/-! ### The tokens of a value -/

mutual

/-- The tokens of a value. -/
def tokens : Json → List Token
  | .number n => [.number (toString n).toList]
  | .string s => [.string s]
  | .array [] => [.leftBracket, .rightBracket]
  | .array (item :: items) => .leftBracket :: (tokens item ++ (itemTokens items ++ [.rightBracket]))
  | .object [] => [.leftBrace, .rightBrace]
  | .object ((key, value) :: fields) =>
    .leftBrace :: .string key :: .colon :: (tokens value ++ (fieldTokens fields ++ [.rightBrace]))

/-- The tokens of the items behind the first one of an array. -/
def itemTokens : List Json → List Token
  | [] => []
  | item :: items => .comma :: (tokens item ++ itemTokens items)

/-- The tokens of the fields behind the first one of an object. -/
def fieldTokens : List (String × Json) → List Token
  | [] => []
  | (key, value) :: fields =>
    .comma :: .string key :: .colon :: (tokens value ++ fieldTokens fields)

end

/-! ### Texts that end between tokens -/

/-- The reader passes a text, and with it the tokens. -/
def Passes (text : List Char) (ts : List Token) : Prop :=
  ∀ read, text.foldlM Lexer.step ⟨read, .between⟩ = some ⟨read ++ ts, .between⟩

/-- A text that cannot go on with a number. -/
def EndsBare (rest : List Char) : Prop :=
  ∃ c cs, rest = c :: cs ∧ isBare c = false

/-- The reader has read the tokens of a text, at the latest when the next character shows that a
number in it has ended. -/
def Reads (text : List Char) (ts : List Token) : Prop :=
  ∀ read rest, EndsBare rest → (text ++ rest).foldlM Lexer.step ⟨read, .between⟩ =
    rest.foldlM Lexer.step ⟨read ++ ts, .between⟩

section Passing

variable {xs ys : List Char} {ts us : List Token}

theorem Passes.reads (h : Passes xs ts) : Reads xs ts := by
  intro read rest _
  rw [List.foldlM_append, h read]
  rfl

theorem Passes.append (h : Passes xs ts) (h' : Passes ys us) : Passes (xs ++ ys) (ts ++ us) := by
  intro read
  rw [List.foldlM_append, h read, ← List.append_assoc]
  exact h' (read ++ ts)

theorem Passes.append_reads (h : Passes xs ts) (h' : Reads ys us) :
    Reads (xs ++ ys) (ts ++ us) := by
  intro read rest hrest
  rw [List.append_assoc, List.foldlM_append, h read, ← List.append_assoc]
  exact h' (read ++ ts) rest hrest

theorem Reads.append (h : Reads xs ts) (h' : Reads ys us) (hys : ys = [] ∨ EndsBare ys) :
    Reads (xs ++ ys) (ts ++ us) := by
  intro read rest hrest
  have hbehind : EndsBare (ys ++ rest) := by
    rcases hys with rfl | ⟨c, cs, rfl, hc⟩
    · exact hrest
    · exact ⟨c, cs ++ rest, rfl, hc⟩
  rw [List.append_assoc, h read _ hbehind, h' (read ++ ts) rest hrest, List.append_assoc]

theorem Reads.close (h : Reads xs ts) (h' : Passes ys us) (hys : EndsBare ys) :
    Passes (xs ++ ys) (ts ++ us) := by
  intro read
  rw [h read ys hys, h' (read ++ ts), List.append_assoc]

theorem passes_newline (level : Nat) : Passes (newline level) [] := by
  intro read
  have hblanks : ∀ n, (List.replicate n ' ').foldlM Lexer.step ⟨read, .between⟩ =
      some ⟨read, .between⟩ := by
    intro n
    induction n with
    | zero => rfl
    | succ n ih => exact ih
  rw [List.append_nil]
  exact hblanks (2 * level)

end Passing

/-! ### Strings -/

section Strings

theorem hexValue?_hexDigit {n : Nat} (h : n < 16) : hexValue? (hexDigit n) = some n := by
  have hall : ∀ n < 16, hexValue? (hexDigit n) = some n := by decide
  exact hall n h

/-- A character inside a string is written by a short escape, as a code unit or as it is. -/
theorem escapeChar_cases (c : Char) :
    (∃ d, escapeChar c = ['\\', d] ∧ d ≠ 'u' ∧ shortEscape? d = some c) ∨
      (c.toNat < 0x20 ∧ escapeChar c =
        ['\\', 'u', '0', '0', hexDigit (c.toNat / 16), hexDigit (c.toNat % 16)]) ∨
      (escapeChar c = [c] ∧ c ≠ '"' ∧ c ≠ '\\' ∧ 0x20 ≤ c.toNat) := by
  by_cases hmem : c ∈ ['"', '\\', '\n', '\r', '\t', '\x08', '\x0c']
  · simp only [List.mem_cons, List.not_mem_nil, or_false] at hmem
    rcases hmem with rfl | rfl | rfl | rfl | rfl | rfl | rfl <;>
      exact Or.inl ⟨_, rfl, by decide, rfl⟩
  · simp only [List.mem_cons, List.not_mem_nil, or_false, not_or] at hmem
    obtain ⟨hquote, hbackslash, hn, hr, ht, hb, hf⟩ := hmem
    have hplain : escapeChar c = if c.toNat < 0x20 then
        ['\\', 'u', '0', '0', hexDigit (c.toNat / 16), hexDigit (c.toNat % 16)] else [c] := by
      simp only [escapeChar, hquote, hbackslash, hn, hr, ht, hb, hf, if_false]
    by_cases hcontrol : c.toNat < 0x20
    · exact Or.inr (Or.inl ⟨hcontrol, by rw [hplain, if_pos hcontrol]⟩)
    · exact Or.inr (Or.inr ⟨by rw [hplain, if_neg hcontrol], hquote, hbackslash, by omega⟩)

/-- **A character that is written is read back.** -/
theorem foldlM_escapeChar (read : List Token) (text : List Char) (c : Char) :
    (escapeChar c).foldlM Lexer.step ⟨read, .string text none⟩ =
      some ⟨read, .string (text ++ [c]) none⟩ := by
  rcases escapeChar_cases c with ⟨d, hescape, hunit, hshort⟩ | ⟨hcontrol, hescape⟩ |
    ⟨hescape, hquote, hbackslash, hprinted⟩
  · simp [hescape, Lexer.step, hunit, hshort]
  · -- the code unit of a control character is its code point
    have hzero : hexValue? '0' = some 0 := by decide
    have hhigh := hexValue?_hexDigit (n := c.toNat / 16) (by omega)
    have hlow := hexValue?_hexDigit (n := c.toNat % 16) (by omega)
    have hvalue : 16 * (c.toNat / 16) + c.toNat % 16 = c.toNat := Nat.div_add_mod _ _
    have hunit : endUnit? text none c.toNat = some (.string (text ++ [c]) none) := by
      rw [endUnit?, if_neg (by omega), if_neg (by omega), Char.ofNat_toNat]
    simp [hescape, Lexer.step, hzero, hhigh, hlow, hvalue, hunit]
  · have hnot : ¬ c.toNat < 0x20 := by omega
    simp [hescape, Lexer.step, hquote, hbackslash, hnot]

/-- **A string that is written is read back.** -/
theorem passes_quote (s : String) : Passes (quote s) [.string s] := by
  intro read
  have hinside : ∀ cs text : List Char,
      (cs.flatMap escapeChar).foldlM Lexer.step ⟨read, .string text none⟩ =
        some ⟨read, .string (text ++ cs) none⟩ := by
    intro cs
    induction cs with
    | nil => simp
    | cons c cs ih =>
      intro text
      rw [List.flatMap_cons, List.foldlM_append, foldlM_escapeChar]
      simpa using ih (text ++ [c])
  have hopen : Lexer.step ⟨read, .between⟩ '"' = some ⟨read, .string [] none⟩ := rfl
  rw [quote, List.cons_append, List.foldlM_cons, hopen]
  simp only [Option.bind_eq_bind, Option.bind_some]
  rw [List.foldlM_append, hinside]
  simp [Lexer.step]

end Strings

/-! ### Numbers that are written -/

section Written

/-- Only the number nought is written with a nought in front. -/
theorem toDigits_head {n : Nat} (h : n ≠ 0) : ∃ c cs, Nat.toDigits 10 n = c :: cs ∧ c ≠ '0' := by
  induction n using Nat.strongRecOn with
  | ind n ih =>
    by_cases hlt : n < 10
    · refine ⟨n.digitChar, [], Nat.toDigits_of_lt_base hlt, ?_⟩
      simpa using h
    · obtain ⟨c, cs, hcs, hc⟩ := ih (n / 10) (by omega) (by omega)
      refine ⟨c, cs ++ [(n % 10).digitChar], ?_, hc⟩
      rw [Nat.toDigits_of_base_le (by decide) (by omega), hcs, List.cons_append]

/-- A number that is written is one. -/
theorem isNumber_toDigits (n : Nat) : isNumber (Nat.toDigits 10 n) = true := by
  have hdigits : ∀ c ∈ Nat.toDigits 10 n, c.isDigit = true :=
    fun c hc => Nat.isDigit_of_mem_toDigits (by decide) (by decide) hc
  by_cases hzero : n = 0
  · subst hzero
    decide
  · obtain ⟨c, cs, hcs, hc⟩ := toDigits_head hzero
    rw [hcs] at hdigits ⊢
    have hunsigned : unsigned (c :: cs) = c :: cs := by
      refine unsigned.eq_2 _ fun rest heq => ?_
      exact absurd (hdigits '-' (heq ▸ List.mem_cons_self)) (by decide)
    have hinteger : integer? (c :: cs) = some [] := by
      rw [integer?.eq_2 _ fun rest heq => hc (List.cons.inj heq).1, digits?,
        List.takeWhile_eq_self_iff.mpr hdigits, List.dropWhile_eq_nil_iff.mpr hdigits]
      rfl
    rw [isNumber, hunsigned, hinteger]
    decide

theorem isBare_of_isDigit {c : Char} (h : c.isDigit = true) : isBare c = true := by
  simp [isBare, Char.isAlphanum, h]

theorem stepBetween_of_isDigit (read : List Token) {c : Char} (h : c.isDigit = true) :
    Lexer.stepBetween read c = some ⟨read, .bare [c]⟩ := by
  have hgaps : ([' ', '\n', '\r', '\t', '"'].all fun d => !d.isDigit) = true := by decide
  have hne : ∀ d ∈ [' ', '\n', '\r', '\t', '"'], c ≠ d := by
    rintro d hd rfl
    rw [forall_mem_eq_false hgaps c hd] at h
    cases h
  have hgap : isGap c = false := by simp [isGap, hne]
  rw [Lexer.stepBetween, hgap, if_neg (by simp), if_neg (hne '"' (by simp)),
    if_pos (isBare_of_isDigit h)]

theorem bareToken?_toDigits (n : Nat) :
    bareToken? (Nat.toDigits 10 n) = some (.number (Nat.toDigits 10 n)) := by
  have hne : ∀ c cs, c.isDigit = false → Nat.toDigits 10 n ≠ c :: cs := by
    intro c cs hdigit heq
    have hmem : c ∈ Nat.toDigits 10 n := heq ▸ List.mem_cons_self
    rw [Nat.isDigit_of_mem_toDigits (by decide) (by decide) hmem] at hdigit
    cases hdigit
  have hnull : Nat.toDigits 10 n ≠ "null".toList := hne 'n' _ rfl
  have htrue : Nat.toDigits 10 n ≠ "true".toList := hne 't' _ rfl
  have hfalse : Nat.toDigits 10 n ≠ "false".toList := hne 'f' _ rfl
  rw [bareToken?, if_neg hnull, if_neg htrue, if_neg hfalse, if_pos (isNumber_toDigits n)]

/-- **A number that is written is read back**, if the next character ends it. -/
theorem reads_number (n : Nat) : Reads (toString n).toList [.number (toString n).toList] := by
  rintro read _ ⟨c, rest, rfl, hc⟩
  have hinside : ∀ ds word : List Char, (∀ d ∈ ds, d.isDigit = true) →
      ds.foldlM Lexer.step ⟨read, .bare word⟩ = some ⟨read, .bare (word ++ ds)⟩ := by
    intro ds
    induction ds with
    | nil => simp
    | cons d ds ih =>
      intro word hds
      have hd := isBare_of_isDigit (hds d List.mem_cons_self)
      have hnext := ih (word ++ [d]) fun d' hd' => hds d' (List.mem_cons_of_mem d hd')
      simpa [Lexer.step, hd] using hnext
  have hspelling : (toString n).toList = Nat.toDigits 10 n := Nat.toList_repr
  have hdigits : ∀ d ∈ Nat.toDigits 10 n, d.isDigit = true :=
    fun d hd => Nat.isDigit_of_mem_toDigits (by decide) (by decide) hd
  have htoken := bareToken?_toDigits n
  rw [hspelling]
  obtain ⟨d, ds, hds⟩ := List.exists_cons_of_ne_nil (Nat.toDigits_ne_nil (n := n) (b := 10))
  rw [hds] at hdigits htoken ⊢
  have hfirst : Lexer.step ⟨read, .between⟩ d = some ⟨read, .bare [d]⟩ :=
    stepBetween_of_isDigit read (hdigits d List.mem_cons_self)
  have hends : Lexer.step ⟨read, .bare (d :: ds)⟩ c =
      Lexer.step ⟨read ++ [.number (d :: ds)], .between⟩ c := by
    simp [Lexer.step, hc, htoken]
  rw [List.cons_append, List.foldlM_cons, hfirst, Option.bind_eq_bind, Option.bind_some,
    List.foldlM_append, hinside ds [d] fun d' hd' => hdigits d' (List.mem_cons_of_mem d hd'),
    Option.bind_eq_bind, Option.bind_some, List.singleton_append, List.foldlM_cons, hends,
    List.foldlM_cons]

end Written

/-! ### Layouts -/

section Layouts

theorem endsBare_layoutItems (level : Nat) (items : List Json) :
    layoutItems level items = [] ∨ EndsBare (layoutItems level items) := by
  cases items with
  | nil => exact Or.inl rfl
  | cons item items => exact Or.inr ⟨',', _, rfl, by decide⟩

theorem endsBare_layoutFields (level : Nat) (fields : List (String × Json)) :
    layoutFields level fields = [] ∨ EndsBare (layoutFields level fields) := by
  cases fields with
  | nil => exact Or.inl rfl
  | cons field fields => exact Or.inr ⟨',', _, rfl, by decide⟩

/-- What stands in front of a field: a mark, a line break, the key and the colon. -/
theorem passes_key {c : Char} {t : Token} (hmark : Passes [c] [t]) (level : Nat) (key : String) :
    Passes (c :: newline level ++ quote key ++ [':', ' ']) [t, .string key, .colon] := by
  have hcolon : Passes [':', ' '] [.colon] := fun _ => rfl
  exact ((hmark.append (passes_newline level)).append (passes_quote key)).append hcolon

/-- The line break and the bracket or brace behind the last item or field. -/
theorem passes_closer {c : Char} {t : Token} (hmark : Passes [c] [t]) (level : Nat) :
    Passes (newline level ++ [c]) [t] ∧ EndsBare (newline level ++ [c]) :=
  ⟨(passes_newline level).append hmark, '\n', _, rfl, by decide⟩

mutual

/-- **Behind a value that is laid out, the reader has read its tokens.** -/
theorem reads_layout (level : Nat) (j : Json) : Reads (layout level j) (tokens j) := by
  match j with
  | .number n =>
    rw [layout, tokens]
    exact reads_number n
  | .string s =>
    rw [layout, tokens]
    exact (passes_quote s).reads
  | .array [] =>
    rw [layout, tokens]
    exact Passes.reads fun read => by simp [Lexer.step, Lexer.stepBetween, isGap, isBare, mark?]
  | .array (item :: items) =>
    have hopen : Passes ['['] [.leftBracket] := fun _ => rfl
    have hclose : Passes [']'] [.rightBracket] := fun _ => rfl
    obtain ⟨hclose, hends⟩ := passes_closer hclose level
    have hfirst := (hopen.append (passes_newline (level + 1))).append_reads
      (reads_layout (level + 1) item)
    have hitems := hfirst.append (reads_layoutItems (level + 1) items)
      (endsBare_layoutItems (level + 1) items)
    simpa [layout, tokens] using (hitems.close hclose hends).reads
  | .object [] =>
    rw [layout, tokens]
    exact Passes.reads fun read => by simp [Lexer.step, Lexer.stepBetween, isGap, isBare, mark?]
  | .object ((key, value) :: fields) =>
    have hopen : Passes ['\x7b'] [.leftBrace] := fun _ => rfl
    have hclose : Passes ['\x7d'] [.rightBrace] := fun _ => rfl
    obtain ⟨hclose, hends⟩ := passes_closer hclose level
    have hfirst := (passes_key hopen (level + 1) key).append_reads (reads_layout (level + 1) value)
    have hfields := hfirst.append (reads_layoutFields (level + 1) fields)
      (endsBare_layoutFields (level + 1) fields)
    simpa [layout, tokens] using (hfields.close hclose hends).reads

/-- The items behind the first one of an array. -/
theorem reads_layoutItems (level : Nat) (items : List Json) :
    Reads (layoutItems level items) (itemTokens items) := by
  match items with
  | [] =>
    rw [layoutItems, itemTokens]
    exact Passes.reads fun read => by simp
  | item :: items =>
    have hcomma : Passes [','] [.comma] := fun _ => rfl
    have hfirst := (hcomma.append (passes_newline level)).append_reads (reads_layout level item)
    simpa [layoutItems, itemTokens] using hfirst.append (reads_layoutItems level items)
      (endsBare_layoutItems level items)

/-- The fields behind the first one of an object. -/
theorem reads_layoutFields (level : Nat) (fields : List (String × Json)) :
    Reads (layoutFields level fields) (fieldTokens fields) := by
  match fields with
  | [] =>
    rw [layoutFields, fieldTokens]
    exact Passes.reads fun read => by simp
  | (key, value) :: fields =>
    have hcomma : Passes [','] [.comma] := fun _ => rfl
    have hfirst := (passes_key hcomma level key).append_reads (reads_layout level value)
    simpa [layoutFields, fieldTokens] using hfirst.append (reads_layoutFields level fields)
      (endsBare_layoutFields level fields)

end

/-- **The tokens of a document are those of its value**, whatever its layout. -/
theorem tokens?_layout (level : Nat) (j : Json) :
    tokens? (layout level j ++ ['\n']) = some (tokens j) := by
  have hpass := (reads_layout level j).close (passes_newline 0) ⟨'\n', [], rfl, by decide⟩
  rw [tokens?, show ['\n'] = newline 0 from rfl, hpass []]
  simp [Lexer.finish]

example : tokens? "[\"\\ud83d\\ude00\\/\", -1.5e+3 ,true]".toList =
    some [.leftBracket, .string "😀/", .comma, .number "-1.5e+3".toList, .comma, .bool true,
      .rightBracket] := by
  decide +kernel

end Layouts

end Telemetry.Report.Json
