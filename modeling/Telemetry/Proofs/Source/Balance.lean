import Telemetry.Proofs.Source.Comments

/-!
What an argument is, said byte by byte.

`Scan` is an automaton that reads the text of one argument without its comments: it knows whether it
stands in code or in a string and how many brackets are open, and it stops at a comma or parenthesis
that would end the argument and at a slash that would open a comment. Unlike the lexer it can be cut
between any two bytes. `Balanced bs` says that it reads all of `bs` and ends in code with no bracket
open.

* `part_cases`, `rawArguments_cons_cases` — what one lexeme can do to an argument list, guards
  included.
* `rawArguments_scan`, `rawArguments_balanced` — what the automaton reads belongs to one argument.
* `scan_of_rawArguments` — the raw arguments of a list are balanced: dropping a comment joins its
  neighbours, but never into a new comment.
-/

namespace Telemetry.Source

open Telemetry.Text (byte)

/-! ### What one lexeme does to a list -/

section Parts

variable {depth : Nat} {l : Lexeme} {ls : List Lexeme} {r : List UInt8} {rs : List (List UInt8)}

theorem part_of_comment (h : l.kind = .comment) : l.part depth = .drop := by
  simp [Lexeme.part, h]

theorem part_of_string (h : l.kind = .string) : l.part depth = .keep depth := by
  simp [Lexeme.part, h]

theorem part_of_code (depth : Nat) {b : UInt8} (hkind : l.kind = .code) (hbytes : l.bytes = [b]) :
    l.part depth = (⟨.code, 0, [b]⟩ : Lexeme).part depth := by
  simp [Lexeme.part, hkind, hbytes]

/-- A byte of code is kept, or it is a comma or a closing parenthesis at depth zero. -/
theorem part_code_cases (depth : Nat) (b : UInt8) :
    (∃ depth', (⟨.code, 0, [b]⟩ : Lexeme).part depth = .keep depth') ∨
      (depth = 0 ∧ b = byte ',' ∧ (⟨.code, 0, [b]⟩ : Lexeme).part depth = .separator) ∨
      (depth = 0 ∧ b = byte ')' ∧ (⟨.code, 0, [b]⟩ : Lexeme).part depth = .finish) := by
  simp only [Lexeme.part]
  split_ifs with hopen hclose hround hcomma
  · exact Or.inl ⟨depth + 1, rfl⟩
  · cases depth with
    | zero => exact Or.inr (Or.inr ⟨rfl, hround, rfl⟩)
    | succ outer => exact Or.inl ⟨outer, rfl⟩
  · cases depth with
    | zero => exact Or.inl ⟨0, rfl⟩
    | succ outer => exact Or.inl ⟨outer, rfl⟩
  · simp only [Bool.and_eq_true, decide_eq_true_eq] at hcomma
    exact Or.inr (Or.inl ⟨hcomma.2, hcomma.1, rfl⟩)
  · exact Or.inl ⟨depth, rfl⟩

theorem rawArguments_ne_nil : rawArguments depth ls ≠ some [] := by
  fun_induction rawArguments depth ls with
  | case1 => simp
  | case2 depth l ls depth' hpart ih =>
    cases hrest : rawArguments depth' ls with
    | none => simp
    | some raws =>
      cases raws with
      | nil => simp [extendFirst]
      | cons r rs => simp [extendFirst]
  | case3 depth l ls hpart ih => exact ih
  | case4 depth l ls hpart ih => simp
  | case5 depth l ls hpart => simp

/-- A list that is closed has a first argument, which the lexemes in front of it are put to. -/
theorem exists_of_map_rawArguments {f : List (List UInt8) → List (List UInt8)}
    {raws : List (List UInt8)} (h : (rawArguments depth ls).map f = some raws) :
    ∃ r rs, rawArguments depth ls = some (r :: rs) ∧ f (r :: rs) = raws := by
  obtain ⟨inner, hinner, hf⟩ := Option.map_eq_some_iff.mp h
  cases inner with
  | nil => exact absurd hinner rawArguments_ne_nil
  | cons r rs => exact ⟨r, rs, hinner, hf⟩

/-- **The four parts of a lexeme**: a comment is dropped, a comma ends an argument and a parenthesis
the list, both in code and with no bracket open, and all else is kept. -/
theorem part_cases (depth : Nat) (hcode : l.kind = .code → ∃ b, l.bytes = [b]) :
    (l.kind = .comment ∧ l.part depth = .drop) ∨
    (∃ depth', l.kind ≠ .comment ∧ l.part depth = .keep depth') ∨
    (l.kind = .code ∧ l.bytes = [byte ','] ∧ depth = 0 ∧ l.part depth = .separator) ∨
    (l.kind = .code ∧ l.bytes = [byte ')'] ∧ depth = 0 ∧ l.part depth = .finish) := by
  cases hkind : l.kind with
  | comment => exact Or.inl ⟨rfl, part_of_comment hkind⟩
  | string => exact Or.inr (Or.inl ⟨depth, by simp, part_of_string hkind⟩)
  | code =>
    obtain ⟨b, hbytes⟩ := hcode hkind
    rw [part_of_code depth hkind hbytes, hbytes]
    refine Or.inr ?_
    rcases part_code_cases depth b with ⟨depth', hpart⟩ | ⟨hzero, rfl, hpart⟩ | ⟨hzero, rfl, hpart⟩
    · exact Or.inl ⟨depth', by simp, hpart⟩
    · exact Or.inr (Or.inl ⟨rfl, rfl, hzero, hpart⟩)
    · exact Or.inr (Or.inr ⟨rfl, rfl, hzero, hpart⟩)

/-- **What a lexeme does to a list that is closed**: the list without it is closed, and the lexeme
is dropped from it, belongs to its first argument or ends that, or else it ends the list. -/
theorem rawArguments_cons_cases (hcode : l.kind = .code → ∃ b, l.bytes = [b])
    (h : rawArguments depth (l :: ls) = some (r :: rs)) :
    (l.kind = .comment ∧ rawArguments depth ls = some (r :: rs)) ∨
    (∃ depth' r', l.kind ≠ .comment ∧ l.part depth = .keep depth' ∧ r = l.bytes ++ r' ∧
      rawArguments depth' ls = some (r' :: rs)) ∨
    (∃ r' rs', l.kind = .code ∧ l.bytes = [byte ','] ∧ depth = 0 ∧ r = [] ∧ rs = r' :: rs' ∧
      rawArguments 0 ls = some (r' :: rs')) ∨
    (l.kind = .code ∧ l.bytes = [byte ')'] ∧ depth = 0 ∧ r = [] ∧ rs = []) := by
  rw [rawArguments] at h
  rcases part_cases depth hcode with ⟨hkind, hpart⟩ | ⟨depth', hkind, hpart⟩ |
    ⟨hkind, hbytes, rfl, hpart⟩ | ⟨hkind, hbytes, hzero, hpart⟩ <;> rw [hpart] at h
  · exact Or.inl ⟨hkind, h⟩
  · obtain ⟨r', rs', hraws, hextend⟩ := exists_of_map_rawArguments h
    obtain ⟨rfl, rfl⟩ := List.cons.inj hextend
    exact Or.inr (Or.inl ⟨depth', r', hkind, hpart, rfl, hraws⟩)
  · obtain ⟨r', rs', hraws, hcons⟩ := exists_of_map_rawArguments h
    obtain ⟨rfl, rfl⟩ := List.cons.inj hcons
    exact Or.inr (Or.inr (Or.inl ⟨r', rs', hkind, hbytes, rfl, rfl, rfl, hraws⟩))
  · cases h
    exact Or.inr (Or.inr (Or.inr ⟨hkind, hbytes, hzero, rfl, rfl⟩))

/-- An argument is shorter than the list that it stands in: what ends it is not part of it. -/
theorem length_lt_of_mem_rawArguments {mode : Mode} {offset : Nat} {bs x : List UInt8}
    (hpass : Lexes mode offset bs ls) (h : rawArguments depth ls = some (r :: rs))
    (hx : x ∈ r :: rs) : x.length < bs.length := by
  induction hpass generalizing depth r rs x with
  | nil => cases h
  | @cons _ _ l bs _ hreads _ ih =>
    have hpos := hreads.length_pos
    rw [List.length_append]
    rcases rawArguments_cons_cases (fun hkind => (hreads.of_code hkind).2.2) h with
      ⟨-, hrest⟩ | ⟨_, r', -, -, rfl, hrest⟩ | ⟨r', rs', -, -, -, rfl, rfl, hrest⟩ |
        ⟨-, -, -, rfl, rfl⟩
    · exact Nat.lt_add_left _ (ih hrest hx)
    · rcases List.mem_cons.mp hx with rfl | hx
      · rw [List.length_append]
        exact Nat.add_lt_add_left (ih hrest List.mem_cons_self) _
      · exact Nat.lt_add_left _ (ih hrest (List.mem_cons_of_mem _ hx))
    · rcases List.mem_cons.mp hx with rfl | hx
      · exact Nat.add_pos_left hpos _
      · exact Nat.lt_add_left _ (ih hrest hx)
    · obtain rfl := List.mem_singleton.mp hx
      exact Nat.add_pos_left hpos _

end Parts

/-! ### The automaton -/

/-- Where a reader of one argument stands between two bytes. -/
inductive Place where
  /-- In code, behind a slash or not. -/
  | code (slash : Bool)
  /-- In a string that `quote` opened, behind a backslash that takes the next byte along or not. -/
  | string (quote : UInt8) (escaped : Bool)
  deriving DecidableEq, Repr

/-- The state of a reader of one argument: its place and the number of open brackets. -/
structure Scan where
  place : Place
  depth : Nat
  deriving DecidableEq, Repr

/-- Reads one byte, unless it ends the argument or opens a comment. -/
def Scan.step : Scan → UInt8 → Option Scan
  | ⟨.string quote true, depth⟩, _ => some ⟨.string quote false, depth⟩
  | ⟨.string quote false, depth⟩, b =>
    if b = byte '\\' then some ⟨.string quote true, depth⟩
    else if b = quote then some ⟨.code false, depth⟩
    else some ⟨.string quote false, depth⟩
  | ⟨.code slash, depth⟩, b =>
    if b = byte '"' || b = byte '\'' then some ⟨.string b false, depth⟩
    else if slash && (b = byte '/' || b = byte '*') then none
    else
      match (⟨.code, 0, [b]⟩ : Lexeme).part depth with
      | .keep depth' => some ⟨.code (b = byte '/'), depth'⟩
      | _ => none

/-- The bytes of an argument without comments: strings are closed in them, brackets are not left
open, and nothing in them ends the argument. -/
def Balanced (bs : List UInt8) : Prop :=
  ∃ slash, bs.foldlM Scan.step ⟨.code false, 0⟩ = some ⟨.code slash, 0⟩

theorem balanced_nil : Balanced [] :=
  ⟨false, rfl⟩

/-- The mode of the lexer at a place between two lexemes. -/
def Place.mode : Place → Mode
  | .code _ => .code
  | .string quote _ => .string quote

section Scan

variable {depth depth' : Nat} {slash : Bool} {b : UInt8} {bs : List UInt8} {s : Scan}

/-- The byte behind a slash of code opens no comment. -/
theorem foldlM_slash {x : UInt8} {xs : List UInt8}
    (h : (x :: xs).foldlM Scan.step ⟨.code true, depth⟩ = some s) :
    x ≠ byte '/' ∧ x ≠ byte '*' := by
  constructor
  · rintro rfl
    cases h
  · rintro rfl
    cases h

theorem step_quote (hquote : b = byte '"' ∨ b = byte '\'') :
    Scan.step ⟨.code slash, depth⟩ b = some ⟨.string b false, depth⟩ := by
  have hquote' : (decide (b = byte '"') || decide (b = byte '\'')) = true := by simpa using hquote
  simp only [Scan.step, hquote', if_true]

/-- A byte of code that the automaton reads is read as code by the lexer. -/
theorem step_code (h : Scan.step ⟨.code slash, depth⟩ b = some s)
    (hquote : ¬ (b = byte '"' ∨ b = byte '\'')) :
    ∃ depth', s = ⟨.code (b = byte '/'), depth'⟩ ∧
      (⟨.code, 0, [b]⟩ : Lexeme).part depth = .keep depth' := by
  have hquote' : (decide (b = byte '"') || decide (b = byte '\'')) = false := by simpa using hquote
  simp only [Scan.step, hquote', Bool.false_eq_true, if_false] at h
  split at h
  · cases h
  · split at h
    · rename_i depth' hpart
      cases h
      exact ⟨depth', rfl, hpart⟩
    · cases h

/-! ### From the automaton to the list -/

theorem reads_single {mode next : Mode} {kind : Kind} {offset : Nat} {rest : List UInt8}
    (h : mode.step b rest.head? = ⟨kind, next, false⟩) :
    Reads mode ⟨kind, offset, [b]⟩ rest next := by
  have hreads := @Reads.single mode ⟨kind, offset, [b]⟩ rest b rfl (by rw [h]) (Or.inl (by rw [h]))
  rwa [h] at hreads

theorem reads_pair {mode next : Mode} {kind : Kind} {offset : Nat} {ahead : UInt8}
    {rest : List UInt8} (h : mode.step b (some ahead) = ⟨kind, next, true⟩) :
    Reads mode ⟨kind, offset, [b, ahead]⟩ rest next := by
  have hreads :=
    @Reads.pair mode ⟨kind, offset, [b, ahead]⟩ rest b ahead rfl (by rw [h]) (by rw [h])
  rwa [h] at hreads

theorem rawArguments_keep {l : Lexeme} {ls : List Lexeme} {r : List UInt8} {rs : List (List UInt8)}
    (hpart : l.part depth = .keep depth') (h : rawArguments depth' ls = some (r :: rs)) :
    rawArguments depth (l :: ls) = some ((l.bytes ++ r) :: rs) := by
  simp [rawArguments, hpart, h, extendFirst]

/-- Bytes in front of which a slash is a slash. -/
def Mild (rest : List UInt8) : Prop :=
  ∃ b tail, rest = b :: tail ∧ b ≠ byte '/' ∧ b ≠ byte '*'

theorem mild_cons (hslash : b ≠ byte '/') (hstar : b ≠ byte '*') (rest : List UInt8) :
    Mild (b :: rest) :=
  ⟨b, rest, rfl, hslash, hstar⟩

/-- A slash of code stays one in front of a byte that makes no comment of it. -/
theorem mode_step_code (hquote : ¬ (b = byte '"' ∨ b = byte '\'')) {ahead : Option UInt8}
    (hahead : b = byte '/' → ahead ≠ some (byte '/') ∧ ahead ≠ some (byte '*')) :
    Mode.step .code b ahead = ⟨.code, .code, false⟩ := by
  have hquote' : (decide (b = byte '"') || decide (b = byte '\'')) = false := by simpa using hquote
  simp only [Mode.step, hquote', Bool.false_eq_true, if_false]
  by_cases hslash : b = byte '/'
  · simp [hahead hslash]
  · simp [hslash]

theorem mode_step_quote (hquote : b = byte '"' ∨ b = byte '\'') (ahead : Option UInt8) :
    Mode.step .code b ahead = ⟨.string, .string b, false⟩ := by
  have hquote' : (decide (b = byte '"') || decide (b = byte '\'')) = true := by simpa using hquote
  simp only [Mode.step, hquote', if_true]

/-- What stands behind a slash that the automaton has read makes no comment of it. -/
theorem head?_behind_slash {rest : List UInt8} (hrest : Mild rest)
    (h : bs.foldlM Scan.step ⟨.code true, depth⟩ = some s) :
    (bs ++ rest).head? ≠ some (byte '/') ∧ (bs ++ rest).head? ≠ some (byte '*') := by
  cases bs with
  | nil =>
    obtain ⟨x, tail, rfl, hslash, hstar⟩ := hrest
    simp [hslash, hstar]
  | cons x bs =>
    obtain ⟨hslash, hstar⟩ := foldlM_slash h
    simp [hslash, hstar]

/-- **The automaton reads lexeme by lexeme**: a lexeme stands in front of what it has to read, and
it goes on behind that lexeme, in the mode and at the depth to which the lexeme leads. -/
theorem exists_lexeme_of_scan {place : Place} {rest : List UInt8}
    (hplace : ∀ quote, place ≠ .string quote true) (hrest : Mild rest)
    (hscan : (b :: bs).foldlM Scan.step ⟨place, depth⟩ = some ⟨.code slash, depth'⟩)
    (offset : Nat) :
    ∃ l bs' next depth₁, l.start = offset ∧ b :: bs = l.bytes ++ bs' ∧
      Reads place.mode l (bs' ++ rest) (Place.mode next) ∧ l.part depth = .keep depth₁ ∧
      (∀ quote, next ≠ .string quote true) ∧
      bs'.foldlM Scan.step ⟨next, depth₁⟩ = some ⟨.code slash, depth'⟩ := by
  rw [List.foldlM_cons] at hscan
  obtain ⟨s, hstep, hscan⟩ := Option.bind_eq_some_iff.mp hscan
  cases place with
  | code slash₁ =>
    by_cases hquote : b = byte '"' ∨ b = byte '\''
    · rw [step_quote hquote] at hstep
      cases hstep
      exact ⟨⟨.string, offset, [b]⟩, bs, .string b false, depth, rfl, rfl,
        reads_single (mode_step_quote hquote _), rfl, by simp, hscan⟩
    · obtain ⟨depth₁, rfl, hpart⟩ := step_code hstep hquote
      refine ⟨⟨.code, offset, [b]⟩, bs, .code (b = byte '/'), depth₁, rfl, rfl,
        reads_single (mode_step_code hquote fun hslash => ?_), hpart, by simp, hscan⟩
      rw [decide_eq_true hslash] at hscan
      exact head?_behind_slash hrest hscan
  | string quote escaped =>
    cases escaped with
    | true => exact absurd rfl (hplace quote)
    | false =>
      by_cases hescape : b = byte '\\'
      · -- a backslash is read together with the next byte, and there is one
        simp only [Scan.step, hescape, if_true] at hstep
        cases hstep
        cases bs with
        | nil => cases hscan
        | cons x bs =>
          refine ⟨⟨.string, offset, [b, x]⟩, bs, .string quote false, depth, rfl, rfl,
            reads_pair ?_, rfl, by simp, hscan⟩
          simp only [Place.mode, Mode.step, hescape, if_true]
      · by_cases hclose : b = quote
        · subst hclose
          simp only [Scan.step, hescape, if_false, if_true] at hstep
          cases hstep
          refine ⟨⟨.string, offset, [b]⟩, bs, .code false, depth, rfl, rfl, reads_single ?_, rfl,
            by simp, hscan⟩
          simp only [Place.mode, Mode.step, hescape, if_false, if_true]
        · simp only [Scan.step, hescape, hclose, if_false] at hstep
          cases hstep
          refine ⟨⟨.string, offset, [b]⟩, bs, .string quote false, depth, rfl, rfl,
            reads_single ?_, rfl, by simp, hscan⟩
          simp only [Place.mode, Mode.step, hescape, hclose, if_false]

/-- **What the automaton reads belongs to one argument**, which goes on with what is read behind
it. -/
theorem rawArguments_scan {place : Place} {offset : Nat} {rest r : List UInt8}
    {rs : List (List UInt8)} (hplace : ∀ quote, place ≠ .string quote true) (hrest : Mild rest)
    (hscan : bs.foldlM Scan.step ⟨place, depth⟩ = some ⟨.code slash, depth'⟩)
    (hraw : rawArguments depth' (lexemesFrom .code (offset + bs.length) rest) = some (r :: rs)) :
    rawArguments depth (lexemesFrom place.mode offset (bs ++ rest)) = some ((bs ++ r) :: rs) := by
  -- A lexeme is one or two bytes long, so the induction is on the length.
  induction hlen : bs.length using Nat.strongRecOn generalizing bs place depth offset with
  | _ n ih =>
  subst hlen
  cases bs with
  | nil =>
    cases hscan
    exact hraw
  | cons b bs =>
    obtain ⟨l, bs', next, depth₁, rfl, hbytes, hreads, hpart, hnext, hscan'⟩ :=
      exists_lexeme_of_scan hplace hrest hscan offset
    have hpos := hreads.length_pos
    rw [hbytes, List.length_append] at hraw ih
    have hraw' : rawArguments depth' (lexemesFrom .code (l.stop + bs'.length) rest) =
        some (r :: rs) := by
      rwa [Lexeme.stop, Nat.add_assoc]
    have hbehind := ih bs'.length (by omega) hnext hscan' hraw' rfl
    have hlexemes := (Lexes.cons hreads (lexes_lexemesFrom _ l.stop _)).eq_lexemesFrom
    rw [hbytes, List.append_assoc, ← hlexemes, List.append_assoc]
    exact rawArguments_keep hpart hbehind

/-- **Balanced bytes are one argument**, which goes on with what is read behind them. -/
theorem rawArguments_balanced {offset : Nat} {rest r : List UInt8} {rs : List (List UInt8)}
    (hbs : Balanced bs) (hrest : Mild rest)
    (hraw : rawArguments 0 (lexemesFrom .code (offset + bs.length) rest) = some (r :: rs)) :
    rawArguments 0 (lexemesFrom .code offset (bs ++ rest)) = some ((bs ++ r) :: rs) := by
  obtain ⟨slash, hscan⟩ := hbs
  exact rawArguments_scan (by simp) hrest hscan hraw

/-! ### From the list to the automaton -/

/-- The place of the automaton in a mode of the lexer. Comments are passed over in code. -/
def Mode.place : Mode → Place
  | .string quote => .string quote false
  | _ => .code false

/-- A comment is entered from code and left to code. -/
theorem place_of_comment {mode next : Mode} {l : Lexeme} {rest : List UInt8}
    (hreads : Reads mode l rest next) (hkind : l.kind = .comment) :
    mode.place = .code false ∧ next.place = .code false := by
  have hstep : ∀ {b : UInt8} {ahead : Option UInt8}, (mode.step b ahead).kind = .comment →
      mode.place = .code false ∧ (mode.step b ahead).next.place = .code false := by
    intro b ahead h
    cases mode with
    | code =>
      simp only [Mode.step] at h ⊢
      split_ifs at h ⊢ <;> exact ⟨rfl, rfl⟩
    | string quote =>
      simp only [Mode.step] at h
      split_ifs at h
    | lineComment =>
      simp only [Mode.step]
      split_ifs <;> exact ⟨rfl, rfl⟩
    | blockComment outer =>
      cases outer <;> simp only [Mode.step] <;> split_ifs <;> exact ⟨rfl, rfl⟩
  cases hreads with
  | single _ h _ => exact hstep (h.symm.trans hkind)
  | pair _ h _ => exact hstep (h.symm.trans hkind)

/-- The automaton reads a lexeme of a string that something stands behind. -/
theorem foldlM_string {mode next : Mode} {l : Lexeme} {rest : List UInt8}
    (hreads : Reads mode l rest next) (hkind : l.kind = .string) (hrest : rest ≠ []) :
    l.bytes.foldlM Scan.step ⟨mode.place, depth⟩ = some ⟨next.place, depth⟩ := by
  have hcomment : ¬ mode.IsComment := fun hmode => by
    rw [hreads.kind_of_isComment hmode] at hkind
    cases hkind
  cases hreads with
  | @single b hbytes hstep hsingle =>
    have hsingle := hsingle.resolve_right hrest
    rw [hkind] at hstep
    simp only [hbytes, List.foldlM_cons, List.foldlM_nil]
    cases mode with
    | code =>
      simp only [Mode.step] at hstep ⊢
      split_ifs at hstep ⊢ with hquote
      simp [Mode.place, Scan.step, hquote]
    | string quote =>
      simp only [Mode.step] at hsingle ⊢
      split_ifs at hsingle ⊢ with hescape hclose
      · subst hclose
        simp [Mode.place, Scan.step, hescape]
      · simp [Mode.place, Scan.step, hescape, hclose]
    | lineComment | blockComment outer => exact absurd trivial hcomment
  | @pair b ahead hbytes hstep hpair =>
    rw [hkind] at hstep
    simp only [hbytes, List.foldlM_cons, List.foldlM_nil]
    cases mode with
    | code =>
      simp only [Mode.step] at hpair hstep
      split_ifs at hpair hstep
    | string quote =>
      simp only [Mode.step] at hpair ⊢
      split_ifs at hpair ⊢ with hescape
      simp [Mode.place, Scan.step, hescape]
    | lineComment | blockComment outer => exact absurd trivial hcomment

/-- The automaton reads a byte of code that is kept. -/
theorem step_of_code {next : Mode} {l : Lexeme} {rest : List UInt8}
    (hreads : Reads .code l rest next) (hkind : l.kind = .code) (hbytes : l.bytes = [b])
    (hpart : l.part depth = .keep depth') :
    Scan.step ⟨.code false, depth⟩ b = some ⟨.code (b = byte '/'), depth'⟩ ∧
      (b = byte '/' → rest.head? ≠ some (byte '/') ∧ rest.head? ≠ some (byte '*')) := by
  rw [part_of_code depth hkind hbytes] at hpart
  cases hreads with
  | @single c hc hstep _ =>
    obtain rfl : c = b := by
      rw [hbytes] at hc
      exact (List.cons.inj hc).1.symm
    rw [hkind] at hstep
    simp only [Mode.step] at hstep
    split_ifs at hstep with hquote hline hblock
    refine ⟨by simp [Scan.step, hquote, hpart], fun hslash => ?_⟩
    simpa [hslash] using And.intro hline hblock
  | pair hc =>
    rw [hbytes] at hc
    cases hc

/-- A slash in front makes no difference to bytes that do not make a comment of it. -/
theorem foldlM_behind_slash (hslash : bs.head? ≠ some (byte '/'))
    (hstar : bs.head? ≠ some (byte '*'))
    (h : ∃ slash, bs.foldlM Scan.step ⟨.code false, depth⟩ = some ⟨.code slash, 0⟩) :
    ∃ slash, bs.foldlM Scan.step ⟨.code true, depth⟩ = some ⟨.code slash, 0⟩ := by
  obtain ⟨slash, h⟩ := h
  cases bs with
  | nil =>
    cases h
    exact ⟨true, rfl⟩
  | cons x bs =>
    have hx : x ≠ byte '/' ∧ x ≠ byte '*' := by simpa using And.intro hslash hstar
    have hstep : Scan.step ⟨.code true, depth⟩ x = Scan.step ⟨.code false, depth⟩ x := by
      simp [Scan.step, hx]
    exact ⟨slash, by rw [List.foldlM_cons, hstep]; exact h⟩

/-- Where a comment cannot start, an argument starts with the byte that stands there. -/
theorem head?_of_rawArguments {offset : Nat} {ls : List Lexeme} {r : List UInt8}
    {rs : List (List UInt8)} (hpass : Lexes .code offset bs ls)
    (hslash : bs.head? ≠ some (byte '/')) (h : rawArguments depth ls = some (r :: rs)) :
    r = [] ∨ r.head? = bs.head? := by
  cases hpass with
  | nil => cases h
  | @cons _ _ l rest _ hreads _ =>
    obtain ⟨x, xs, hbytes⟩ := List.exists_cons_of_ne_nil (List.length_pos_iff.mp hreads.length_pos)
    rcases rawArguments_cons_cases (fun hkind => (hreads.of_code hkind).2.2) h with
      ⟨hkind, -⟩ | ⟨_, r', -, -, rfl, -⟩ | ⟨_, _, -, -, -, rfl, -⟩ | ⟨-, -, -, rfl, -⟩
    · have hopens := hreads.opens id hkind
      simp only [hbytes, List.cons_append, List.head?_cons] at hslash hopens
      exact absurd hopens hslash
    · simp [hbytes]
    · exact Or.inl rfl
    · exact Or.inl rfl

/-- **The raw arguments of a list are balanced.** The first one is read from the place and depth at
which the list is entered. -/
theorem scan_of_rawArguments {mode : Mode} {offset : Nat} {ls : List Lexeme} {r : List UInt8}
    {rs : List (List UInt8)} (hpass : Lexes mode offset bs ls)
    (h : rawArguments depth ls = some (r :: rs)) :
    (∃ slash, r.foldlM Scan.step ⟨mode.place, depth⟩ = some ⟨.code slash, 0⟩) ∧
      ∀ r' ∈ rs, Balanced r' := by
  induction hpass generalizing depth r rs with
  | nil => cases h
  | @cons mode next l rest ls hreads hpass ih =>
    rcases rawArguments_cons_cases (fun hkind => (hreads.of_code hkind).2.2) h with
      ⟨hkind, hrest⟩ | ⟨depth', r', hkind, hpart, rfl, hrest⟩ |
      ⟨r', rs', hkind, -, rfl, rfl, rfl, hrest⟩ | ⟨hkind, -, rfl, rfl, rfl⟩
    · obtain ⟨hmode, hnext⟩ := place_of_comment hreads hkind
      rw [hmode, ← hnext]
      exact ih hrest
    · obtain ⟨hfirst, hothers⟩ := ih hrest
      refine ⟨?_, hothers⟩
      cases hcases : l.kind with
      | comment => exact absurd hcases hkind
      | string =>
        obtain rfl : depth = depth' := by
          rw [part_of_string hcases] at hpart
          exact Part.keep.inj hpart
        have hne : rest ≠ [] := by
          rintro rfl
          rw [hpass.eq_lexemesFrom] at hrest
          cases hrest
        rw [List.foldlM_append, foldlM_string hreads hcases hne]
        exact hfirst
      | code =>
        obtain ⟨rfl, rfl, b, hbytes⟩ := hreads.of_code hcases
        obtain ⟨hstep, hahead⟩ := step_of_code hreads hcases hbytes hpart
        rw [hbytes, List.singleton_append, List.foldlM_cons,
          show Mode.code.place = .code false from rfl, hstep]
        by_cases hslash : b = byte '/'
        · -- the argument goes on with the byte behind the slash, or ends here
          obtain ⟨hnotslash, hnotstar⟩ := hahead hslash
          rw [decide_eq_true hslash]
          rcases head?_of_rawArguments hpass hnotslash hrest with rfl | hhead
          · exact foldlM_behind_slash (by simp) (by simp) hfirst
          · exact foldlM_behind_slash (hhead ▸ hnotslash) (hhead ▸ hnotstar) hfirst
        · rw [decide_eq_false hslash]
          exact hfirst
    · obtain ⟨rfl, rfl, -⟩ := hreads.of_code hkind
      exact ⟨⟨false, rfl⟩, List.forall_mem_cons.mpr (ih hrest)⟩
    · obtain ⟨rfl, rfl, -⟩ := hreads.of_code hkind
      exact ⟨⟨false, rfl⟩, by simp⟩

end Scan

end Telemetry.Source
