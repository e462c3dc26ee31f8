import Telemetry.Proofs.Source.Coverage
import Telemetry.Proofs.Text.Reading
import Telemetry.Source.Delimiters

/-!
The lexer falls into step at every code offset.

* `lexemes_split_of_isCode` — at a code offset the lexemes of the text divide: one of them is the
  byte at the offset, and those behind it are what a fresh pass behind the offset reads.
* `lexemesAt_resynchronises` — so a fresh pass at a code offset reads the end of the lexemes of the
  whole text, arguments and matching braces are cut by the strings and comments of the whole text,
  and a matching brace is code again.

Only code offsets have this property: a pass that starts inside a string takes its closing quote
for an opening one.
-/

namespace Telemetry.Source

open Telemetry.Text (byte dropWhile_append_stop)

section Resynchronisation

variable {bs : List UInt8} {p : Nat}

/-- **The lexemes divide at a code offset.** -/
theorem lexemes_split_of_isCode (hp : p < bs.length)
    (hcode : (Coverage.ofBytes bs).isCode p = true) :
    ∃ before b, bs[p]? = some b ∧
      lexemes bs = before ++ ⟨.code, p, [b]⟩ :: lexemesAt bs (p + 1) ∧
      lexemesAt bs p = ⟨.code, p, [b]⟩ :: lexemesAt bs (p + 1) ∧
      ∀ l ∈ before, l.start < l.stop ∧ l.stop ≤ p := by
  have hpass : Lexes .code 0 bs (lexemes bs) := lexes_lexemesFrom .code 0 bs
  obtain ⟨l, hl, hcovers⟩ := hpass.exists_at (Nat.zero_le p) (by omega)
  have hkind : l.kind = .code := (isCode_of_mem hl hcovers).mp hcode
  obtain ⟨before, after, hsplit⟩ := List.append_of_mem hl
  rw [hsplit] at hpass
  obtain ⟨mode, next, rest, hbs, hstart, hreads, hafter⟩ := hpass.split
  obtain ⟨rfl, rfl, b, hb⟩ := hreads.of_code hkind
  -- the lexeme is a single byte, so it stands at the offset itself
  have hlp : l.start = p ∧ l.stop = p + 1 := by
    simp only [Lexeme.stop, hb, List.length_singleton] at hcovers ⊢
    omega
  have hlexeme : l = ⟨.code, p, [b]⟩ := by
    rw [← hkind, ← hlp.1, ← hb]
  have hlen : (before.flatMap Lexeme.bytes).length = p := by omega
  rw [hb, List.singleton_append] at hbs
  have hdrop : bs.drop p = b :: rest := by rw [hbs, List.drop_left' hlen]
  have hrest : lexemesAt bs (p + 1) = after := by
    rw [hlp.2] at hafter
    rw [lexemesAt, hafter.eq_lexemesFrom, ← List.drop_drop, hdrop, List.drop_one, List.tail_cons]
  have hat : lexemesAt bs p = l :: after := by
    have hfresh := Lexes.cons hreads hafter
    rw [hlp.1, hb, List.singleton_append] at hfresh
    rw [lexemesAt, hdrop]
    exact hfresh.eq_lexemesFrom.symm
  have hbyte : bs[p]? = some b := by
    rw [hbs, List.getElem?_append_right (by omega), hlen]
    simp
  refine ⟨before, b, hbyte, ?_, ?_, fun l' hl' => ?_⟩
  · rw [hsplit, hlexeme, hrest]
  · rw [hat, hlexeme, hrest]
  · have hwithin := hpass.within (List.mem_append_left _ hl')
    have hordered := (List.pairwise_append.mp hpass.pairwise).2.2 l' hl' l List.mem_cons_self
    omega

/-- A fresh pass at a code offset reads the lexemes from there on. -/
theorem lexemesAt_eq_dropWhile (hp : p < bs.length)
    (hcode : (Coverage.ofBytes bs).isCode p = true) :
    lexemesAt bs p = (lexemes bs).dropWhile fun l => decide (l.start < p) := by
  obtain ⟨before, b, -, hsplit, hat, hbefore⟩ := lexemes_split_of_isCode hp hcode
  rw [hsplit, hat, dropWhile_append_stop]
  · intro l hl
    have := hbefore l hl
    simp only [decide_eq_true_eq]
    omega
  · rintro _ ⟨⟩
    simp

/-- A fresh pass behind a code offset reads the lexemes behind it. -/
theorem lexemesAt_succ_eq_dropWhile (hp : p < bs.length)
    (hcode : (Coverage.ofBytes bs).isCode p = true) :
    lexemesAt bs (p + 1) = (lexemes bs).dropWhile fun l => decide (l.start ≤ p) := by
  obtain ⟨before, b, -, hsplit, -, hbefore⟩ := lexemes_split_of_isCode hp hcode
  rw [hsplit, List.append_cons, dropWhile_append_stop]
  · intro l hl
    simp only [decide_eq_true_eq]
    rcases List.mem_append.mp hl with hl | hl
    · have := hbefore l hl
      omega
    · rw [List.mem_singleton.mp hl]
  · intro l hl
    have hpass : Lexes .code (p + 1) (bs.drop (p + 1)) (lexemesAt bs (p + 1)) :=
      lexes_lexemesFrom _ _ _
    have := hpass.within (List.mem_of_mem_head? hl)
    simp only [decide_eq_false_iff_not]
    omega

/-- A fresh pass at a code offset sees the strings and comments of the whole text. -/
theorem isCode_iff_lexemesAt (hp : p < bs.length)
    (hcode : (Coverage.ofBytes bs).isCode p = true) {q : Nat} (hq : p ≤ q) :
    (Coverage.ofBytes bs).isCode q = true ↔
      ∀ l ∈ lexemesAt bs p, l.Covers q → l.kind = .code := by
  obtain ⟨before, b, -, hsplit, hat, hbefore⟩ := lexemes_split_of_isCode hp hcode
  rw [isCode_iff, hsplit, hat]
  constructor
  · intro h l hl
    exact h l (List.mem_append_right _ hl)
  · intro h l hl hcovers
    rcases List.mem_append.mp hl with hl | hl
    · have := hbefore l hl
      have := hcovers.2
      omega
    · exact h l hl hcovers

/-! ### Matching braces -/

/-- A closing brace is one of the lexemes of code. -/
theorem exists_mem_of_closingBrace {depth : Nat} {ls : List Lexeme} {c : Nat}
    (h : closingBrace depth ls = some c) :
    ∃ l ∈ ls, l.code? = some (byte '\x7d') ∧ l.start = c := by
  fun_induction closingBrace depth ls with
  | case1 => cases h
  | case2 depth l ls hopen ih =>
    obtain ⟨l', hl', hc⟩ := ih h
    exact ⟨l', List.mem_cons_of_mem _ hl', hc⟩
  | case3 depth l ls _ hclose hzero => exact ⟨l, List.mem_cons_self, hclose, Option.some.inj h⟩
  | case4 depth l ls _ _ _ ih =>
    obtain ⟨l', hl', hc⟩ := ih h
    exact ⟨l', List.mem_cons_of_mem _ hl', hc⟩
  | case5 depth l ls _ _ ih =>
    obtain ⟨l', hl', hc⟩ := ih h
    exact ⟨l', List.mem_cons_of_mem _ hl', hc⟩

theorem code?_eq_some_iff {l : Lexeme} {b : UInt8} :
    l.code? = some b ↔ l.kind = .code ∧ l.bytes.head? = some b := by
  unfold Lexeme.code?
  split <;> simp [*]

/-- A fresh pass at an opening brace reads the brace as code. -/
theorem lexemesAt_brace {o : Nat} (h : bs[o]? = some (byte '\x7b')) :
    lexemesAt bs o = ⟨.code, o, [byte '\x7b']⟩ :: lexemesAt bs (o + 1) := by
  obtain ⟨ho, hbyte⟩ := List.getElem?_eq_some_iff.mp h
  rw [lexemesAt, List.drop_eq_getElem_cons ho, hbyte, lexemesAt]
  cases bs.drop (o + 1) with
  | nil => rfl
  | cons b rest => rfl

/-- A match is found behind the opening brace, which is read first and opens the block. -/
theorem matchingBrace_eq_some_iff {o c : Nat} :
    matchingBrace bs o = some c ↔
      bs[o]? = some (byte '\x7b') ∧ closingBrace 1 (lexemesAt bs (o + 1)) = some c := by
  unfold matchingBrace
  split
  · rename_i hopen
    have hdepth : closingBrace 0 (lexemesAt bs o) = closingBrace 1 (lexemesAt bs (o + 1)) := by
      rw [lexemesAt_brace hopen]
      rfl
    rw [hdepth]
    exact ⟨fun h => ⟨hopen, h⟩, fun h => h.2⟩
  · rename_i hopen
    simp [hopen]

/-- A block lies between an opening brace and a closing one behind it. -/
theorem matchingBrace_bounds {o c : Nat} (h : matchingBrace bs o = some c) :
    bs[o]? = some (byte '\x7b') ∧ o < c ∧ bs[c]? = some (byte '\x7d') := by
  obtain ⟨hopen, hclosing⟩ := matchingBrace_eq_some_iff.mp h
  obtain ⟨l, hl, hclose, rfl⟩ := exists_mem_of_closingBrace hclosing
  have hpass : Lexes .code (o + 1) (bs.drop (o + 1)) (lexemesAt bs (o + 1)) :=
    lexes_lexemesFrom _ _ _
  have hwithin := hpass.within hl
  obtain ⟨-, hhead⟩ := code?_eq_some_iff.mp hclose
  have hpos : 0 < l.bytes.length := List.length_pos_of_mem (List.mem_of_mem_head? hhead)
  refine ⟨hopen, by omega, ?_⟩
  have hget := hpass.getElem?_bytes hl hpos
  rw [List.getElem?_drop, ← List.head?_eq_getElem?, hhead] at hget
  rw [← hget]
  congr 1
  omega

/-- The brace that closes a brace of code is code. -/
theorem isCode_of_matchingBrace (hp : p < bs.length)
    (hcode : (Coverage.ofBytes bs).isCode p = true) {c : Nat} (h : matchingBrace bs p = some c) :
    (Coverage.ofBytes bs).isCode c = true := by
  simp only [matchingBrace] at h
  split at h
  · obtain ⟨l, hl, hclose, rfl⟩ := exists_mem_of_closingBrace h
    obtain ⟨before, b, -, hsplit, hat, -⟩ := lexemes_split_of_isCode hp hcode
    have hmem : l ∈ lexemes bs := by
      rw [hsplit, ← hat]
      exact List.mem_append_right _ hl
    have hpos := ((lexes_lexemesFrom .code 0 bs).within hmem).2.1
    exact (isCode_of_mem hmem ⟨Nat.le_refl _, hpos⟩).mpr (code?_eq_some_iff.mp hclose).1
  · cases h

/-- **The lexer falls into step at every code offset.** A fresh pass there reads the end of the
lexemes of the whole text and sees the same strings and comments. So the arguments of a call and
the match of a brace at a code offset are cut out of the lexemes of the whole text, and the match
is a code offset again. -/
theorem lexemesAt_resynchronises (hp : p < bs.length)
    (hcode : (Coverage.ofBytes bs).isCode p = true) :
    (lexemesAt bs p = (lexemes bs).dropWhile fun l => decide (l.start < p)) ∧
    (∀ q, p ≤ q → ((Coverage.ofBytes bs).isCode q = true ↔
      ∀ l ∈ lexemesAt bs p, l.start ≤ q → q < l.stop → l.kind = .code)) ∧
    (arguments bs p =
      if bs[p]? = some (byte '(') then
        match rawArguments 0 ((lexemes bs).dropWhile fun l => decide (l.start ≤ p)) with
        | some raw => dropLoneEmpty (raw.map argumentText)
        | none => []
      else []) ∧
    (matchingBrace bs p =
      if bs[p]? = some (byte '\x7b') then
        closingBrace 0 ((lexemes bs).dropWhile fun l => decide (l.start < p))
      else none) ∧
    ∀ c, matchingBrace bs p = some c → (Coverage.ofBytes bs).isCode c = true := by
  refine ⟨lexemesAt_eq_dropWhile hp hcode, fun q hq => ?_, ?_, ?_, fun c hc => ?_⟩
  · rw [isCode_iff_lexemesAt hp hcode hq]
    simp only [Lexeme.Covers, and_imp]
  · rw [← lexemesAt_succ_eq_dropWhile hp hcode]
    rfl
  · rw [matchingBrace, lexemesAt_eq_dropWhile hp hcode]
  · exact isCode_of_matchingBrace hp hcode hc

/-- A brace behind an escaped quote and a comment, with a quoted brace in its block. -/
theorem lexemesAt_resynchronises_quoted :
    matchingBrace (Text.encode "\"\\\"\" /* x */ \x7b '\x7d' \x7d".toList) 13 = some 19 ∧
    (Coverage.ofBytes
      (Text.encode "\"\\\"\" /* x */ \x7b '\x7d' \x7d".toList)).isCode 19 = true := by
  have hp : 13 < (Text.encode "\"\\\"\" /* x */ \x7b '\x7d' \x7d".toList).length := by
    decide +kernel
  have hcode : (Coverage.ofBytes
      (Text.encode "\"\\\"\" /* x */ \x7b '\x7d' \x7d".toList)).isCode 13 = true := by
    decide +kernel
  have hmatch : matchingBrace (Text.encode "\"\\\"\" /* x */ \x7b '\x7d' \x7d".toList) 13 =
      some 19 := by decide +kernel
  exact ⟨hmatch, (lexemesAt_resynchronises hp hcode).2.2.2.2 19 hmatch⟩

end Resynchronisation

end Telemetry.Source
