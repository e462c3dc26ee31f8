import Mathlib.Data.List.Pairwise
import Telemetry.Proofs.Search
import Telemetry.Proofs.Source.Lexing
import Telemetry.Source.Coverage

/-!
The covered spans describe the lexemes faithfully.

* `coveredSpans_apart` — the spans of a pass are in ascending order, none is empty, and between two
  of them at least one offset is free: touching lexemes have been joined.
* `exists_coveredSpan_iff` — an offset lies in a span exactly when it lies in a lexeme of a string
  or a comment.
* `isCode_iff` — so the binary search decides whether an offset lies outside all of these, and for
  an offset inside a lexeme `isCode_of_mem` reads the answer off the kind of the lexeme.
* `coverage_faithful` — the lexemes tile the text, and the coverage tells which of them are not code.
-/

namespace Telemetry.Source

/-- An offset lies in a span. -/
def Span.Covers (s : Span) (q : Nat) : Prop :=
  s.start ≤ q ∧ q < s.stop

/-- An offset lies in a lexeme. -/
def Lexeme.Covers (l : Lexeme) (q : Nat) : Prop :=
  l.start ≤ q ∧ q < l.stop

/-- Spans from an offset on, none empty, in ascending order and with a gap between any two. -/
structure Apart (low : Nat) (spans : List Span) : Prop where
  within : ∀ s ∈ spans, low ≤ s.start ∧ s.start < s.stop
  gaps : spans.Pairwise fun s t => s.stop < t.start

/-! ### Joining spans -/

section Join

variable {s : Span} {spans : List Span}

/-- Joining a span to later ones keeps them apart. -/
theorem apart_join (hs : s.start < s.stop) (h : Apart s.stop spans) :
    Apart s.start (s.join spans) := by
  cases spans with
  | nil => exact ⟨by simp [Span.join, hs], by simp [Span.join]⟩
  | cons t ts =>
    obtain ⟨hwithin, hgaps⟩ := h
    obtain ⟨hgap, hrest⟩ := List.pairwise_cons.mp hgaps
    have ht := hwithin t List.mem_cons_self
    simp only [Span.join]
    split
    · constructor
      · intro u hu
        rcases List.mem_cons.mp hu with rfl | hu
        · exact ⟨Nat.le_refl _, by simp only; omega⟩
        · have := hwithin u (List.mem_cons_of_mem _ hu)
          omega
      · exact List.pairwise_cons.mpr ⟨hgap, hrest⟩
    · constructor
      · intro u hu
        rcases List.mem_cons.mp hu with rfl | hu
        · exact ⟨Nat.le_refl _, hs⟩
        · have := hwithin u hu
          omega
      · refine List.pairwise_cons.mpr ⟨fun u hu => ?_, hgaps⟩
        rcases List.mem_cons.mp hu with rfl | hu
        · omega
        · have := hgap u hu
          omega

/-- Joining a span covers its offsets beside those covered before. -/
theorem exists_mem_join_iff (hs : s.start < s.stop) (h : Apart s.stop spans) {q : Nat} :
    (∃ u ∈ s.join spans, u.Covers q) ↔ s.Covers q ∨ ∃ u ∈ spans, u.Covers q := by
  cases spans with
  | nil => simp [Span.join]
  | cons t ts =>
    have ht := h.within t List.mem_cons_self
    simp only [Span.join]
    split
    · rename_i htouch
      have hmerged : (⟨s.start, t.stop⟩ : Span).Covers q ↔ s.Covers q ∨ t.Covers q := by
        simp only [Span.Covers]
        omega
      simp only [List.mem_cons, exists_eq_or_imp, hmerged, or_assoc]
    · simp only [List.mem_cons, exists_eq_or_imp]

end Join

/-! ### The spans of a pass -/

section Pass

variable {mode : Mode} {offset : Nat} {bs : List UInt8} {ls : List Lexeme}

/-- **The covered spans of a pass stand apart**, from its first byte on. -/
theorem coveredSpans_apart (h : Lexes mode offset bs ls) : Apart offset (coveredSpans ls) := by
  induction h with
  | nil => exact ⟨by simp [coveredSpans], by simp [coveredSpans]⟩
  | @cons mode next l rest ls hreads _ ih =>
    have hpos := hreads.start_lt_stop
    simp only [coveredSpans]
    split
    · refine ⟨fun s hs => ?_, ih.gaps⟩
      have := ih.within s hs
      omega
    · exact apart_join (s := ⟨l.start, l.stop⟩) hpos ih

/-- **The covered offsets are those of the strings and comments.** -/
theorem exists_coveredSpan_iff (h : Lexes mode offset bs ls) {q : Nat} :
    (∃ s ∈ coveredSpans ls, s.Covers q) ↔ ∃ l ∈ ls, l.kind ≠ .code ∧ l.Covers q := by
  induction h with
  | nil => simp [coveredSpans]
  | @cons mode next l rest ls hreads hrest ih =>
    simp only [coveredSpans, List.mem_cons, exists_eq_or_imp]
    split
    · rename_i hcode
      rw [ih]
      simp [hcode]
    · rename_i hcode
      rw [exists_mem_join_iff (s := ⟨l.start, l.stop⟩) hreads.start_lt_stop
        (coveredSpans_apart hrest), ih]
      simp only [hcode, ne_eq, not_false_eq_true, true_and]
      rfl

end Pass

/-! ### The search -/

/-- Spans that stand apart are sorted by their first offsets, so the search finds the last one that
starts at an offset or before. -/
theorem turnsOnce_of_apart {low : Nat} {spans : List Span} (h : Apart low spans) (q : Nat) :
    Search.TurnsOnce (fun s : Span => decide (s.start ≤ q)) spans.toArray := by
  intro i j s t hij hs ht hq
  simp only [List.getElem?_toArray, decide_eq_true_eq] at hs ht hq ⊢
  rcases Nat.lt_or_eq_of_le hij with hlt | rfl
  · obtain ⟨hi, rfl⟩ := List.getElem?_eq_some_iff.mp hs
    obtain ⟨hj, rfl⟩ := List.getElem?_eq_some_iff.mp ht
    have hgap := List.pairwise_iff_getElem.mp h.gaps i j hi hj hlt
    have hpos := (h.within _ (List.getElem_mem hi)).2
    omega
  · rw [hs] at ht
    cases ht
    exact hq

/-- An offset is code exactly when no span covers it, for spans that stand apart. -/
theorem isCode_iff_of_apart {low : Nat} {spans : List Span} (h : Apart low spans) (q : Nat) :
    (Coverage.mk spans.toArray).isCode q = true ↔ ∀ s ∈ spans, ¬ s.Covers q := by
  have hborder := Search.partitionPoint_bounds (turnsOnce_of_apart h q)
  simp only [Coverage.isCode]
  generalize Search.partitionPoint (fun s : Span => decide (s.start ≤ q)) spans.toArray = n
    at hborder
  have hbefore : ∀ (i : Nat) (hi : i < spans.length), i < n → spans[i].start ≤ q := by
    intro i hi hin
    simpa using hborder.before i spans[i] hin (by simp [hi])
  have hbehind : ∀ (i : Nat) (hi : i < spans.length), n ≤ i → q < spans[i].start := by
    intro i hi hin
    simpa using hborder.behind i spans[i] hin (by simp [hi])
  cases n with
  | zero =>
    simp only [true_iff]
    intro s hs hcovers
    obtain ⟨i, hi, rfl⟩ := List.mem_iff_getElem.mp hs
    have := hbehind i hi (Nat.zero_le i)
    have := hcovers.1
    omega
  | succ n =>
    have hn : n < spans.length := by
      have := hborder.le_size
      simp only [List.size_toArray] at this
      omega
    simp only [List.getElem?_toArray, List.getElem?_eq_getElem hn, decide_eq_true_eq]
    have hlast := hbefore n hn (Nat.lt_succ_self n)
    constructor
    · intro hstop s hs hcovers
      obtain ⟨i, hi, rfl⟩ := List.mem_iff_getElem.mp hs
      -- the span found is the last candidate: earlier ones end before it, later ones start behind
      rcases Nat.lt_trichotomy i n with hlt | rfl | hgt
      · have hgap := List.pairwise_iff_getElem.mp h.gaps i n hi hn hlt
        have := hcovers.2
        omega
      · have := hcovers.2
        omega
      · have := hbehind i hi hgt
        have := hcovers.1
        omega
    · intro hnone
      have := hnone _ (List.getElem_mem hn)
      simp only [Span.Covers, not_and] at this
      have := this hlast
      omega

/-- **An offset is code exactly when it lies in no string and no comment.** -/
theorem isCode_iff {bs : List UInt8} {q : Nat} :
    (Coverage.ofBytes bs).isCode q = true ↔
      ∀ l ∈ lexemes bs, l.Covers q → l.kind = .code := by
  have hpass : Lexes .code 0 bs (lexemes bs) := lexes_lexemesFrom .code 0 bs
  rw [Coverage.ofBytes, isCode_iff_of_apart (coveredSpans_apart hpass)]
  have hspans := exists_coveredSpan_iff hpass (q := q)
  constructor
  · intro hnone l hl hcovers
    by_contra hkind
    obtain ⟨s, hs, hsq⟩ := hspans.mpr ⟨l, hl, hkind, hcovers⟩
    exact hnone s hs hsq
  · intro hcode s hs hcovers
    obtain ⟨l, hl, hkind, hlq⟩ := hspans.mp ⟨s, hs, hcovers⟩
    exact hkind (hcode l hl hlq)

/-- **The coverage of a text is a faithful map of its lexemes.** The lexemes fill the text from end
to end, whatever strings and comments are left open in it. The spans are not empty, in ascending
order and never touch, and they cover the offsets of the strings and comments. So the binary search
says of any offset, in the text or behind it, that it is not code exactly if it lies in a lexeme of a
string or a comment. -/
theorem coverage_faithful (bs : List UInt8) :
    Tiles 0 bs.length (lexemes bs) ∧
    (lexemes bs).flatMap Lexeme.bytes = bs ∧
    (∀ s ∈ (Coverage.ofBytes bs).spans, s.start < s.stop) ∧
    ((Coverage.ofBytes bs).spans.toList.Pairwise fun s t => s.stop < t.start) ∧
    (∀ q, (∃ s ∈ (Coverage.ofBytes bs).spans, s.start ≤ q ∧ q < s.stop) ↔
      ∃ l ∈ lexemes bs, (l.kind = .string ∨ l.kind = .comment) ∧ l.start ≤ q ∧ q < l.stop) ∧
    ∀ q, (Coverage.ofBytes bs).isCode q = false ↔
      ∃ l ∈ lexemes bs, (l.kind = .string ∨ l.kind = .comment) ∧ l.start ≤ q ∧ q < l.stop := by
  have hpass : Lexes .code 0 bs (lexemes bs) := lexes_lexemesFrom .code 0 bs
  have hapart : Apart 0 (coveredSpans (lexemes bs)) := coveredSpans_apart hpass
  have hkind : ∀ l : Lexeme, l.kind ≠ .code ↔ l.kind = .string ∨ l.kind = .comment := by
    intro l
    cases l.kind <;> simp
  have hspans : ∀ q, (∃ s ∈ (Coverage.ofBytes bs).spans, s.start ≤ q ∧ q < s.stop) ↔
      ∃ l ∈ lexemes bs, (l.kind = .string ∨ l.kind = .comment) ∧ l.start ≤ q ∧ q < l.stop := by
    intro q
    simp only [← hkind, Coverage.ofBytes, List.mem_toArray]
    exact exists_coveredSpan_iff hpass
  refine ⟨?_, hpass.flatMap_bytes, fun s hs => ?_, hapart.gaps, hspans, fun q => ?_⟩
  · simpa only [Nat.zero_add] using hpass.tiles
  · exact (hapart.within s (List.mem_toArray.mp hs)).2
  · rw [← hspans, ← Bool.not_eq_true, Coverage.ofBytes, isCode_iff_of_apart hapart]
    simp only [List.mem_toArray, Span.Covers, not_forall, not_not, exists_prop]

/-- A literal next to a comment is one span, and a string that is left open behind a backslash is
another; the byte between them is code. -/
theorem coverage_faithful_adjacent :
    let bs := Text.encode "'a'/*b*/x\"\\".toList
    (⟨.comment, 6, [Text.byte '*', Text.byte '/']⟩ : Lexeme) ∈ lexemes bs ∧
      (⟨0, 8⟩ : Span) ∈ (Coverage.ofBytes bs).spans ∧
      (⟨9, 11⟩ : Span) ∈ (Coverage.ofBytes bs).spans ∧
      (Coverage.ofBytes bs).isCode 7 = false ∧ (Coverage.ofBytes bs).isCode 8 = true := by
  intro bs
  have hcomment : (⟨.comment, 6, [Text.byte '*', Text.byte '/']⟩ : Lexeme) ∈ lexemes bs := by
    decide +kernel
  obtain ⟨-, -, -, -, -, hsearch⟩ := coverage_faithful bs
  exact ⟨hcomment, by decide +kernel, by decide +kernel,
    (hsearch 7).mpr ⟨_, hcomment, Or.inr rfl, by decide, by decide⟩, by decide +kernel⟩

/-- At most one lexeme of a pass covers an offset. -/
theorem Lexes.eq_of_covers {mode : Mode} {offset : Nat} {bs : List UInt8} {ls : List Lexeme}
    (h : Lexes mode offset bs ls) {l l' : Lexeme} (hl : l ∈ ls) (hl' : l' ∈ ls) {q : Nat}
    (hq : l.Covers q) (hq' : l'.Covers q) : l = l' := by
  obtain ⟨i, hi, rfl⟩ := List.mem_iff_getElem.mp hl
  obtain ⟨j, hj, rfl⟩ := List.mem_iff_getElem.mp hl'
  have hpairs := List.pairwise_iff_getElem.mp h.pairwise
  simp only [Lexeme.Covers] at hq hq'
  rcases Nat.lt_trichotomy i j with hlt | rfl | hgt
  · have := hpairs i j hi hj hlt
    omega
  · rfl
  · have := hpairs j i hj hi hgt
    omega

/-- The kind of a lexeme decides for the offsets inside it. -/
theorem isCode_of_mem {bs : List UInt8} {l : Lexeme} (hl : l ∈ lexemes bs) {q : Nat}
    (hq : l.Covers q) : (Coverage.ofBytes bs).isCode q = true ↔ l.kind = .code := by
  rw [isCode_iff]
  constructor
  · intro h
    exact h l hl hq
  · intro hkind l' hl' hq'
    rw [← (lexes_lexemesFrom .code 0 bs).eq_of_covers hl hl' hq hq']
    exact hkind

end Telemetry.Source
