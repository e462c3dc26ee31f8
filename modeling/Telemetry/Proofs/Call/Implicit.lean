import Telemetry.Proofs.Call.Phrases

/-!
The look back from a bare call. `lookBack` names what `isImplicitCall` compares with a word: the
text in front of the call, read backwards, behind the blanks and behind the marks of an access.

* `isImplicitCall_eq_lookBack` — the verdict depends on what the look back finds.
* `isImplicitCall_append` — a character that ends words hides what stands before it, if the look
  back has found something by then or stops there.
* `exposing_of_lookBack` — behind blanks and the marks of an access, nothing has been found.
-/

namespace Telemetry.Call

open Telemetry.Text

/-- Whether a call is the member of something, and the text in front of it or of its access, read
backwards. -/
def lookBack (reversed : List Char) : Bool × List Char :=
  match reversed.dropWhile isBlank with
  | '.' :: rest =>
    match rest.dropWhile isBlank with
    | '?' :: rest => (true, rest.dropWhile isBlank)
    | rest => (true, rest)
  | rest => (false, rest)

theorem isImplicitCall_eq_lookBack (reversed : List Char) :
    isImplicitCall reversed =
      match lookBack reversed with
      | (true, rest) => endsWithWord "this" rest
      | (false, rest) => !endsWithWord "fun" rest := by
  unfold isImplicitCall lookBack
  rcases reversed.dropWhile isBlank with _ | ⟨d, ds⟩
  · rfl
  · by_cases hdot : d = '.'
    · subst hdot
      rcases hes : ds.dropWhile isBlank with _ | ⟨e, es⟩
      · simp only [hes]
      · by_cases hquestion : e = '?'
        · subst hquestion
          simp only [hes]
        · simp [hes, hquestion]
    · simp [hdot]

/-! ### Words -/

section Words

variable {word : String} {x y : List Char} {c : Char}

/-- A character that is no letter, number or underscore ends a word as the end of the text does. -/
theorem endsWithWord_append
    (hword : word.toList.all (fun d => isAlphanumeric d || d == '_') = true)
    (hc : (isAlphanumeric c || c == '_') = false) :
    endsWithWord word (x ++ c :: y) = endsWithWord word x := by
  unfold endsWithWord
  cases hfound : word.toList.reverse.isPrefixOf? x with
  | some rest =>
    rw [List.isPrefixOf?_eq_some_iff_append_eq] at hfound
    have hlonger : word.toList.reverse.isPrefixOf? (x ++ c :: y) = some (rest ++ c :: y) := by
      rw [List.isPrefixOf?_eq_some_iff_append_eq, ← hfound, List.append_assoc]
    rw [hlonger]
    cases rest with
    | nil => simp [hc]
    | cons d rest => rfl
  | none =>
    cases hlonger : word.toList.reverse.isPrefixOf? (x ++ c :: y) with
    | none => rfl
    | some rest =>
      rw [List.isPrefixOf?_eq_some_iff_append_eq] at hlonger
      rcases List.append_eq_append_iff.mp hlonger with ⟨z, hx, -⟩ | ⟨z, hreverse, htail⟩
      · rw [List.isPrefixOf?_eq_some_iff_append_eq.mpr hx.symm] at hfound
        cases hfound
      · cases z with
        | nil =>
          rw [List.append_nil] at hreverse
          rw [hreverse, List.isPrefixOf?_eq_some_iff_append_eq.mpr (List.append_nil x)] at hfound
          cases hfound
        | cons d z =>
          obtain ⟨rfl, -⟩ := List.cons.inj htail
          have hmem : c ∈ word.toList := by
            rw [← List.mem_reverse, hreverse]
            simp
          rw [List.all_eq_true.mp hword c hmem] at hc
          cases hc

end Words

/-! ### What the look back finds -/

section LookBack

variable {x y z : List Char} {c : Char}

/-- A text whose first character ends the look back. -/
def Stops (z : List Char) : Prop :=
  ∃ c y, z = c :: y ∧ IsCloser c

theorem dropWhile_isBlank_append (h : x.dropWhile isBlank ≠ [] ∨ Stops z) :
    (x ++ z).dropWhile isBlank = x.dropWhile isBlank ++ z := by
  rcases h with h | ⟨c, y, rfl, hc⟩
  · rw [List.dropWhile_append, if_neg (by simpa using h)]
  · exact dropWhile_append_cons hc.blank

/-- What has been found does not become a mark by what stands before it. -/
theorem append_ne_mark {mark : Char} (hmark : mark = '.' ∨ mark = '?') (h : x ≠ [] ∨ Stops z)
    (hx : ∀ rest, x = mark :: rest → False) (rest : List Char) (heq : x ++ z = mark :: rest) :
    False := by
  cases x with
  | nil =>
    obtain ⟨c, y, rfl, hc⟩ := h.resolve_left (by simp)
    obtain ⟨rfl, -⟩ := List.cons.inj heq
    rcases hmark with hmark | hmark
    · exact hc.dot hmark
    · exact hc.question hmark
  | cons d x =>
    obtain ⟨rfl, -⟩ := List.cons.inj heq
    exact hx x rfl

/-- **What the look back has found**, or a character that ends it, hides what stands before. -/
theorem lookBack_append (h : (lookBack x).2 ≠ [] ∨ Stops z) :
    lookBack (x ++ z) = ((lookBack x).1, (lookBack x).2 ++ z) := by
  unfold lookBack at h ⊢
  split at h
  · rename_i rest hrest
    have hdot : (x ++ z).dropWhile isBlank = '.' :: (rest ++ z) := by
      rw [dropWhile_isBlank_append (Or.inl (by simp [hrest])), hrest, List.cons_append]
    simp only [hdot]
    split at h
    · rename_i rest' hrest'
      have hquestion : (rest ++ z).dropWhile isBlank = '?' :: (rest' ++ z) := by
        rw [dropWhile_isBlank_append (Or.inl (by simp [hrest'])), hrest', List.cons_append]
      simp only [hquestion, dropWhile_isBlank_append h]
    · rename_i hother
      have hnone := append_ne_mark (Or.inr rfl) h hother
      rw [dropWhile_isBlank_append h]
      split
      · exact (hnone _ ‹_›).elim
      · rfl
  · rename_i hother
    have hnone := append_ne_mark (Or.inl rfl) h hother
    rw [dropWhile_isBlank_append h]
    split
    · exact (hnone _ ‹_›).elim
    · rfl

/-- **The verdict on a call** does not depend on what stands before a character that ends words, if
the look back has found something up to there or goes no further. -/
theorem isImplicitCall_append (hc : (isAlphanumeric c || c == '_') = false)
    (h : (lookBack x).2 ≠ [] ∨ Stops (c :: y)) :
    isImplicitCall (x ++ c :: y) = isImplicitCall x := by
  rw [isImplicitCall_eq_lookBack, isImplicitCall_eq_lookBack, lookBack_append h]
  generalize lookBack x = found
  obtain ⟨isMember, rest⟩ := found
  cases isMember with
  | true => exact endsWithWord_append (by decide) hc
  | false => exact congrArg not (endsWithWord_append (by decide) hc)

/-- Blanks, perhaps with the marks of an access among them. -/
def Exposing (lead : List Char) : Prop :=
  ∃ b₁ mark b₂, Blanks b₁ ∧ Blanks b₂ ∧ lead = b₁ ++ (mark ++ b₂) ∧
    (mark = [] ∨ mark = ['.'] ∨ ∃ b, Blanks b ∧ mark = '?' :: (b ++ ['.']))

theorem Exposing.isIdentifierPart_eq_false {lead : List Char} (h : Exposing lead) :
    ∀ c ∈ lead, isIdentifierPart c = false := by
  obtain ⟨b₁, mark, b₂, hb₁, hb₂, rfl, hmark⟩ := h
  have hmarks : ∀ c ∈ mark, isIdentifierPart c = false := by
    rcases hmark with rfl | rfl | ⟨b, hb, rfl⟩
    · simp
    · exact IsAccess.isIdentifierPart_eq_false (Or.inl rfl)
    · intro c hc
      simp only [List.mem_cons, List.mem_append, List.not_mem_nil, or_false] at hc
      rcases hc with rfl | hc | rfl
      · decide
      · exact isIdentifierPart_of_isBlank (hb c hc)
      · decide
  intro c hc
  simp only [List.mem_append] at hc
  rcases hc with hc | hc | hc
  · exact isIdentifierPart_of_isBlank (hb₁ c hc)
  · exact hmarks c hc
  · exact isIdentifierPart_of_isBlank (hb₂ c hc)

theorem blanks_reverse {s : List Char} (h : Blanks s) : Blanks s.reverse :=
  fun c hc => h c (List.mem_reverse.mp hc)

/-- A look back that finds nothing has passed blanks and an access only. -/
theorem exposing_of_lookBack {lead : List Char} (h : (lookBack lead.reverse).2 = []) :
    Exposing lead := by
  unfold lookBack at h
  split at h
  · rename_i rest hrest
    obtain ⟨⟨s, hs, hlead⟩, -⟩ := trimStart_eq_iff.mp hrest
    rw [List.reverse_eq_iff] at hlead
    split at h
    · rename_i rest' hrest'
      obtain ⟨⟨s', hs', rfl⟩, -⟩ := trimStart_eq_iff.mp hrest'
      refine ⟨rest'.reverse, _, s.reverse, blanks_reverse (List.dropWhile_eq_nil_iff.mp h),
        blanks_reverse hs, ?_, Or.inr (Or.inr ⟨s'.reverse, blanks_reverse hs', rfl⟩)⟩
      simp [hlead]
    · refine ⟨rest.reverse, ['.'], s.reverse, blanks_reverse (List.dropWhile_eq_nil_iff.mp h),
        blanks_reverse hs, ?_, Or.inr (Or.inl rfl)⟩
      simp [hlead]
  · refine ⟨lead, [], [], ?_, by simp [Blanks], by simp, Or.inl rfl⟩
    simpa using blanks_reverse (List.dropWhile_eq_nil_iff.mp h)

end LookBack

end Telemetry.Call
