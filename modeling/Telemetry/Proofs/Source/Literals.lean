import Telemetry.Proofs.Source.Balance

/-!
Literals, in terms of the lexer.

`IsLiteral` says of bytes that they are one string in double quotes: the string that the first byte
opens is closed by the last byte and not before. `isUnbroken` decides the same of what stands
between two quotes.

* `Reads.of_string` — what one lexeme in a string can be.
* `isLiteral_iff` — bytes are one literal exactly if they are an unbroken text between quotes: none
  of its own quotes closes the string, and it does not end with a backslash that takes the last
  quote along.
-/

namespace Telemetry.Source

open Telemetry.Text (byte)

/-- A string in double quotes is closed by the last of the bytes and not before: each lexeme stays
in the string, and the last one leaves it. -/
inductive ClosedByLast : List UInt8 → Prop where
  | last {l : Lexeme} (hreads : Reads (.string (byte '"')) l [] .code) : ClosedByLast l.bytes
  | step {l : Lexeme} {rest : List UInt8}
      (hreads : Reads (.string (byte '"')) l rest (.string (byte '"')))
      (hrest : ClosedByLast rest) : ClosedByLast (l.bytes ++ rest)

/-- The bytes are one string in double quotes: the string that the first byte opens is closed by
the last one. -/
def IsLiteral (bs : List UInt8) : Prop :=
  ∃ l rest, bs = l.bytes ++ rest ∧ Reads .code l rest (.string (byte '"')) ∧ ClosedByLast rest

/-- No quote in the bytes closes a string in double quotes, and no backslash at their end takes the
next byte along. -/
def isUnbroken : List UInt8 → Bool
  | [] => true
  | [b] => b ≠ byte '\\' && b ≠ byte '"'
  | b :: ahead :: bs =>
    if b = byte '\\' then isUnbroken bs else b ≠ byte '"' && isUnbroken (ahead :: bs)

section Strings

variable {quote b : UInt8} {l : Lexeme} {rest bs : List UInt8} {next : Mode}

theorem isUnbroken_cons (hescape : b ≠ byte '\\') (hquote : b ≠ byte '"') (bs : List UInt8) :
    isUnbroken (b :: bs) = isUnbroken bs := by
  cases bs with
  | nil => simp [isUnbroken, hescape, hquote]
  | cons ahead bs => simp [isUnbroken, hescape, hquote]

/-- **The four ways of a lexeme in a string**: it is the quote that closes the string, a backslash
with the byte that it takes along, a backslash at the end of the text, or one other byte. -/
theorem Reads.of_string (h : Reads (.string quote) l rest next) :
    (l.bytes = [quote] ∧ next = .code) ∨
    (∃ b, l.bytes = [byte '\\', b] ∧ next = .string quote) ∨
    (l.bytes = [byte '\\'] ∧ rest = [] ∧ next = .string quote) ∨
    ∃ b, b ≠ byte '\\' ∧ b ≠ quote ∧ l.bytes = [b] ∧ next = .string quote := by
  cases h with
  | @single b hbytes _ hsingle =>
    simp only [Mode.step] at hsingle ⊢
    split_ifs at hsingle ⊢ with hescape hclose
    · refine Or.inr (Or.inr (Or.inl ⟨by rw [hbytes, hescape], ?_, rfl⟩))
      exact hsingle.resolve_left (by simp)
    · exact Or.inl ⟨by rw [hbytes, hclose], rfl⟩
    · exact Or.inr (Or.inr (Or.inr ⟨b, hescape, hclose, hbytes, rfl⟩))
  | @pair b ahead hbytes _ hpair =>
    simp only [Mode.step] at hpair ⊢
    split_ifs at hpair ⊢ with hescape
    exact Or.inr (Or.inl ⟨ahead, by rw [hbytes, hescape], rfl⟩)

/-- A string is opened by its quote. -/
theorem Reads.opens_string (h : Reads .code l rest (.string quote)) : l.bytes = [quote] := by
  generalize hnext : Mode.string quote = next at h
  cases h with
  | @single b hbytes _ _ =>
    simp only [Mode.step] at hnext
    split_ifs at hnext
    rw [hbytes, Mode.string.inj hnext]
  | pair _ _ hpair =>
    simp only [Mode.step] at hnext hpair
    split_ifs at hnext hpair

theorem ClosedByLast.exists_unbroken (h : ClosedByLast bs) :
    ∃ front, bs = front ++ [byte '"'] ∧ isUnbroken front = true := by
  induction h with
  | last hreads =>
    rcases hreads.of_string with ⟨hbytes, -⟩ | ⟨_, -, hnext⟩ | ⟨-, -, hnext⟩ | ⟨_, -, -, -, hnext⟩
    · exact ⟨[], hbytes, rfl⟩
    all_goals cases hnext
  | @step l rest hreads hrest ih =>
    obtain ⟨front, rfl, hfront⟩ := ih
    rcases hreads.of_string with
      ⟨-, hnext⟩ | ⟨b, hbytes, -⟩ | ⟨-, hempty, -⟩ | ⟨b, hescape, hquote, hbytes, -⟩
    · cases hnext
    · exact ⟨byte '\\' :: b :: front, by rw [hbytes]; rfl, by simp [isUnbroken, hfront]⟩
    · simp at hempty
    · exact ⟨b :: front, by rw [hbytes]; rfl, by rw [isUnbroken_cons hescape hquote, hfront]⟩

theorem closedByLast_of_unbroken (h : isUnbroken bs = true) : ClosedByLast (bs ++ [byte '"']) := by
  have hother : ∀ {b : UInt8} {rest : List UInt8}, b ≠ byte '\\' → b ≠ byte '"' →
      ClosedByLast rest → ClosedByLast (b :: rest) := by
    intro b rest hescape hquote hrest
    refine .step (l := ⟨.string, 0, [b]⟩) (reads_single ?_) hrest
    simp [Mode.step, hescape, hquote]
  have hclose : ClosedByLast [byte '"'] :=
    .last (l := ⟨.string, 0, [byte '"']⟩) (reads_single (by decide))
  fun_induction isUnbroken bs with
  | case1 => exact hclose
  | case2 b =>
    simp only [Bool.and_eq_true, decide_eq_true_eq] at h
    exact hother h.1 h.2 hclose
  | case3 ahead bs ih =>
    refine .step (l := ⟨.string, 0, [byte '\\', ahead]⟩) (reads_pair ?_) (ih h)
    simp [Mode.step]
  | case4 b ahead bs hescape ih =>
    simp only [Bool.and_eq_true, decide_eq_true_eq] at h
    exact hother hescape h.1 (ih h.2)

/-- **A literal is an unbroken text between quotes.** -/
theorem isLiteral_iff :
    IsLiteral bs ↔ ∃ body, bs = byte '"' :: (body ++ [byte '"']) ∧ isUnbroken body = true := by
  constructor
  · rintro ⟨l, rest, rfl, hreads, hclosed⟩
    obtain ⟨body, rfl, hbody⟩ := hclosed.exists_unbroken
    exact ⟨body, by rw [hreads.opens_string]; rfl, hbody⟩
  · rintro ⟨body, rfl, hbody⟩
    refine ⟨⟨.string, 0, [byte '"']⟩, body ++ [byte '"'], rfl, reads_single ?_,
      closedByLast_of_unbroken hbody⟩
    exact mode_step_quote (Or.inl rfl) _

end Strings

end Telemetry.Source
