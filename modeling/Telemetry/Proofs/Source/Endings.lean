import Telemetry.Proofs.Source.Agreement
import Telemetry.Proofs.Source.Literals

/-!
How strings and comments end, seen from the code behind them.

* `quote_of_string` — a string that code follows ends with a quote.
* `isCode_or_newline` — so the byte in front of code is code, a quote, a slash, or the newline of a
  line comment.
* `code_or_lineComment` — going back from code over a phrase without quotes and slashes, all of the
  phrase is code, or it starts in a line comment and a newline in it ends the comment; a phrase on
  one line is code from end to end or not code at all (`isCode_eq_of_spelledAt`).
-/

namespace Telemetry.Source

open Telemetry.Text

/-! ### Strings -/

section Strings

variable {mode next : Mode} {bs rest : List UInt8} {l : Lexeme}

/-- A lexeme of a string that is read in code opens the string. -/
theorem next_ne_code_of_string (h : Reads .code l rest next) (hkind : l.kind = .string) :
    next ≠ .code := by
  cases h with
  | single _ hstep _ =>
    rw [hstep] at hkind
    simp only [Mode.step] at hkind ⊢
    split_ifs at hkind ⊢
    simp
  | pair _ hstep _ =>
    rw [hstep] at hkind
    simp only [Mode.step] at hkind ⊢
    split_ifs at hkind ⊢
    simp

/-- A lexeme of a string that leads back to code is a quote. -/
theorem Reads.closes_string (h : Reads mode l rest .code) (hkind : l.kind = .string)
    (hmode : mode.Quoted) : l.bytes = [byte '"'] ∨ l.bytes = [byte '\''] := by
  cases mode with
  | code => exact absurd rfl (next_ne_code_of_string h hkind)
  | string quote =>
    rcases h.of_string with ⟨hbytes, -⟩ | ⟨_, -, hnext⟩ | ⟨-, -, hnext⟩ | ⟨_, -, -, -, hnext⟩
    · rcases hmode quote rfl with rfl | rfl
      · exact Or.inl hbytes
      · exact Or.inr hbytes
    all_goals cases hnext
  | lineComment =>
    rw [h.kind_of_isComment trivial] at hkind
    cases hkind
  | blockComment outer =>
    rw [h.kind_of_isComment trivial] at hkind
    cases hkind

/-- **A string that code follows ends with a quote.** -/
theorem quote_of_string (hl : l ∈ lexemes bs) (hkind : l.kind = .string)
    (hstop : l.stop < bs.length) (hcode : (Coverage.ofBytes bs).isCode l.stop = true) :
    l.bytes = [byte '"'] ∨ l.bytes = [byte '\''] := by
  obtain ⟨l', hl', -, hcovers, _, _, _, _, _, hquoted, hreads, hreads'⟩ := exists_next hl hstop
  obtain ⟨rfl, -, -⟩ := hreads'.of_code ((isCode_of_mem hl' hcovers).mp hcode)
  exact hreads.closes_string hkind hquoted

end Strings

/-! ### Going back from code -/

section Back

variable {bs : List UInt8} {k n q : Nat}

/-- **The byte in front of code** is code, a quote, a slash, or the newline that ends a comment. -/
theorem isCode_or_newline {b : UInt8} (hcode : (Coverage.ofBytes bs).isCode (q + 1) = true)
    (hlen : q + 1 < bs.length) (hb : bs[q]? = some b) (hdouble : b ≠ byte '"')
    (hsingle : b ≠ byte '\'') (hslash : b ≠ byte '/') :
    (Coverage.ofBytes bs).isCode q = true ∨ CommentAt bs q ∧ b = byte '\n' := by
  have hpass : Lexes .code 0 bs (lexemes bs) := lexes_lexemesFrom .code 0 bs
  obtain ⟨l, hl, hcovers⟩ := hpass.exists_at (Nat.zero_le q) (by omega)
  cases hkind : l.kind with
  | code => exact Or.inl ((isCode_of_mem hl hcovers).mpr hkind)
  | comment =>
    have hat : CommentAt bs q := ⟨l, hl, hkind, hcovers⟩
    obtain ⟨_, -, -, ⟨-, hbyte⟩ | ⟨-, hbyte⟩⟩ :=
      commentAt_closes hat hlen (not_commentAt_of_isCode hcode)
    · exact Or.inr ⟨hat, Option.some.inj (hb.symm.trans hbyte)⟩
    · exact absurd (Option.some.inj (hb.symm.trans hbyte)) hslash
  | string =>
    -- the string ends here, with a quote
    have hstop : l.stop = q + 1 := by
      by_contra hne
      have hnext : l.Covers (q + 1) := by
        simp only [Lexeme.Covers] at hcovers ⊢
        omega
      rw [(isCode_of_mem hl hnext).mp hcode] at hkind
      cases hkind
    have hquote := quote_of_string hl hkind (hstop ▸ hlen) (hstop ▸ hcode)
    have hstart : l.start = q := by
      have hlength : l.bytes.length = 1 := by
        rcases hquote with hbytes | hbytes <;> rw [hbytes] <;> rfl
      simp only [Lexeme.stop] at hstop
      omega
    have hhead := hpass.getElem?_bytes hl (i := 0) (by simp only [Lexeme.stop] at hstop; omega)
    rw [hstart, Nat.sub_zero, Nat.add_zero, hb] at hhead
    rcases hquote with hbytes | hbytes
    · rw [hbytes] at hhead
      exact absurd (Option.some.inj hhead) hdouble
    · rw [hbytes] at hhead
      exact absurd (Option.some.inj hhead) hsingle

/-- Going back in a comment, one does not leave it without meeting a slash. -/
theorem commentAt_of_le (hat : CommentAt bs (k + n))
    (hslash : ∀ j < n, bs[k + (j + 1)]? ≠ some (byte '/')) {j : Nat} (hj : j ≤ n) :
    CommentAt bs (k + j) := by
  induction n with
  | zero =>
    obtain rfl : j = 0 := by omega
    exact hat
  | succ n ih =>
    rcases Nat.lt_or_eq_of_le hj with hlt | rfl
    · refine ih ?_ (fun j hj => hslash j (by omega)) (by omega)
      by_contra hfree
      exact hslash n (Nat.lt_succ_self n) (commentAt_opens hfree hat)
    · exact hat

/-- Bytes that are no quotes and no slashes, in front of code: all of them are code, or a newline
among them ends a comment that all bytes up to it belong to. -/
theorem isCode_or_exists_newline (hcode : (Coverage.ofBytes bs).isCode (k + n) = true)
    (hlen : k + n < bs.length)
    (hmarks : ∀ j < n, ∀ b, bs[k + j]? = some b → b ≠ byte '"' ∧ b ≠ byte '\'' ∧ b ≠ byte '/') :
    (∀ j < n, (Coverage.ofBytes bs).isCode (k + j) = true) ∨
      ∃ i < n, bs[k + i]? = some (byte '\n') ∧ (∀ j ≤ i, CommentAt bs (k + j)) ∧
        ∀ j, i < j → j < n → (Coverage.ofBytes bs).isCode (k + j) = true := by
  induction n with
  | zero => exact Or.inl fun j hj => absurd hj (Nat.not_lt_zero j)
  | succ n ih =>
    have hb : bs[k + n]? = some bs[k + n] := List.getElem?_eq_getElem (by omega)
    obtain ⟨hdouble, hsingle, hslash⟩ := hmarks n (Nat.lt_succ_self n) _ hb
    rcases isCode_or_newline hcode hlen hb hdouble hsingle hslash with hlast | ⟨hat, hnewline⟩
    · have hcases : ∀ j < n + 1, j < n ∨ j = n := fun j hj => Nat.lt_succ_iff_lt_or_eq.mp hj
      rcases ih hlast (by omega) fun j hj => hmarks j (by omega) with hall | ⟨i, hi, hend, hat, hall⟩
      · refine Or.inl fun j hj => (hcases j hj).elim (hall j) ?_
        rintro rfl
        exact hlast
      · refine Or.inr ⟨i, by omega, hend, hat, fun j hij hj => (hcases j hj).elim (hall j hij) ?_⟩
        rintro rfl
        exact hlast
    · refine Or.inr ⟨n, Nat.lt_succ_self n, hnewline ▸ hb, fun j hj => ?_, fun j hij hj => by omega⟩
      refine commentAt_of_le hat (fun j hj hbyte => ?_) hj
      exact (hmarks (j + 1) (by omega) _ hbyte).2.2 rfl

end Back

/-- **Going back from code over an unquoted phrase**: all of the phrase is code, or it starts in a
line comment, and a newline in it ends the comment. -/
theorem code_or_lineComment {text xs : List Char} {k : Nat} (hspelled : SpelledAt text k xs)
    (hxs : Unquoted xs) (hlen : k + byteSize xs < byteSize text)
    (hcode : (Coverage.ofBytes (encode text)).isCode (k + byteSize xs) = true) :
    (∀ j < byteSize xs, (Coverage.ofBytes (encode text)).isCode (k + j) = true) ∨
      ∃ a b, xs = a ++ '\n' :: b ∧ (∀ j ≤ byteSize a, CommentAt (encode text) (k + j)) ∧
        ∀ j, byteSize a < j → j < byteSize xs →
          (Coverage.ofBytes (encode text)).isCode (k + j) = true := by
  have hmarks : ∀ j < byteSize xs, ∀ b, (encode text)[k + j]? = some b →
      b ≠ byte '"' ∧ b ≠ byte '\'' ∧ b ≠ byte '/' := by
    intro j hj b hb
    rw [getElem?_of_spelledAt hspelled hj] at hb
    exact hxs.of_getElem? hb
  refine (isCode_or_exists_newline hcode (by rwa [length_encode]) hmarks).imp_right ?_
  rintro ⟨i, hi, hnewline, hat, hall⟩
  rw [getElem?_of_spelledAt hspelled hi] at hnewline
  obtain ⟨a, b, rfl, rfl⟩ := spelledAt_of_ascii (by decide) hnewline
  exact ⟨a, b, rfl, hat, hall⟩

/-- **An unquoted phrase on one line** is code from end to end or not code at all. -/
theorem isCode_eq_of_spelledAt {text xs : List Char} {k j : Nat} (hspelled : SpelledAt text k xs)
    (hxs : Unquoted xs) (hline : '\n' ∉ xs) (hj : j < byteSize xs) :
    (Coverage.ofBytes (encode text)).isCode (k + j) =
      (Coverage.ofBytes (encode text)).isCode k := by
  have hbytes : ∀ i < byteSize xs, (encode text)[k + i]? = (encode xs)[i]? :=
    fun i hi => getElem?_of_spelledAt hspelled hi
  refine Bool.eq_iff_iff.mpr
    ⟨fun hcode => ?_, fun hcode => isCode_of_spelledAt hspelled hxs hcode hj⟩
  have hlen : k + j < (encode text).length := by
    rw [length_encode]
    exact Nat.lt_of_lt_of_le (Nat.add_lt_add_left hj k) (spelledAt_le hspelled)
  rcases isCode_or_exists_newline hcode hlen fun i hi b hb => hxs.of_getElem?
      (hbytes i (by omega) ▸ hb) with hall | ⟨i, hi, hnewline, -⟩
  · cases j with
    | zero => exact hcode
    | succ j => exact hall 0 (Nat.succ_pos j)
  · rw [hbytes i (by omega)] at hnewline
    exact absurd (mem_of_getElem?_encode (by decide) hnewline) hline

end Telemetry.Source
