import Telemetry.Proofs.Source.Agreement
import Telemetry.Proofs.Source.Balance

/-!
The pass behind whole lines.

`Mode.after` is the mode in which the pass leaves a text. A newline takes no byte along and is read
in the same way whatever follows it, so behind lines that have ended the pass goes on in that mode.

* `lexemesFrom_append` — the lexemes of a text that starts with whole lines are those of the lines
  and then those of the rest.
* `isCode_of_after` — so an unquoted phrase behind lines that leave the pass in code is code.
-/

namespace Telemetry.Source

open Telemetry.Text

/-- The mode in which the pass leaves a text that it enters in the given mode. -/
def Mode.after : Mode → List UInt8 → Mode
  | mode, [] => mode
  | mode, [b] => (mode.step b none).next
  | mode, b :: ahead :: bs =>
    if (mode.step b (some ahead)).pair then (mode.step b (some ahead)).next.after bs
    else (mode.step b (some ahead)).next.after (ahead :: bs)

/-- The step over a newline does not depend on what follows. -/
theorem step_newline (mode : Mode) (ahead : Option UInt8) :
    mode.step (byte '\n') ahead = mode.step (byte '\n') none ∧
      (mode.step (byte '\n') none).pair = false := by
  have hmarks : byte '\n' ≠ byte '"' ∧ byte '\n' ≠ byte '\'' ∧ byte '\n' ≠ byte '/' ∧
      byte '\n' ≠ byte '*' ∧ byte '\n' ≠ byte '\\' := by decide
  obtain ⟨hdouble, hsingle, hslash, hstar, hescape⟩ := hmarks
  cases mode with
  | code => simp [Mode.step, hdouble, hsingle, hslash]
  | string quote =>
    simp only [Mode.step, hescape, if_false]
    split <;> simp
  | lineComment => simp [Mode.step]
  | blockComment outer => simp [Mode.step, hslash, hstar]

/-- **Whole lines are read on their own**, and the rest is read in the mode they lead to. -/
theorem lexemesFrom_append {mode : Mode} {offset : Nat} {front : List UInt8}
    (hfront : front = [] ∨ front.getLast? = some (byte '\n')) (rest : List UInt8) :
    lexemesFrom mode offset (front ++ rest) =
      lexemesFrom mode offset front ++
        lexemesFrom (mode.after front) (offset + front.length) rest := by
  fun_induction Mode.after mode front generalizing offset with
  | case1 => simp [lexemesFrom]
  | case2 mode b =>
    obtain rfl : b = byte '\n' := by simpa using hfront
    cases rest with
    | nil => simp [lexemesFrom]
    | cons ahead rest =>
      obtain ⟨hstep, hpair⟩ := step_newline mode (some ahead)
      simp [lexemesFrom, hstep, hpair]
  | case3 mode b ahead bs hpair ih =>
    have hbs : bs = [] ∨ bs.getLast? = some (byte '\n') := by
      rcases List.eq_nil_or_concat bs with rfl | ⟨bs, c, rfl⟩
      · exact Or.inl rfl
      · exact Or.inr (by simpa [List.getLast?_cons] using hfront)
    have hlength : offset + (b :: ahead :: bs).length = offset + 2 + bs.length := by
      simp only [List.length_cons]
      omega
    rw [hlength]
    simp only [List.cons_append, lexemesFrom]
    rw [if_pos hpair, if_pos hpair, ih hbs, List.cons_append]
  | case4 mode b ahead bs hpair ih =>
    have hbs : ahead :: bs = [] ∨ (ahead :: bs).getLast? = some (byte '\n') := by
      simpa [List.getLast?_cons_cons] using hfront
    have hlength : offset + (b :: ahead :: bs).length = offset + 1 + (ahead :: bs).length := by
      simp only [List.length_cons]
      omega
    rw [hlength]
    simp only [List.cons_append, lexemesFrom] at ih ⊢
    rw [if_neg hpair, if_neg hpair, ih hbs, List.cons_append]

/-- **An unquoted phrase behind lines that end in code is code.** -/
theorem isCode_of_after {front xs post : List Char}
    (hfront : front = [] ∨ front.getLast? = some '\n')
    (hmode : Mode.code.after (encode front) = .code) (hxs : Unquoted xs) {j : Nat}
    (hj : j < byteSize xs) :
    (Coverage.ofBytes (encode (front ++ (xs ++ post)))).isCode (byteSize front + j) = true := by
  have hends : encode front = [] ∨ (encode front).getLast? = some (byte '\n') := by
    refine hfront.imp (fun h => by rw [h, encode_nil]) fun h => ?_
    obtain ⟨lines, rfl⟩ := List.getLast?_eq_some_iff.mp h
    rw [encode_append, List.getLast?_append]
    rfl
  refine isCode_of_spelledAt ⟨front, post, rfl, rfl⟩ hxs ?_ hj
  -- the first byte of the phrase is a lexeme of code
  have hlength : 0 < (encode xs).length := by
    rw [length_encode]
    omega
  obtain ⟨b, bs, hbytes⟩ : ∃ b bs, encode xs = b :: bs :=
    List.exists_cons_of_ne_nil (List.length_pos_iff.mp hlength)
  obtain ⟨hdouble, hsingle, hslash⟩ := hxs.of_getElem? (k := 0) (by rw [hbytes]; rfl)
  have hreads : Reads .code ⟨.code, byteSize front, [b]⟩ (bs ++ encode post) .code :=
    reads_single (mode_step_code (by simp [hdouble, hsingle]) fun h => absurd h hslash)
  have hpass := (Lexes.cons hreads (lexes_lexemesFrom .code _ _)).eq_lexemesFrom
  have hmem : (⟨.code, byteSize front, [b]⟩ : Lexeme) ∈
      lexemes (encode (front ++ (xs ++ post))) := by
    rw [lexemes, encode_append, lexemesFrom_append hends, hmode, length_encode, Nat.zero_add,
      encode_append, hbytes]
    exact List.mem_append_right _ (hpass ▸ List.mem_cons_self)
  exact (isCode_of_mem hmem ⟨Nat.le_refl _, by simp [Lexeme.stop]⟩).mpr rfl

end Telemetry.Source
