import Telemetry.Proofs.Source.Resynchronisation

/-!
Blocks nest. Each closing brace is found by a pass of its own, from the opening brace on; that two
such passes never give crossing blocks is a matter of depth.

* `closingBrace_append` — lexemes in front either hold the closing brace or leave some number of
  braces open for the lexemes behind them.
* `exists_closingBrace_lt` — the more braces are open, the later the last of them is closed.
* `matchingBrace_nested` — so of two blocks that start in code, the later one starts behind the
  earlier one or ends inside it.
-/

namespace Telemetry.Source

open Telemetry.Text (byte dropWhile_dropWhile)

section Depth

variable {depth c : Nat} {front rest ls : List Lexeme}

/-- **A pass over lexemes in front** finds the closing brace among them or goes on behind them with
braces still open. -/
theorem closingBrace_append (hdepth : 0 < depth)
    (h : closingBrace depth (front ++ rest) = some c) :
    (∃ l ∈ front, l.start = c) ∨ ∃ depth', 0 < depth' ∧ closingBrace depth' rest = some c := by
  induction front generalizing depth with
  | nil => exact Or.inr ⟨depth, hdepth, h⟩
  | cons l front ih =>
    have hbehind : ∀ {depth' : Nat}, 0 < depth' → closingBrace depth' (front ++ rest) = some c →
        (∃ l' ∈ l :: front, l'.start = c) ∨
          ∃ depth', 0 < depth' ∧ closingBrace depth' rest = some c := by
      intro depth' hdepth' hclosing
      refine (ih hdepth' hclosing).imp_left ?_
      rintro ⟨l', hl', hc⟩
      exact ⟨l', List.mem_cons_of_mem _ hl', hc⟩
    rw [List.cons_append, closingBrace] at h
    split at h
    · exact hbehind (Nat.succ_pos _) h
    · split at h
      · split at h
        · exact Or.inl ⟨l, List.mem_cons_self, Option.some.inj h⟩
        · exact hbehind (by omega) h
      · exact hbehind hdepth h

/-- **With fewer braces open the last of them is closed earlier.** -/
theorem exists_closingBrace_lt (hordered : ls.Pairwise fun l l' => l.start < l'.start)
    (hdepth : 0 < depth) {more : Nat} (h : closingBrace (depth + (more + 1)) ls = some c) :
    ∃ c', closingBrace depth ls = some c' ∧ c' < c := by
  induction ls generalizing depth with
  | nil => cases h
  | cons l ls ih =>
    obtain ⟨hfirst, hrest⟩ := List.pairwise_cons.mp hordered
    rw [closingBrace] at h ⊢
    split at h
    · rename_i hopen
      rw [if_pos hopen]
      exact ih hrest (Nat.succ_pos _) (by rwa [Nat.add_right_comm] at h)
    · rename_i hopen
      rw [if_neg hopen]
      split at h
      · rename_i hclose
        rw [if_pos hclose]
        rw [if_neg (by omega)] at h
        split
        -- the brace at hand is the last one here, while the deeper count goes on behind it
        · obtain ⟨l', hl', -, rfl⟩ := exists_mem_of_closingBrace h
          exact ⟨l.start, rfl, hfirst l' hl'⟩
        · refine ih hrest (by omega) ?_
          rwa [Nat.sub_add_comm (by omega)] at h
      · rename_i hclose
        rw [if_neg hclose]
        exact ih hrest hdepth h

end Depth

section Blocks

variable {bs : List UInt8} {p q c d : Nat}

/-- The lexemes of a pass start one behind the other. -/
theorem Lexes.pairwise_start {mode : Mode} {offset : Nat} {ls : List Lexeme}
    (h : Lexes mode offset bs ls) : ls.Pairwise fun l l' => l.start < l'.start := by
  refine h.pairwise.imp_of_mem fun {l l'} hl _ hle => ?_
  have := h.within hl
  omega

/-- A pass behind a code offset goes over lexemes in front of a later code offset and then reads
what a fresh pass reads there. -/
theorem lexemesAt_succ_split (hp : (Coverage.ofBytes bs).isCode p = true)
    (hq : (Coverage.ofBytes bs).isCode q = true) (hlt : p < q) (hlen : q < bs.length) :
    ∃ front, lexemesAt bs (p + 1) = front ++ lexemesAt bs q ∧ ∀ l ∈ front, l.start < q := by
  have hlater : (lexemesAt bs (p + 1)).dropWhile (fun l => decide (l.start < q)) =
      lexemesAt bs q := by
    rw [lexemesAt_eq_dropWhile hlen hq, lexemesAt_succ_eq_dropWhile (by omega) hp]
    refine dropWhile_dropWhile fun l hl => ?_
    simp only [decide_eq_true_eq] at hl ⊢
    omega
  refine ⟨(lexemesAt bs (p + 1)).takeWhile fun l => decide (l.start < q), ?_, fun l hl => ?_⟩
  · rw [← hlater, List.takeWhile_append_dropWhile]
  · simpa using List.mem_takeWhile_imp hl

/-- **Blocks nest**: of two blocks that start in code, the later one starts behind the end of the
earlier one or ends before it. -/
theorem matchingBrace_nested (hp : (Coverage.ofBytes bs).isCode p = true)
    (hq : (Coverage.ofBytes bs).isCode q = true) (hlt : p < q)
    (hc : matchingBrace bs p = some c) (hd : matchingBrace bs q = some d) : c < q ∨ d < c := by
  obtain ⟨hbrace, hinner⟩ := matchingBrace_eq_some_iff.mp hd
  have hlen : q < bs.length := (List.getElem?_eq_some_iff.mp hbrace).1
  obtain ⟨front, hsplit, hfront⟩ := lexemesAt_succ_split hp hq hlt hlen
  have houter := (matchingBrace_eq_some_iff.mp hc).2
  rw [hsplit] at houter
  rcases closingBrace_append Nat.one_pos houter with ⟨l, hl, rfl⟩ | ⟨depth, hdepth, houter⟩
  · exact Or.inl (hfront l hl)
  -- the outer block is still open at the inner brace, which adds one to its depth
  · refine Or.inr ?_
    obtain ⟨_, b, hb, -, hat, -⟩ := lexemes_split_of_isCode hlen hq
    obtain rfl : b = byte '\x7b' := Option.some.inj (hb.symm.trans hbrace)
    have hdeeper : closingBrace (1 + (depth - 1 + 1)) (lexemesAt bs (q + 1)) = some c := by
      rw [hat] at houter
      rw [Nat.sub_add_cancel hdepth, Nat.add_comm]
      exact houter
    obtain ⟨d', hd', hlt'⟩ := exists_closingBrace_lt
      (lexes_lexemesFrom _ _ _ : Lexes .code (q + 1) (bs.drop (q + 1)) _).pairwise_start
      Nat.one_pos hdeeper
    obtain rfl : d' = d := Option.some.inj (hd'.symm.trans hinner)
    exact hlt'

end Blocks

end Telemetry.Source
