import Mathlib.Data.Nat.Find
import Mathlib.Logic.Relation
import Mathlib.Order.Bounds.Basic
import Telemetry.Proofs.Source.Nesting

/-!
The brace that closes a block is the first one that balances it.

`codeCount b low high ls` counts the places between two offsets at which a byte stands in code. The
pass over a block keeps the number of open braces as its depth; `Balances depth low ls c` says, for
lexemes that are still to come, that up to the offset `c` they close what is open.

* `balances_cons_iff` — what one lexeme does to the balance at the offsets from it on.
* `isLeast_closingBrace_iff` — so a pass with open braces finds the least offset of balance.
* `BraceTurn`, `closingBrace_of_turn` — the turns of the pass one by one, and
  `closingBrace_of_turns`, `depth_pos_of_turns` — what holds after any number of them: the result is
  the same, and whenever a brace is closed there is one to close.
* `matchingBrace_first_balanced` — the three together, for the brace at an offset.
-/

namespace Telemetry.Source

open Telemetry.Text (byte)

/-- The number of offsets from `low` to `high` at which a byte stands in code. -/
def codeCount (b : UInt8) (low high : Nat) (ls : List Lexeme) : Nat :=
  ls.countP fun l => decide (l.code? = some b ∧ low ≤ l.start ∧ l.start ≤ high)

/-- With `depth` braces open in front of some lexemes, all braces are closed at an offset. -/
def Balances (depth low : Nat) (ls : List Lexeme) (c : Nat) : Prop :=
  depth + codeCount (byte '\x7b') low c ls = codeCount (byte '\x7d') low c ls

/-! ### The balance of the lexemes to come -/

section Balance

variable {b : UInt8} {depth low c : Nat} {l : Lexeme} {ls : List Lexeme}

/-- A lexeme that closes a brace opens none. -/
theorem code?_ne_open (hclose : l.code? = some (byte '\x7d')) : l.code? ≠ some (byte '\x7b') := by
  rw [hclose]
  decide

/-- A lexeme that opens a brace closes none. -/
theorem code?_ne_close (hopen : l.code? = some (byte '\x7b')) : l.code? ≠ some (byte '\x7d') := by
  rw [hopen]
  decide

theorem codeCount_cons (hlow : low ≤ l.start) (hc : l.start ≤ c) :
    codeCount b low c (l :: ls) = codeCount b low c ls + if l.code? = some b then 1 else 0 := by
  simp only [codeCount, List.countP_cons, hlow, hc, and_true, decide_eq_true_eq]

/-- Nothing is counted in front of the first lexeme. -/
theorem codeCount_of_lt (h : ∀ l ∈ ls, c < l.start) : codeCount b low c ls = 0 := by
  refine List.countP_eq_zero.mpr fun l hl => ?_
  have := h l hl
  simp only [decide_eq_true_eq, not_and]
  omega

/-- In front of the first lexeme open braces are not balanced. -/
theorem not_balances_of_lt (hdepth : 0 < depth) (h : ∀ l ∈ ls, c < l.start) :
    ¬ Balances depth low ls c := by
  rw [Balances, codeCount_of_lt h, codeCount_of_lt h]
  omega

/-- **What one lexeme does to the balance** at the offsets from it on: an opening brace has to be
closed behind it, a closing one takes one of the open braces away. -/
theorem balances_cons_iff (hlow : low ≤ l.start) (hc : l.start ≤ c) :
    Balances depth low (l :: ls) c ↔
      depth + (if l.code? = some (byte '\x7b') then 1 else 0) + codeCount (byte '\x7b') low c ls =
        codeCount (byte '\x7d') low c ls + if l.code? = some (byte '\x7d') then 1 else 0 := by
  rw [Balances, codeCount_cons hlow hc, codeCount_cons hlow hc]
  omega

/-- A lexeme that leaves braces open shifts the balance to the lexemes behind it. -/
theorem balances_cons_iff_of_open {depth' : Nat} (hlow : low ≤ l.start)
    (hfirst : ∀ l' ∈ ls, l.start < l'.start) (hdepth : 0 < depth) (hdepth' : 0 < depth')
    (hstep : depth + (if l.code? = some (byte '\x7b') then 1 else 0) =
      depth' + if l.code? = some (byte '\x7d') then 1 else 0) :
    Balances depth low (l :: ls) c ↔ Balances depth' low ls c := by
  by_cases hc : l.start ≤ c
  · rw [balances_cons_iff hlow hc, Balances]
    omega
  · have hbehind : ∀ l' ∈ ls, c < l'.start := by
      intro l' hl'
      have := hfirst l' hl'
      omega
    have hbefore : ∀ l' ∈ l :: ls, c < l'.start := by
      intro l' hl'
      rcases List.mem_cons.mp hl' with rfl | hl'
      · omega
      · exact hbehind l' hl'
    exact iff_of_false (not_balances_of_lt hdepth hbefore) (not_balances_of_lt hdepth' hbehind)

/-- The brace that closes the last open one is the least offset of balance. -/
theorem isLeast_balances_cons (hlow : low ≤ l.start) (hfirst : ∀ l' ∈ ls, l.start < l'.start)
    (hclose : l.code? = some (byte '\x7d')) : IsLeast {c | Balances 1 low (l :: ls) c} l.start := by
  constructor
  · refine (balances_cons_iff hlow (Nat.le_refl _)).mpr ?_
    rw [if_neg (code?_ne_open hclose), if_pos hclose, codeCount_of_lt hfirst, codeCount_of_lt hfirst]
  · intro c hc
    by_contra hlt
    refine not_balances_of_lt Nat.one_pos (fun l' hl' => ?_) hc
    rcases List.mem_cons.mp hl' with rfl | hl'
    · omega
    · have := hfirst l' hl'
      omega

/-- **A pass with open braces finds the least offset of balance.** -/
theorem isLeast_closingBrace_iff (hordered : ls.Pairwise fun l l' => l.start < l'.start)
    (hlow : ∀ l ∈ ls, low ≤ l.start) (hdepth : 0 < depth) :
    closingBrace depth ls = some c ↔ IsLeast {c | Balances depth low ls c} c := by
  -- the depth at a lexeme is what the lexemes from there on have to balance
  induction ls generalizing depth with
  | nil =>
    have hnone : ¬ Balances depth low [] c := not_balances_of_lt hdepth (by simp)
    exact iff_of_false (by simp [closingBrace]) fun h => hnone h.1
  | cons l ls ih =>
    obtain ⟨hfirst, hrest⟩ := List.pairwise_cons.mp hordered
    have hlow₁ : low ≤ l.start := hlow l List.mem_cons_self
    have hlow₂ : ∀ l' ∈ ls, low ≤ l'.start := fun l' hl' => hlow l' (List.mem_cons_of_mem _ hl')
    have hshift : ∀ {depth' : Nat}, 0 < depth' →
        depth + (if l.code? = some (byte '\x7b') then 1 else 0) =
          depth' + (if l.code? = some (byte '\x7d') then 1 else 0) →
        (closingBrace depth' ls = some c ↔ IsLeast {c | Balances depth low (l :: ls) c} c) := by
      intro depth' hdepth' hstep
      rw [ih hrest hlow₂ hdepth']
      simp only [balances_cons_iff_of_open hlow₁ hfirst hdepth hdepth' hstep]
    rw [closingBrace]
    split
    · rename_i hopen
      exact hshift (Nat.succ_pos _) (by rw [if_pos hopen, if_neg (code?_ne_close hopen)])
    · rename_i hopen
      split
      · rename_i hclose
        split
        · rename_i hzero
          obtain rfl : depth = 1 := by omega
          have hleast := isLeast_balances_cons hlow₁ hfirst hclose
          rw [Option.some.injEq]
          exact ⟨fun h => h ▸ hleast, fun h => hleast.unique h⟩
        · exact hshift (by omega) (by rw [if_neg hopen, if_pos hclose]; omega)
      · rename_i hclose
        exact hshift hdepth (by rw [if_neg hopen, if_neg hclose])

end Balance

/-! ### The turns of the pass -/

/-- One turn of the search for a closing brace: from a depth and the lexemes to come to the depth
behind the first of them. There is no turn from the brace that ends the search. -/
inductive BraceTurn : Nat × List Lexeme → Nat × List Lexeme → Prop where
  | opens {depth : Nat} {l : Lexeme} {ls : List Lexeme} (hopen : l.code? = some (byte '\x7b')) :
      BraceTurn (depth, l :: ls) (depth + 1, ls)
  | closes {depth : Nat} {l : Lexeme} {ls : List Lexeme} (hclose : l.code? = some (byte '\x7d'))
      (hmore : depth - 1 ≠ 0) : BraceTurn (depth, l :: ls) (depth - 1, ls)
  | passes {depth : Nat} {l : Lexeme} {ls : List Lexeme} (hopen : l.code? ≠ some (byte '\x7b'))
      (hclose : l.code? ≠ some (byte '\x7d')) : BraceTurn (depth, l :: ls) (depth, ls)

section Turns

variable {depth depth' : Nat} {l : Lexeme} {ls ls' : List Lexeme}

/-- A turn leads to what the search finds. -/
theorem closingBrace_of_turn (h : BraceTurn (depth, ls) (depth', ls')) :
    closingBrace depth ls = closingBrace depth' ls' := by
  cases h with
  | opens hopen => rw [closingBrace, if_pos hopen]
  | closes hclose hmore =>
    rw [closingBrace, if_neg (code?_ne_open hclose), if_pos hclose, if_neg hmore]
  | passes hopen hclose => rw [closingBrace, if_neg hopen, if_neg hclose]

theorem closingBrace_of_turns {s s' : Nat × List Lexeme}
    (h : Relation.ReflTransGen BraceTurn s s') : closingBrace s.1 s.2 = closingBrace s'.1 s'.2 := by
  induction h with
  | refl => rfl
  | tail _ hturn ih => exact ih.trans (closingBrace_of_turn hturn)

/-- Behind an opening brace the search has braces open after every turn. -/
theorem depth_pos_of_turns (hopen : l.code? = some (byte '\x7b'))
    (h : Relation.ReflTransGen BraceTurn (0, l :: ls) (depth, ls')) :
    0 < depth ∨ (depth = 0 ∧ ls' = l :: ls) := by
  suffices hturns : ∀ {s s' : Nat × List Lexeme}, Relation.ReflTransGen BraceTurn s s' →
      s = (0, l :: ls) → 0 < s'.1 ∨ s' = s by
    rcases hturns h rfl with hpos | heq
    · exact Or.inl hpos
    · exact Or.inr (Prod.mk.inj heq)
  intro s s' h hs
  induction h with
  | refl => exact Or.inr rfl
  | tail _ hturn ih =>
    left
    rcases ih with hpos | rfl
    · cases hturn with
      | opens => exact Nat.succ_pos _
      | closes _ hmore => exact Nat.pos_of_ne_zero hmore
      | passes => exact hpos
    · subst hs
      cases hturn with
      | opens => exact Nat.succ_pos _
      | closes hclose => exact absurd hopen (code?_ne_open hclose)
      | passes hother => exact absurd hopen hother

end Turns

/-! ### The brace at an offset -/

section Matching

variable {bs : List UInt8} {o c : Nat}

/-- In a pass from an opening brace on, the numbers of braces are equal behind it exactly if the
lexemes behind it close the one that it opens. -/
theorem equal_counts_iff (hbrace : bs[o]? = some (byte '\x7b')) :
    (o < c ∧ codeCount (byte '\x7b') o c (lexemesAt bs o) =
      codeCount (byte '\x7d') o c (lexemesAt bs o)) ↔
    Balances 1 o (lexemesAt bs (o + 1)) c := by
  have hbehind : ∀ l ∈ lexemesAt bs (o + 1), o < l.start := fun l hl =>
    ((lexes_lexemesFrom _ _ _ : Lexes .code (o + 1) (bs.drop (o + 1)) _).within hl).1
  have hopen : (⟨.code, o, [byte '\x7b']⟩ : Lexeme).code? = some (byte '\x7b') := rfl
  have hclose := code?_ne_close hopen
  rw [lexemesAt_brace hbrace]
  constructor
  · rintro ⟨hlt, hcounts⟩
    rw [codeCount_cons (Nat.le_refl o) (Nat.le_of_lt hlt),
      codeCount_cons (Nat.le_refl o) (Nat.le_of_lt hlt), if_pos hopen, if_neg hclose] at hcounts
    rw [Balances]
    omega
  · intro hbalances
    have hlt : o < c := by
      by_contra hle
      refine not_balances_of_lt Nat.one_pos (fun l hl => ?_) hbalances
      have := hbehind l hl
      omega
    rw [Balances] at hbalances
    rw [codeCount_cons (Nat.le_refl o) (Nat.le_of_lt hlt),
      codeCount_cons (Nat.le_refl o) (Nat.le_of_lt hlt), if_pos hopen, if_neg hclose]
    exact ⟨hlt, by omega⟩

/-- A match is the least offset behind the opening brace up to which the pass meets as many closing
braces as opening ones. -/
theorem matchingBrace_eq_some_iff_isLeast :
    matchingBrace bs o = some c ↔ bs[o]? = some (byte '\x7b') ∧
      IsLeast {c | o < c ∧ codeCount (byte '\x7b') o c (lexemesAt bs o) =
        codeCount (byte '\x7d') o c (lexemesAt bs o)} c := by
  rw [matchingBrace_eq_some_iff]
  refine and_congr_right fun hbrace => ?_
  have hpass : Lexes .code (o + 1) (bs.drop (o + 1)) (lexemesAt bs (o + 1)) :=
    lexes_lexemesFrom _ _ _
  rw [isLeast_closingBrace_iff hpass.pairwise_start
    (fun l hl => Nat.le_of_succ_le (hpass.within hl).1) Nat.one_pos]
  simp only [equal_counts_iff hbrace]

/-- **The match of a brace is the first one that balances it.** Among the lexemes that a pass from
the offset on reads as code, opening and closing braces are counted. The match is the least offset
behind the brace at which the two counts are equal, and there is none exactly if another byte stands
there or the counts are never equal. After any number of turns the search still leads to its result,
and when it meets a closing brace there is one to close, so that its depth is never cut off at
zero. -/
theorem matchingBrace_first_balanced (bs : List UInt8) (o : Nat) :
    (∀ c, matchingBrace bs o = some c ↔ bs[o]? = some (byte '\x7b') ∧
      IsLeast {c | o < c ∧ codeCount (byte '\x7b') o c (lexemesAt bs o) =
        codeCount (byte '\x7d') o c (lexemesAt bs o)} c) ∧
    (matchingBrace bs o = none ↔ bs[o]? ≠ some (byte '\x7b') ∨
      ¬ ∃ c, o < c ∧ codeCount (byte '\x7b') o c (lexemesAt bs o) =
        codeCount (byte '\x7d') o c (lexemesAt bs o)) ∧
    (bs[o]? = some (byte '\x7b') → ∀ depth l ls,
      Relation.ReflTransGen BraceTurn (0, lexemesAt bs o) (depth, l :: ls) →
        matchingBrace bs o = closingBrace depth (l :: ls) ∧
          (l.code? = some (byte '\x7d') → 0 < depth)) := by
  refine ⟨fun c => matchingBrace_eq_some_iff_isLeast, ?_, ?_⟩
  · constructor
    · intro hnone
      rw [or_iff_not_imp_left, not_not]
      intro hbrace hexists
      have hmatch := matchingBrace_eq_some_iff_isLeast.mpr
        ⟨hbrace, Nat.find_spec hexists, fun d hd => Nat.find_min' hexists hd⟩
      rw [hmatch] at hnone
      cases hnone
    · intro h
      cases hmatch : matchingBrace bs o with
      | none => rfl
      | some c =>
        obtain ⟨hbrace, hleast⟩ := matchingBrace_eq_some_iff_isLeast.mp hmatch
        rcases h with hother | hnever
        · exact absurd hbrace hother
        · exact absurd ⟨c, hleast.1⟩ hnever
  · intro hbrace depth l ls hturns
    refine ⟨?_, fun hclose => ?_⟩
    · rw [matchingBrace, if_pos hbrace]
      exact closingBrace_of_turns hturns
    rw [lexemesAt_brace hbrace] at hturns
    rcases depth_pos_of_turns rfl hturns with hpos | ⟨-, hstart⟩
    · exact hpos
    · obtain ⟨rfl, -⟩ := List.cons.inj hstart
      cases hclose

/-- A block with a quoted closing brace and a block inside it, at its last brace. -/
theorem matchingBrace_first_balanced_quoted :
    let bs := Text.encode "\x7b'\x7d'\x7b\x7d\x7d".toList
    matchingBrace bs 0 = some 6 ∧
      IsLeast {c | 0 < c ∧ codeCount (byte '\x7b') 0 c (lexemesAt bs 0) =
        codeCount (byte '\x7d') 0 c (lexemesAt bs 0)} 6 ∧
      Relation.ReflTransGen BraceTurn (0, lexemesAt bs 0) (1, [⟨.code, 6, [byte '\x7d']⟩]) ∧
      matchingBrace bs 0 = closingBrace 1 [⟨.code, 6, [byte '\x7d']⟩] ∧ 0 < 1 := by
  intro bs
  have hmatch : matchingBrace bs 0 = some 6 := by decide +kernel
  have hlexemes : lexemesAt bs 0 =
      [⟨.code, 0, [byte '\x7b']⟩, ⟨.string, 1, [byte '\'']⟩, ⟨.string, 2, [byte '\x7d']⟩,
        ⟨.string, 3, [byte '\'']⟩, ⟨.code, 4, [byte '\x7b']⟩, ⟨.code, 5, [byte '\x7d']⟩,
        ⟨.code, 6, [byte '\x7d']⟩] := by decide +kernel
  have hturns : Relation.ReflTransGen BraceTurn (0, lexemesAt bs 0)
      (1, [⟨.code, 6, [byte '\x7d']⟩]) := by
    rw [hlexemes]
    exact .head (.opens rfl) <| .head (.passes (by decide) (by decide)) <|
      .head (.passes (by decide) (by decide)) <| .head (.passes (by decide) (by decide)) <|
      .head (.opens rfl) <| .single (.closes rfl (by decide))
  obtain ⟨hfirst, -, hdepth⟩ := matchingBrace_first_balanced bs 0
  obtain ⟨hresult, hpos⟩ := hdepth (by decide +kernel) 1 _ [] hturns
  exact ⟨hmatch, ((hfirst 6).mp hmatch).2, hturns, hresult, hpos rfl⟩

end Matching

end Telemetry.Source
