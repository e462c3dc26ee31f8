import Mathlib.Tactic.SplitIfs
import Telemetry.Source.Lexeme

/-!
The pass over the bytes as a relation, and what its lexemes are.

`Reads mode l rest next` says what one step can do: in `mode`, in front of the bytes `rest`, the
lexeme `l` is read and the mode afterwards is `next`. `Lexes mode offset bs ls` is a whole pass.
Everything about lexemes is derived from these two.

* `lexes_lexemesFrom`, `Lexes.eq_lexemesFrom` — the passes are exactly the runs of `lexemesFrom`.
* `Lexes.tiles`, `Lexes.flatMap_bytes`, `Lexes.within`, `Lexes.pairwise`, `Lexes.exists_at` — the
  lexemes tile the bytes: consecutive, none empty, no byte left out.
* `Reads.of_code` — a lexeme of code is one byte, read in the code mode, which it does not leave.
* `Lexes.split` — a pass cut at one of its lexemes is a pass again.
-/

namespace Telemetry.Source

open Telemetry.Text (byte)

/-- One step: in a mode, in front of the bytes `rest`, a lexeme is read, and a mode is entered. -/
inductive Reads (mode : Mode) (l : Lexeme) (rest : List UInt8) : Mode → Prop where
  /-- One byte, because the step takes no second one or because there is none. -/
  | single {b : UInt8} (hbytes : l.bytes = [b]) (hkind : l.kind = (mode.step b rest.head?).kind)
      (hsingle : (mode.step b rest.head?).pair = false ∨ rest = []) :
      Reads mode l rest (mode.step b rest.head?).next
  | pair {b ahead : UInt8} (hbytes : l.bytes = [b, ahead])
      (hkind : l.kind = (mode.step b (some ahead)).kind)
      (hpair : (mode.step b (some ahead)).pair = true) :
      Reads mode l rest (mode.step b (some ahead)).next

/-- A pass over `bs`, whose first byte stands at `offset`, entered in a mode. -/
inductive Lexes : Mode → Nat → List UInt8 → List Lexeme → Prop where
  | nil {mode : Mode} {offset : Nat} : Lexes mode offset [] []
  | cons {mode next : Mode} {l : Lexeme} {rest : List UInt8} {ls : List Lexeme}
      (hreads : Reads mode l rest next) (hrest : Lexes next l.stop rest ls) :
      Lexes mode l.start (l.bytes ++ rest) (l :: ls)

theorem lexes_lexemesFrom (mode : Mode) (offset : Nat) (bs : List UInt8) :
    Lexes mode offset bs (lexemesFrom mode offset bs) := by
  fun_induction lexemesFrom mode offset bs with
  | case1 => exact .nil
  | case2 mode offset b =>
    exact @Lexes.cons _ _ ⟨_, offset, [b]⟩ [] _ (.single rfl rfl (Or.inr rfl)) .nil
  | case3 mode offset b ahead bs step hpair ih =>
    exact .cons (l := ⟨_, offset, [b, ahead]⟩) (.pair rfl rfl hpair) ih
  | case4 mode offset b ahead bs step hpair ih =>
    exact @Lexes.cons _ _ ⟨_, offset, [b]⟩ (ahead :: bs) _
      (.single rfl rfl (Or.inl (Bool.eq_false_iff.mpr hpair))) ih

theorem Lexes.eq_lexemesFrom {mode : Mode} {offset : Nat} {bs : List UInt8} {ls : List Lexeme}
    (h : Lexes mode offset bs ls) : ls = lexemesFrom mode offset bs := by
  induction h with
  | nil => rfl
  | @cons mode next l rest ls hreads hrest ih =>
    obtain ⟨kind, start, bytes⟩ := l
    cases hreads with
    | single hbytes hkind hsingle =>
      cases hbytes
      cases hkind
      cases rest with
      | nil => rw [ih]; rfl
      | cons ahead bs =>
        have hpair : (mode.step _ (some ahead)).pair = false := hsingle.resolve_right (by simp)
        rw [ih]
        simp [lexemesFrom, hpair, Lexeme.stop]
    | pair hbytes hkind hpair =>
      cases hbytes
      cases hkind
      rw [ih]
      simp [lexemesFrom, hpair, Lexeme.stop]

/-! ### One step -/

section Step

variable {mode next : Mode} {l : Lexeme} {rest : List UInt8}

theorem Reads.length_pos (h : Reads mode l rest next) : 0 < l.bytes.length := by
  cases h with
  | single hbytes => simp [hbytes]
  | pair hbytes => simp [hbytes]

theorem Reads.start_lt_stop (h : Reads mode l rest next) : l.start < l.stop := by
  have := h.length_pos
  simp only [Lexeme.stop]
  omega

/-- Code is read in the code mode only, byte by byte, and does not leave it. -/
theorem step_of_kind_code {b : UInt8} {ahead : Option UInt8}
    (h : (mode.step b ahead).kind = .code) :
    mode = .code ∧ (mode.step b ahead).next = .code ∧ (mode.step b ahead).pair = false := by
  cases mode with
  | code =>
    simp only [Mode.step] at h ⊢
    split_ifs at h ⊢
    exact ⟨trivial, rfl, rfl⟩
  | string quote =>
    simp only [Mode.step] at h
    split_ifs at h
  | lineComment =>
    simp only [Mode.step] at h
    split_ifs at h
  | blockComment outer =>
    cases outer <;> simp only [Mode.step] at h <;> split_ifs at h

/-- **A lexeme of code** is one byte, read in the code mode, which it does not leave. -/
theorem Reads.of_code (h : Reads mode l rest next) (hcode : l.kind = .code) :
    mode = .code ∧ next = .code ∧ ∃ b, l.bytes = [b] := by
  cases h with
  | single hbytes hkind _ =>
    obtain ⟨hmode, hnext, -⟩ := step_of_kind_code (hkind.symm.trans hcode)
    exact ⟨hmode, hnext, _, hbytes⟩
  | pair _ hkind hpair =>
    obtain ⟨-, -, hsingle⟩ := step_of_kind_code (hkind.symm.trans hcode)
    rw [hsingle] at hpair
    cases hpair

/-- The mode knows strings that one of the two quotes opened, and no others. -/
def Mode.Quoted (mode : Mode) : Prop :=
  ∀ quote, mode = .string quote → quote = byte '"' ∨ quote = byte '\''

theorem quoted_code : Mode.code.Quoted := by
  rintro _ ⟨⟩

theorem quoted_next_step {b : UInt8} {ahead : Option UInt8} (h : mode.Quoted) :
    (mode.step b ahead).next.Quoted := by
  cases mode with
  | code =>
    simp only [Mode.step]
    split_ifs with hquote hline hblock
    · rintro _ ⟨⟩
      simpa using hquote
    all_goals rintro _ ⟨⟩
  | string quote =>
    simp only [Mode.step]
    split_ifs
    · exact h
    · exact quoted_code
    · exact h
  | lineComment =>
    simp only [Mode.step]
    split_ifs <;> rintro _ ⟨⟩
  | blockComment outer =>
    cases outer <;> simp only [Mode.step] <;> split_ifs <;> rintro _ ⟨⟩

theorem Reads.quoted (h : Reads mode l rest next) (hmode : mode.Quoted) : next.Quoted := by
  cases h with
  | single _ _ _ => exact quoted_next_step hmode
  | pair _ _ _ => exact quoted_next_step hmode

end Step

/-! ### Tiling -/

/-- Lexemes that fill the offsets from `low` to `high`: each starts where the one before it ends,
none is empty and none runs past the end. -/
def Tiles : (low high : Nat) → List Lexeme → Prop
  | low, high, [] => low = high
  | low, high, l :: ls => l.start = low ∧ l.start < l.stop ∧ l.stop ≤ high ∧ Tiles l.stop high ls

section Pass

variable {mode : Mode} {offset : Nat} {bs : List UInt8} {ls : List Lexeme}

/-- The lexemes spell the bytes. -/
theorem Lexes.flatMap_bytes (h : Lexes mode offset bs ls) : ls.flatMap Lexeme.bytes = bs := by
  induction h with
  | nil => rfl
  | cons _ _ ih => rw [List.flatMap_cons, ih]

/-- The lexemes lie between the first byte and the end, and none is empty. -/
theorem Lexes.within (h : Lexes mode offset bs ls) {l : Lexeme} (hl : l ∈ ls) :
    offset ≤ l.start ∧ l.start < l.stop ∧ l.stop ≤ offset + bs.length := by
  induction h with
  | nil => cases hl
  | @cons mode next l' rest ls hreads _ ih =>
    have hpos := hreads.start_lt_stop
    have hlen : (l'.bytes ++ rest).length = (l'.stop - l'.start) + rest.length := by
      simp [Lexeme.stop]
    rcases List.mem_cons.mp hl with rfl | hl
    · omega
    · have := ih hl
      omega

/-- **The lexemes tile the bytes**, from the first one to the end. -/
theorem Lexes.tiles (h : Lexes mode offset bs ls) : Tiles offset (offset + bs.length) ls := by
  induction h with
  | nil => rfl
  | @cons mode next l rest ls hreads hrest ih =>
    have hend : l.start + (l.bytes ++ rest).length = l.stop + rest.length := by
      simp only [Lexeme.stop, List.length_append]
      omega
    rw [hend]
    exact ⟨rfl, hreads.start_lt_stop, Nat.le_add_right _ _, ih⟩

/-- Each lexeme ends before the later ones start. -/
theorem Lexes.pairwise (h : Lexes mode offset bs ls) :
    ls.Pairwise fun l l' => l.stop ≤ l'.start := by
  induction h with
  | nil => exact .nil
  | cons _ hrest ih => exact .cons (fun l' hl' => (hrest.within hl').1) ih

/-- No byte is left out. -/
theorem Lexes.exists_at (h : Lexes mode offset bs ls) {q : Nat} (hlow : offset ≤ q)
    (hhigh : q < offset + bs.length) : ∃ l ∈ ls, l.start ≤ q ∧ q < l.stop := by
  induction h with
  | nil =>
    simp only [List.length_nil] at hhigh
    omega
  | @cons mode next l rest ls _ _ ih =>
    by_cases hq : q < l.stop
    · exact ⟨l, List.mem_cons_self, hlow, hq⟩
    · have hlen : (l.bytes ++ rest).length = (l.stop - l.start) + rest.length := by
        simp [Lexeme.stop]
      have hstop : l.start ≤ l.stop := by simp [Lexeme.stop]
      obtain ⟨l', hl', hat⟩ := ih (by omega) (by omega)
      exact ⟨l', List.mem_cons_of_mem _ hl', hat⟩

/-- A pass cut at one of its lexemes is a pass again, and what every step keeps of the mode holds
there. -/
theorem Lexes.split_invariant {P : Mode → Prop}
    (hstep : ∀ {mode l rest next}, Reads mode l rest next → P mode → P next) (hmode : P mode)
    {before after : List Lexeme} {l : Lexeme} (h : Lexes mode offset bs (before ++ l :: after)) :
    ∃ mode' next rest, P mode' ∧ bs = before.flatMap Lexeme.bytes ++ (l.bytes ++ rest) ∧
      l.start = offset + (before.flatMap Lexeme.bytes).length ∧
      Reads mode' l rest next ∧ Lexes next l.stop rest after := by
  induction before generalizing mode offset bs with
  | nil =>
    cases h with
    | cons hreads hrest => exact ⟨mode, _, _, hmode, rfl, by simp, hreads, hrest⟩
  | cons l' before ih =>
    cases h with
    | cons hreads hrest =>
      obtain ⟨mode', next, rest, hmode', hbs, hstart, hl, hafter⟩ := ih (hstep hreads hmode) hrest
      refine ⟨mode', next, rest, hmode', ?_, ?_, hl, hafter⟩
      · rw [hbs, List.flatMap_cons, List.append_assoc]
      · simp only [hstart, Lexeme.stop, List.flatMap_cons, List.length_append]
        omega

/-- **A pass cut at one of its lexemes is a pass again**, over the bytes from there on. -/
theorem Lexes.split {before after : List Lexeme} {l : Lexeme}
    (h : Lexes mode offset bs (before ++ l :: after)) :
    ∃ mode' next rest, bs = before.flatMap Lexeme.bytes ++ (l.bytes ++ rest) ∧
      l.start = offset + (before.flatMap Lexeme.bytes).length ∧
      Reads mode' l rest next ∧ Lexes next l.stop rest after := by
  obtain ⟨mode', next, rest, -, hsplit⟩ :=
    h.split_invariant (P := fun _ => True) (fun _ _ => trivial) trivial
  exact ⟨mode', next, rest, hsplit⟩

/-- The bytes of a lexeme are those of the text at its offset. -/
theorem Lexes.getElem?_bytes (h : Lexes mode offset bs ls) {l : Lexeme} (hl : l ∈ ls) {i : Nat}
    (hi : i < l.bytes.length) : bs[l.start - offset + i]? = l.bytes[i]? := by
  obtain ⟨before, after, rfl⟩ := List.append_of_mem hl
  obtain ⟨_, _, rest, hbs, hstart, -, -⟩ := h.split
  have hlen : l.start - offset + i = (before.flatMap Lexeme.bytes).length + i := by omega
  rw [hbs, hlen, List.getElem?_append_right (Nat.le_add_right _ _), Nat.add_sub_cancel_left,
    List.getElem?_append_left hi]

end Pass

end Telemetry.Source
