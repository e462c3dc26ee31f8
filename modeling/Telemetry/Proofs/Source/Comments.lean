import Telemetry.Proofs.Source.Resynchronisation

/-!
Comments, and texts that differ in them alone.

* `commentAt_opens`, `commentAt_closes` — a comment starts with a slash, and one that the text goes
  on behind ends with a newline or with `*/`.
* `AgreeOutsideComments` — two texts are lexed into lexemes of the same kinds and bounds and have
  the same bytes outside their comments.
* `AgreeOutsideComments.map_masked` — such texts have the same lexemes once the contents of comments
  are masked; `matchingBrace_eq` and `arguments_eq` follow, since neither reads them.
-/

namespace Telemetry.Source

open Telemetry.Text (byte)

/-- The modes inside a comment. -/
def Mode.IsComment : Mode → Prop
  | .code | .string _ => False
  | .lineComment | .blockComment _ => True

/-- An offset lies in a comment. -/
def CommentAt (bs : List UInt8) (q : Nat) : Prop :=
  ∃ l ∈ lexemes bs, l.kind = .comment ∧ l.Covers q

/-! ### One step -/

section Step

variable {mode next : Mode} {l : Lexeme} {rest : List UInt8} {b : UInt8} {ahead : Option UInt8}

theorem kind_step_of_isComment (h : mode.IsComment) : (mode.step b ahead).kind = .comment := by
  cases mode with
  | code => cases h
  | string quote => cases h
  | lineComment =>
    simp only [Mode.step]
    split_ifs <;> rfl
  | blockComment outer =>
    cases outer <;> simp only [Mode.step] <;> split_ifs <;> rfl

/-- A step into a comment reads a slash. -/
theorem step_opens (hmode : ¬ mode.IsComment) (h : (mode.step b ahead).kind = .comment) :
    b = byte '/' := by
  cases mode with
  | code =>
    simp only [Mode.step] at h
    split_ifs at h with hquote hline hblock
    · simp only [Bool.and_eq_true, decide_eq_true_eq] at hline
      exact hline.1
    · simp only [Bool.and_eq_true, decide_eq_true_eq] at hblock
      exact hblock.1
  | string quote =>
    simp only [Mode.step] at h
    split_ifs at h
  | lineComment => exact absurd trivial hmode
  | blockComment outer => exact absurd trivial hmode

/-- A step out of a comment reads a newline or the end mark. -/
theorem step_closes (h : (mode.step b ahead).kind = .comment)
    (hnext : ¬ (mode.step b ahead).next.IsComment) :
    b = byte '\n' ∧ (mode.step b ahead).pair = false ∨
      ahead = some (byte '/') ∧ (mode.step b ahead).pair = true := by
  cases mode with
  | code =>
    simp only [Mode.step] at h hnext
    split_ifs at h hnext <;> exact absurd trivial hnext
  | string quote =>
    simp only [Mode.step] at h
    split_ifs at h
  | lineComment =>
    simp only [Mode.step] at hnext ⊢
    split_ifs at hnext ⊢ with hnewline
    · exact Or.inl ⟨hnewline, rfl⟩
    · exact absurd trivial hnext
  | blockComment outer =>
    cases outer with
    | zero =>
      simp only [Mode.step] at hnext ⊢
      split_ifs at hnext ⊢ with hclose
      · simp only [Bool.and_eq_true, decide_eq_true_eq] at hclose
        exact Or.inr ⟨hclose.2, rfl⟩
      · exact absurd trivial hnext
      · exact absurd trivial hnext
    | succ outer =>
      simp only [Mode.step] at hnext
      split_ifs at hnext <;> exact absurd trivial hnext

/-- Strings and code do not lead into a comment. -/
theorem not_isComment_next_step (h : (mode.step b ahead).kind ≠ .comment) :
    ¬ (mode.step b ahead).next.IsComment := by
  cases mode with
  | code =>
    simp only [Mode.step] at h ⊢
    split_ifs at h ⊢ <;> simp_all [Mode.IsComment]
  | string quote =>
    simp only [Mode.step]
    split_ifs <;> exact id
  | lineComment =>
    have hmode : Mode.lineComment.IsComment := trivial
    exact absurd (kind_step_of_isComment hmode) h
  | blockComment outer =>
    have hmode : (Mode.blockComment outer).IsComment := trivial
    exact absurd (kind_step_of_isComment hmode) h

theorem Reads.kind_of_isComment (h : Reads mode l rest next) (hmode : mode.IsComment) :
    l.kind = .comment := by
  cases h with
  | single _ hkind _ => exact hkind.trans (kind_step_of_isComment hmode)
  | pair _ hkind _ => exact hkind.trans (kind_step_of_isComment hmode)

theorem Reads.opens (h : Reads mode l rest next) (hmode : ¬ mode.IsComment)
    (hcomment : l.kind = .comment) : l.bytes.head? = some (byte '/') := by
  cases h with
  | single hbytes hkind _ =>
    rw [hbytes, List.head?_cons, step_opens hmode (hkind.symm.trans hcomment)]
  | pair hbytes hkind _ =>
    rw [hbytes, List.head?_cons, step_opens hmode (hkind.symm.trans hcomment)]

theorem Reads.closes (h : Reads mode l rest next) (hnext : ¬ next.IsComment)
    (hcomment : l.kind = .comment) :
    l.bytes = [byte '\n'] ∨ ∃ b, l.bytes = [b, byte '/'] := by
  cases h with
  | single hbytes hkind hsingle =>
    rcases step_closes (hkind.symm.trans hcomment) hnext with ⟨rfl, -⟩ | ⟨hahead, hpair⟩
    · exact Or.inl hbytes
    · rcases hsingle with hsingle | rfl
      · rw [hsingle] at hpair
        cases hpair
      · cases hahead
  | pair hbytes hkind hpair =>
    rcases step_closes (hkind.symm.trans hcomment) hnext with ⟨-, hsingle⟩ | ⟨hahead, -⟩
    · rw [hsingle] at hpair
      cases hpair
    · cases hahead
      exact Or.inr ⟨_, hbytes⟩

theorem Reads.not_isComment_next (h : Reads mode l rest next) (hkind : l.kind ≠ .comment) :
    ¬ next.IsComment := by
  cases h with
  | single _ hstep _ => exact not_isComment_next_step (hstep ▸ hkind)
  | pair _ hstep _ => exact not_isComment_next_step (hstep ▸ hkind)

end Step

/-! ### The bounds of comments -/

section Bounds

variable {bs : List UInt8} {q : Nat}

theorem commentAt_of_mem {l : Lexeme} (hl : l ∈ lexemes bs) (hq : l.Covers q) :
    CommentAt bs q ↔ l.kind = .comment := by
  constructor
  · rintro ⟨l', hl', hkind, hq'⟩
    rw [(lexes_lexemesFrom .code 0 bs).eq_of_covers hl hl' hq hq']
    exact hkind
  · exact fun hkind => ⟨l, hl, hkind, hq⟩

theorem not_commentAt_of_isCode (h : (Coverage.ofBytes bs).isCode q = true) : ¬ CommentAt bs q := by
  rintro ⟨l, hl, hkind, hcovers⟩
  rw [isCode_iff.mp h l hl hcovers] at hkind
  cases hkind

/-- Behind every lexeme but the last stands the next one, read in the mode that it leaves. -/
theorem exists_next {l : Lexeme} (hl : l ∈ lexemes bs) (hstop : l.stop < bs.length) :
    ∃ l' ∈ lexemes bs, l'.start = l.stop ∧ l'.Covers l.stop ∧
      ∃ mode mode' mode'' rest rest', mode.Quoted ∧ Reads mode l rest mode' ∧
        Reads mode' l' rest' mode'' := by
  have hpass : Lexes .code 0 bs (lexemes bs) := lexes_lexemesFrom .code 0 bs
  obtain ⟨before, after, hsplit⟩ := List.append_of_mem hl
  rw [hsplit] at hpass ⊢
  obtain ⟨mode, next, rest, hquoted, hbs, hstart, hreads, hafter⟩ :=
    hpass.split_invariant Reads.quoted quoted_code
  generalize hoffset : l.stop = offset at hafter
  cases hafter with
  | nil =>
    have hlen := congrArg List.length hbs
    simp only [List.length_append, List.length_nil] at hlen
    simp only [Lexeme.stop] at hstop
    omega
  | @cons _ next' l' rest' after hreads' hrest =>
    have hpos := hreads'.start_lt_stop
    exact ⟨l', by simp, rfl, ⟨Nat.le_refl _, hpos⟩, mode, _, _, _, _, hquoted, hreads, hreads'⟩

/-- **A comment starts with a slash.** -/
theorem commentAt_opens (hq : ¬ CommentAt bs q) (hnext : CommentAt bs (q + 1)) :
    bs[q + 1]? = some (byte '/') := by
  have hpass : Lexes .code 0 bs (lexemes bs) := lexes_lexemesFrom .code 0 bs
  obtain ⟨l', hl', hkind', hcovers'⟩ := hnext
  have hlen := (hpass.within hl').2.2
  obtain ⟨l, hl, hcovers⟩ := hpass.exists_at (Nat.zero_le q) (by have := hcovers'.2; omega)
  have hkind : l.kind ≠ .comment := fun h => hq ⟨l, hl, h, hcovers⟩
  -- the comment is not the lexeme before it, so that one ends here
  have hstop : l.stop = q + 1 := by
    by_contra hne
    have hsame := hpass.eq_of_covers hl hl' (q := q + 1)
      ⟨by have := hcovers.1; omega, by have := hcovers.2; omega⟩ hcovers'
    exact hkind (hsame ▸ hkind')
  obtain ⟨m, hm, hstart, hcoversm, _, _, _, _, _, -, hreads, hreadsm⟩ :=
    exists_next hl (by have := hcovers'.2; omega)
  obtain rfl := hpass.eq_of_covers hm hl' (hstop ▸ hcoversm) hcovers'
  have hhead := hreadsm.opens (hreads.not_isComment_next hkind) hkind'
  have hget := hpass.getElem?_bytes hm hreadsm.length_pos
  rw [← List.head?_eq_getElem?, hhead, hstart, hstop] at hget
  exact hget

/-- **A comment that the text goes on behind** ends with a newline or with an end mark. -/
theorem commentAt_closes (hq : CommentAt bs q) (hlen : q + 1 < bs.length)
    (hnext : ¬ CommentAt bs (q + 1)) :
    ∃ l ∈ lexemes bs, l.Covers q ∧
      (l.start = q ∧ bs[q]? = some (byte '\n') ∨ l.start + 1 = q ∧ bs[q]? = some (byte '/')) := by
  have hpass : Lexes .code 0 bs (lexemes bs) := lexes_lexemesFrom .code 0 bs
  obtain ⟨l, hl, hkind, hcovers⟩ := hq
  have hstop : l.stop = q + 1 := by
    by_contra hne
    exact hnext ⟨l, hl, hkind, by have := hcovers.1; omega, by have := hcovers.2; omega⟩
  obtain ⟨m, hm, -, hcoversm, _, _, _, _, _, -, hreads, hreadsm⟩ := exists_next hl (by omega)
  have hkindm : m.kind ≠ .comment := fun h => hnext ⟨m, hm, h, hstop ▸ hcoversm⟩
  refine ⟨l, hl, hcovers, ?_⟩
  have hleaves := fun hmode => hkindm (hreadsm.kind_of_isComment hmode)
  rcases hreads.closes hleaves hkind with hbytes | ⟨b, hbytes⟩
  · have hstart : l.start = q := by
      simp only [Lexeme.stop, hbytes, List.length_singleton] at hstop
      omega
    have hget := hpass.getElem?_bytes hl (i := 0) (by simp [hbytes])
    rw [hbytes, hstart] at hget
    exact Or.inl ⟨hstart, hget⟩
  · have hstart : l.start + 1 = q := by
      simp only [Lexeme.stop, hbytes, List.length_cons, List.length_nil] at hstop
      omega
    have hget := hpass.getElem?_bytes hl (i := 1) (by simp [hbytes])
    rw [hbytes, Nat.sub_zero, hstart] at hget
    exact Or.inr ⟨hstart, hget⟩

end Bounds

/-! ### Texts that agree outside their comments -/

/-- Two texts of the same length that are lexed into lexemes of the same kinds and bounds and agree
on every byte outside comments. -/
structure AgreeOutsideComments (bs bs' : List UInt8) : Prop where
  length : bs.length = bs'.length
  lexed : (lexemes bs).map (fun l => (l.kind, l.start, l.stop)) =
    (lexemes bs').map fun l => (l.kind, l.start, l.stop)
  bytes : ∀ q, ¬ CommentAt bs q → bs[q]? = bs'[q]?

instance (bs : List UInt8) (q : Nat) : Decidable (CommentAt bs q) :=
  inferInstanceAs (Decidable (∃ l ∈ lexemes bs, l.kind = .comment ∧ (l.start ≤ q ∧ q < l.stop)))

theorem agreeOutsideComments_iff {bs bs' : List UInt8} :
    AgreeOutsideComments bs bs' ↔
      bs.length = bs'.length ∧
        (lexemes bs).map (fun l => (l.kind, l.start, l.stop)) =
          (lexemes bs').map (fun l => (l.kind, l.start, l.stop)) ∧
        ∀ q < bs.length, ¬ CommentAt bs q → bs[q]? = bs'[q]? := by
  constructor
  · rintro ⟨hlength, hlexed, hbytes⟩
    exact ⟨hlength, hlexed, fun q _ => hbytes q⟩
  · rintro ⟨hlength, hlexed, hbytes⟩
    refine ⟨hlength, hlexed, fun q hq => ?_⟩
    by_cases hlt : q < bs.length
    · exact hbytes q hlt hq
    · rw [List.getElem?_eq_none (by omega), List.getElem?_eq_none (by omega)]

instance (bs bs' : List UInt8) : Decidable (AgreeOutsideComments bs bs') :=
  decidable_of_iff _ agreeOutsideComments_iff.symm

section Agree

variable {bs bs' : List UInt8} (h : AgreeOutsideComments bs bs')

include h

/-- Each lexeme has a twin of the same kind and bounds. -/
theorem AgreeOutsideComments.exists_twin {l : Lexeme} (hl : l ∈ lexemes bs) :
    ∃ l' ∈ lexemes bs', l'.kind = l.kind ∧ l'.start = l.start ∧ l'.stop = l.stop := by
  have hmem := List.mem_map_of_mem (f := fun l : Lexeme => (l.kind, l.start, l.stop)) hl
  rw [h.lexed] at hmem
  obtain ⟨l', hl', heq⟩ := List.mem_map.mp hmem
  simp only [Prod.mk.injEq] at heq
  exact ⟨l', hl', heq⟩

theorem AgreeOutsideComments.commentAt {q : Nat} (hq : CommentAt bs q) : CommentAt bs' q := by
  obtain ⟨l, hl, hkind, hcovers⟩ := hq
  obtain ⟨l', hl', hkind', hstart, hstop⟩ := h.exists_twin hl
  exact ⟨l', hl', hkind'.trans hkind, hstart ▸ hcovers.1, hstop ▸ hcovers.2⟩

theorem AgreeOutsideComments.isCode_of_isCode {q : Nat}
    (hq : (Coverage.ofBytes bs').isCode q = true) : (Coverage.ofBytes bs).isCode q = true := by
  refine isCode_iff.mpr fun l hl hcovers => ?_
  obtain ⟨l', hl', hkind', hstart, hstop⟩ := h.exists_twin hl
  rw [← hkind']
  exact isCode_iff.mp hq l' hl' ⟨hstart ▸ hcovers.1, hstop ▸ hcovers.2⟩

theorem AgreeOutsideComments.symm : AgreeOutsideComments bs' bs where
  length := h.length.symm
  lexed := h.lexed.symm
  bytes q hq := (h.bytes q fun hcomment => hq (h.commentAt hcomment)).symm

theorem AgreeOutsideComments.isCode_eq (q : Nat) :
    (Coverage.ofBytes bs).isCode q = (Coverage.ofBytes bs').isCode q :=
  Bool.eq_iff_iff.mpr ⟨h.symm.isCode_of_isCode, h.isCode_of_isCode⟩

/-- The last byte of a comment is the same in both texts: how long the lexeme is that ends the
comment tells a newline from an end mark. -/
theorem AgreeOutsideComments.closing_byte {q : Nat} (hq : CommentAt bs q)
    (hlen : q + 1 < bs.length) (hnext : ¬ CommentAt bs (q + 1)) :
    bs[q]? = some (byte '\n') ∧ bs'[q]? = some (byte '\n') ∨
      bs[q]? = some (byte '/') ∧ bs'[q]? = some (byte '/') := by
  obtain ⟨l, hl, hcovers, hbyte⟩ := commentAt_closes hq hlen hnext
  obtain ⟨l', hl', hcovers', hbyte'⟩ := commentAt_closes (h.commentAt hq) (h.length ▸ hlen)
    fun hcomment => hnext (h.symm.commentAt hcomment)
  obtain ⟨m, hm, -, hstart, hstop⟩ := h.exists_twin hl
  obtain rfl := (lexes_lexemesFrom .code 0 bs').eq_of_covers hl' hm hcovers'
    ⟨hstart ▸ hcovers.1, hstop ▸ hcovers.2⟩
  rcases hbyte with ⟨hq, hbyte⟩ | ⟨hq, hbyte⟩
  · rcases hbyte' with ⟨-, hbyte'⟩ | ⟨hq', -⟩
    · exact Or.inl ⟨hbyte, hbyte'⟩
    · omega
  · rcases hbyte' with ⟨hq', -⟩ | ⟨-, hbyte'⟩
    · omega
    · exact Or.inr ⟨hbyte, hbyte'⟩

end Agree

/-! ### Masking -/

/-- A lexeme without the contents of a comment. -/
def Lexeme.masked (l : Lexeme) : Lexeme :=
  if l.kind = .comment then { l with bytes := [] } else l

theorem start_masked (l : Lexeme) : l.masked.start = l.start := by
  unfold Lexeme.masked
  split <;> rfl

theorem code?_masked (l : Lexeme) : l.masked.code? = l.code? := by
  unfold Lexeme.masked
  split
  · rename_i hkind
    simp [Lexeme.code?, hkind]
  · rfl

/-- Comments play no part in an argument list, whatever they contain. -/
theorem part_masked (depth : Nat) (l : Lexeme) : l.masked.part depth = l.part depth := by
  unfold Lexeme.masked
  split
  · rename_i hkind
    simp [Lexeme.part, hkind]
  · rfl

theorem bytes_masked_of_keep {depth depth' : Nat} {l : Lexeme} (h : l.part depth = .keep depth') :
    l.masked.bytes = l.bytes := by
  unfold Lexeme.masked
  split
  · rename_i hkind
    simp [Lexeme.part, hkind] at h
  · rfl

theorem closingBrace_masked (depth : Nat) (ls : List Lexeme) :
    closingBrace depth (ls.map Lexeme.masked) = closingBrace depth ls := by
  induction ls generalizing depth with
  | nil => rfl
  | cons l ls ih => simp only [List.map_cons, closingBrace, code?_masked, start_masked, ih]

theorem rawArguments_masked (depth : Nat) (ls : List Lexeme) :
    rawArguments depth (ls.map Lexeme.masked) = rawArguments depth ls := by
  induction ls generalizing depth with
  | nil => rfl
  | cons l ls ih =>
    simp only [List.map_cons, rawArguments, part_masked, ih]
    cases hpart : l.part depth with
    | keep depth' => simp only [bytes_masked_of_keep hpart]
    | drop => rfl
    | separator => rfl
    | finish => rfl

theorem map_masked_dropWhile {p : Nat → Bool} (ls : List Lexeme) :
    (ls.dropWhile fun l => p l.start).map Lexeme.masked =
      (ls.map Lexeme.masked).dropWhile fun l => p l.start := by
  induction ls with
  | nil => rfl
  | cons l ls ih =>
    simp only [List.map_cons, List.dropWhile_cons, start_masked]
    split
    · exact ih
    · rfl

section Agree

variable {bs bs' : List UInt8} (h : AgreeOutsideComments bs bs')

include h

/-- **Texts that agree outside their comments have the same masked lexemes.** -/
theorem AgreeOutsideComments.map_masked :
    (lexemes bs).map Lexeme.masked = (lexemes bs').map Lexeme.masked := by
  have hpass : Lexes .code 0 bs (lexemes bs) := lexes_lexemesFrom .code 0 bs
  have hpass' : Lexes .code 0 bs' (lexemes bs') := lexes_lexemesFrom .code 0 bs'
  have hlength : (lexemes bs).length = (lexemes bs').length := by
    simpa using congrArg List.length h.lexed
  refine List.ext_getElem (by simpa using hlength) fun i hi hi' => ?_
  rw [List.getElem_map, List.getElem_map]
  rw [List.length_map] at hi hi'
  have hl := List.getElem_mem hi
  have hl' := List.getElem_mem hi'
  have htwin : ((lexemes bs)[i].kind, (lexemes bs)[i].start, (lexemes bs)[i].stop) =
      ((lexemes bs')[i].kind, (lexemes bs')[i].start, (lexemes bs')[i].stop) := by
    have hget := congrArg (fun es => es[i]?) h.lexed
    simpa [List.getElem?_eq_getElem hi, List.getElem?_eq_getElem hi'] using hget
  generalize (lexemes bs)[i] = l at hl htwin ⊢
  generalize (lexemes bs')[i] = l' at hl' htwin ⊢
  simp only [Prod.mk.injEq] at htwin
  obtain ⟨hkind, hstart, hstop⟩ := htwin
  unfold Lexeme.masked
  by_cases hcomment : l.kind = .comment
  · rw [if_pos hcomment, if_pos (hkind ▸ hcomment), hstart, hkind]
  · have hbytes : l.bytes = l'.bytes := by
      simp only [Lexeme.stop] at hstop
      refine List.ext_getElem? fun j => ?_
      by_cases hj : j < l.bytes.length
      · rw [← hpass.getElem?_bytes hl hj, ← hpass'.getElem?_bytes hl' (by omega), hstart]
        refine h.bytes _ fun hat => hcomment ((commentAt_of_mem hl ?_).mp hat)
        simp only [Lexeme.Covers, Lexeme.stop]
        omega
      · rw [List.getElem?_eq_none (by omega), List.getElem?_eq_none (by omega)]
    obtain ⟨kind, start, bytes⟩ := l
    obtain ⟨kind', start', bytes'⟩ := l'
    simp only at hkind hstart hbytes
    rw [hkind, hstart, hbytes]

/-- So they do from an offset on. -/
theorem AgreeOutsideComments.map_masked_dropWhile_eq (p : Nat → Bool) :
    ((lexemes bs).dropWhile fun l => p l.start).map Lexeme.masked =
      ((lexemes bs').dropWhile fun l => p l.start).map Lexeme.masked := by
  rw [map_masked_dropWhile, map_masked_dropWhile, h.map_masked]

theorem AgreeOutsideComments.getElem?_eq_of_isCode {p : Nat}
    (hcode : (Coverage.ofBytes bs).isCode p = true) : bs[p]? = bs'[p]? :=
  h.bytes p (not_commentAt_of_isCode hcode)

/-- **A brace of code is closed by the same brace** in both texts. -/
theorem AgreeOutsideComments.matchingBrace_eq {p : Nat} (hp : p < bs.length)
    (hcode : (Coverage.ofBytes bs).isCode p = true) :
    matchingBrace bs p = matchingBrace bs' p := by
  have hcode' : (Coverage.ofBytes bs').isCode p = true := h.isCode_eq p ▸ hcode
  have hclosing : closingBrace 0 (lexemesAt bs p) = closingBrace 0 (lexemesAt bs' p) := by
    rw [lexemesAt_eq_dropWhile hp hcode, lexemesAt_eq_dropWhile (h.length ▸ hp) hcode',
      ← closingBrace_masked, h.map_masked_dropWhile_eq fun q => decide (q < p), closingBrace_masked]
  rw [matchingBrace, matchingBrace, h.getElem?_eq_of_isCode hcode, hclosing]

/-- **The call at a parenthesis of code has the same arguments** in both texts. -/
theorem AgreeOutsideComments.arguments_eq {p : Nat} (hp : p < bs.length)
    (hcode : (Coverage.ofBytes bs).isCode p = true) : arguments bs p = arguments bs' p := by
  have hcode' : (Coverage.ofBytes bs').isCode p = true := h.isCode_eq p ▸ hcode
  have hraw : rawArguments 0 (lexemesAt bs (p + 1)) = rawArguments 0 (lexemesAt bs' (p + 1)) := by
    rw [lexemesAt_succ_eq_dropWhile hp hcode, lexemesAt_succ_eq_dropWhile (h.length ▸ hp) hcode',
      ← rawArguments_masked, h.map_masked_dropWhile_eq fun q => decide (q ≤ p), rawArguments_masked]
  rw [arguments, arguments, h.getElem?_eq_of_isCode hcode, hraw]

end Agree

end Telemetry.Source
