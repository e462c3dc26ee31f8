import Mathlib.Data.List.Induction
import Telemetry.Proofs.Source.Comments
import Telemetry.Proofs.Text.Bytes

/-!
Texts that agree outside their comments, character by character.

* `commentAt_iff_of_char` — comments begin and end between characters.
* `spelledAt_of_agree` — a phrase outside the comments of one text stands in the other as well.
* `isCode_of_spelledAt` — a phrase that starts in code and has no quote and no slash in it is code.
* `exists_common_front`, `exists_common_behind` — going back or forth from a place outside
  comments, both texts read the same up to the next comment.
-/

namespace Telemetry.Source

open Telemetry.Text

section Characters

variable {text pre post : List Char} {c : Char}

/-- An ASCII byte of a character is the whole character. -/
theorem eq_of_ascii_byte {d : Char} (hd : d.toNat < 128) {j : Nat} (hj : j < c.utf8Size)
    (h : (encode (pre ++ c :: post))[byteSize pre + j]? = some (byte d)) : c = d := by
  obtain ⟨pre', post', htext, hsize⟩ := spelledAt_of_ascii hd h
  obtain ⟨mid, rfl, hmid⟩ := exists_append_of_byteSize_le htext (by omega)
  cases mid with
  | nil => exact (List.cons.inj hmid).1
  | cons e mid =>
    obtain ⟨rfl, -⟩ := List.cons.inj hmid
    simp only [byteSize_append, byteSize_cons] at hsize
    omega

/-- **Comments begin and end between characters.** -/
theorem commentAt_iff_of_char {j : Nat} (hj : j < c.utf8Size) :
    CommentAt (encode (pre ++ c :: post)) (byteSize pre + j) ↔
      CommentAt (encode (pre ++ c :: post)) (byteSize pre) := by
  induction j with
  | zero => rfl
  | succ j ih =>
    rw [← ih (by omega)]
    -- a slash or a newline inside the character would be all of it
    have hascii : ∀ {d : Char} {i : Nat}, d.toNat < 128 → i < c.utf8Size →
        (encode (pre ++ c :: post))[byteSize pre + i]? ≠ some (byte d) := by
      intro d i hd hi hbyte
      obtain rfl := eq_of_ascii_byte hd hi hbyte
      rw [utf8Size_of_ascii hd] at hj
      omega
    constructor
    · intro hnext
      by_contra hat
      exact hascii (d := '/') (by decide) hj (commentAt_opens hat hnext)
    · intro hat
      by_contra hnext
      obtain ⟨l, -, -, ⟨-, hbyte⟩ | ⟨-, hbyte⟩⟩ := commentAt_closes hat (by
        simp only [length_encode, byteSize_append, byteSize_cons]
        omega) hnext
      · exact hascii (by decide) (by omega) hbyte
      · exact hascii (by decide) (by omega) hbyte

end Characters

/-! ### Phrases in code -/

section Code

variable {text xs : List Char} {k : Nat}

theorem mem_of_getElem?_encode {d : Char} (hd : d.toNat < 128)
    (h : (encode xs)[k]? = some (byte d)) : d ∈ xs := by
  obtain ⟨pre, post, rfl, -⟩ := spelledAt_of_ascii hd h
  simp

/-- Code goes on with the next byte, unless that opens a string or may open a comment. -/
theorem isCode_succ {bs : List UInt8} {q : Nat} {b : UInt8}
    (hcode : (Coverage.ofBytes bs).isCode q = true) (hb : bs[q + 1]? = some b)
    (hdouble : b ≠ byte '"') (hsingle : b ≠ byte '\'') (hslash : b ≠ byte '/') :
    (Coverage.ofBytes bs).isCode (q + 1) = true := by
  obtain ⟨hq, hbyte⟩ := List.getElem?_eq_some_iff.mp hb
  obtain ⟨before, _, -, hsplit, -⟩ := lexemes_split_of_isCode (by omega) hcode
  have hnext : ∃ rest, lexemesAt bs (q + 1) = ⟨.code, q + 1, [b]⟩ :: rest := by
    have hstep : ∀ ahead, Mode.step .code b ahead = ⟨.code, .code, false⟩ := by
      intro ahead
      simp [Mode.step, hdouble, hsingle, hslash]
    rw [lexemesAt, List.drop_eq_getElem_cons hq, hbyte]
    cases bs.drop (q + 1 + 1) with
    | nil => exact ⟨[], by simp [lexemesFrom, hstep]⟩
    | cons ahead rest => exact ⟨_, by simp only [lexemesFrom, hstep]; rfl⟩
  obtain ⟨rest, hnext⟩ := hnext
  have hmem : (⟨.code, q + 1, [b]⟩ : Lexeme) ∈ lexemes bs := by
    rw [hsplit, hnext]
    simp
  exact (isCode_of_mem hmem ⟨Nat.le_refl _, by simp [Lexeme.stop]⟩).mpr rfl

/-- A phrase that contains no quote and no slash. -/
def Unquoted (xs : List Char) : Prop :=
  '"' ∉ xs ∧ '\'' ∉ xs ∧ '/' ∉ xs

theorem unquoted_iff : Unquoted xs ↔ ∀ c ∈ ['"', '\'', '/'], c ∉ xs := by
  simp [Unquoted]

theorem Unquoted.of_getElem? (hxs : Unquoted xs) {b : UInt8} (hb : (encode xs)[k]? = some b) :
    b ≠ byte '"' ∧ b ≠ byte '\'' ∧ b ≠ byte '/' := by
  refine ⟨?_, ?_, ?_⟩
  · rintro rfl
    exact hxs.1 (mem_of_getElem?_encode (by decide) hb)
  · rintro rfl
    exact hxs.2.1 (mem_of_getElem?_encode (by decide) hb)
  · rintro rfl
    exact hxs.2.2 (mem_of_getElem?_encode (by decide) hb)

/-- **An unquoted phrase that starts in code is code.** -/
theorem isCode_of_spelledAt (hspelled : SpelledAt text k xs) (hxs : Unquoted xs)
    (hcode : (Coverage.ofBytes (encode text)).isCode k = true) {j : Nat} (hj : j < byteSize xs) :
    (Coverage.ofBytes (encode text)).isCode (k + j) = true := by
  induction j with
  | zero => exact hcode
  | succ j ih =>
    have hlen : j + 1 < (encode xs).length := by rwa [length_encode]
    have hb : (encode xs)[j + 1]? = some (encode xs)[j + 1] := List.getElem?_eq_getElem hlen
    obtain ⟨hdouble, hsingle, hslash⟩ := hxs.of_getElem? hb
    rw [← getElem?_of_spelledAt hspelled hj] at hb
    exact isCode_succ (ih (by omega)) hb hdouble hsingle hslash

end Code

/-! ### From one text to the other -/

section Agree

variable {text text' : List Char} (h : AgreeOutsideComments (encode text) (encode text'))

include h

/-- **A phrase outside the comments of a text** stands in the other text as well. -/
theorem spelledAt_of_agree {xs : List Char} {k : Nat} (hxs : xs ≠ [])
    (hfree : ∀ j < byteSize xs, ¬ CommentAt (encode text) (k + j))
    (hspelled : SpelledAt text k xs) : SpelledAt text' k xs := by
  rw [spelledAt_iff hxs, List.prefix_iff_eq_take] at hspelled ⊢
  refine hspelled.trans (List.ext_getElem? fun j => ?_)
  rw [List.getElem?_take, List.getElem?_take]
  split
  · rename_i hj
    rw [List.getElem?_drop, List.getElem?_drop]
    exact h.bytes _ (hfree j (length_encode xs ▸ hj))
  · rfl

/-- A character outside comments stands in the other text as well. -/
theorem exists_char_of_agree {pre post : List Char} {c : Char} (htext : text = pre ++ c :: post)
    (hfree : ¬ CommentAt (encode text) (byteSize pre)) {pre' post' : List Char}
    (htext' : text' = pre' ++ post') (hsize : byteSize pre' = byteSize pre) :
    ∃ rest, post' = c :: rest := by
  subst htext
  have hspelled : SpelledAt text' (byteSize pre) [c] := by
    refine spelledAt_of_agree h (by simp) (fun j hj hat => hfree ?_) ⟨pre, post, rfl, rfl⟩
    exact (commentAt_iff_of_char (by simpa using hj)).mp hat
  obtain ⟨pre'', rest, hother, hsize'⟩ := hspelled
  obtain ⟨-, rfl⟩ := append_inj_of_byteSize (htext'.symm.trans hother) (hsize.trans hsize'.symm)
  exact ⟨rest, rfl⟩

/-- The ends of two texts in front of a place outside comments, as far as they differ: they are
empty, or the last byte of a comment ends both. -/
def CommentEnds (text : List Char) (u u' : List Char) : Prop :=
  u = [] ∧ u' = [] ∨ ∃ w w' c, u = w ++ [c] ∧ u' = w' ++ [c] ∧ (c = '\n' ∨ c = '/') ∧
    CommentAt (encode text) (byteSize w)

/-- **Going back** from a place outside comments, both texts read the same up to a comment. -/
theorem exists_common_before {pre post : List Char} (htext : text = pre ++ post) (hpost : post ≠ [])
    (hfree : ¬ CommentAt (encode text) (byteSize pre)) :
    ∃ u u' v post', pre = u ++ v ∧ text' = u' ++ (v ++ post') ∧ byteSize u' = byteSize u ∧
      CommentEnds text u u' := by
  induction pre using List.reverseRecOn generalizing post with
  | nil => exact ⟨[], [], [], text', rfl, rfl, rfl, Or.inl ⟨rfl, rfl⟩⟩
  | append_singleton pre c ih =>
    have hchar : text = pre ++ c :: post := by rw [htext, List.append_assoc]; rfl
    by_cases hat : CommentAt (encode text) (byteSize pre)
    · -- the character is the last one of a comment, so a newline or a slash
      have hpos := c.utf8Size_pos
      have hlast : byteSize pre + (c.utf8Size - 1) + 1 = byteSize (pre ++ [c]) := by
        simp only [byteSize_append, byteSize_cons, byteSize_nil]
        omega
      have hatlast : CommentAt (encode text) (byteSize pre + (c.utf8Size - 1)) := by
        rw [hchar] at hat ⊢
        exact (commentAt_iff_of_char (by omega)).mpr hat
      have hlen : byteSize pre + (c.utf8Size - 1) + 1 < (encode text).length := by
        rw [hlast, htext, length_encode, byteSize_append (pre ++ [c])]
        have := byteSize_pos hpost
        omega
      have hends : ∀ {d : Char}, d.toNat < 128 → (d = '\n' ∨ d = '/') →
          (encode text)[byteSize pre + (c.utf8Size - 1)]? = some (byte d) →
          (encode text')[byteSize pre + (c.utf8Size - 1)]? = some (byte d) →
          ∃ u u' v post', pre ++ [c] = u ++ v ∧ text' = u' ++ (v ++ post') ∧
            byteSize u' = byteSize u ∧ CommentEnds text u u' := by
        intro d hd hmark hbyte hbyte'
        rw [hchar] at hbyte
        obtain rfl := eq_of_ascii_byte hd (by omega) hbyte
        obtain ⟨w', rest, htext', hsize⟩ := spelledAt_of_ascii hd hbyte'
        rw [utf8Size_of_ascii hd, Nat.sub_self, Nat.add_zero] at hsize
        exact ⟨pre ++ [c], w' ++ [c], [], rest, by simp, by simp [htext'],
          by rw [byteSize_append, byteSize_append, hsize],
          Or.inr ⟨pre, w', c, rfl, rfl, hmark, hat⟩⟩
      rcases h.closing_byte hatlast hlen (hlast ▸ hfree) with ⟨hbyte, hbyte'⟩ | ⟨hbyte, hbyte'⟩
      · exact hends (by decide) (Or.inl rfl) hbyte hbyte'
      · exact hends (by decide) (Or.inr rfl) hbyte hbyte'
    · obtain ⟨u, u', v, post', rfl, htext', hsize, hends⟩ := ih hchar (by simp) hat
      rw [← List.append_assoc] at htext'
      obtain ⟨rest, rfl⟩ := exists_char_of_agree h hchar hat htext'
        (by rw [byteSize_append, byteSize_append, hsize])
      exact ⟨u, u', v ++ [c], rest, by simp, by simp [htext'], hsize, hends⟩

/-- The texts in front of a place outside comments differ in front of a comment only. -/
theorem exists_common_front {pre post pre' post' : List Char} (htext : text = pre ++ post)
    (htext' : text' = pre' ++ post') (hsize : byteSize pre' = byteSize pre) (hpost : post ≠ [])
    (hfree : ¬ CommentAt (encode text) (byteSize pre)) :
    ∃ u u' v, pre = u ++ v ∧ pre' = u' ++ v ∧ CommentEnds text u u' := by
  obtain ⟨u, u', v, rest, rfl, hother, hsize', hends⟩ := exists_common_before h htext hpost hfree
  rw [← List.append_assoc] at hother
  obtain ⟨rfl, -⟩ := append_inj_of_byteSize (htext'.symm.trans hother)
    (by rw [hsize, byteSize_append, byteSize_append, hsize'])
  exact ⟨u, u', v, rfl, rfl, hends⟩

/-- **Going forth** from a place behind which no comment goes on, both texts read the same up to a
comment, which opens with a slash. -/
theorem exists_common_behind {pre post pre' post' : List Char} (htext : text = pre ++ post)
    (htext' : text' = pre' ++ post') (hsize : byteSize pre' = byteSize pre) (hpre : pre ≠ [])
    (hfree : ¬ CommentAt (encode text) (byteSize pre - 1)) :
    ∃ v w w', post = v ++ w ∧ post' = v ++ w' ∧
      (w = [] ∧ w' = [] ∨ ∃ y y', w = '/' :: y ∧ w' = '/' :: y') := by
  induction post generalizing pre pre' post' with
  | nil =>
    have hlen := h.length
    rw [length_encode, length_encode, htext, htext', byteSize_append, byteSize_append, hsize,
      byteSize_nil] at hlen
    exact ⟨[], [], post', rfl, rfl, Or.inl ⟨rfl, byteSize_eq_zero_iff.mp (by omega)⟩⟩
  | cons c post ih =>
    have hpos := c.utf8Size_pos
    have hsub : byteSize pre - 1 + 1 = byteSize pre := Nat.sub_add_cancel (byteSize_pos hpre)
    by_cases hat : CommentAt (encode text) (byteSize pre)
    · -- a comment opens here
      have hslash := commentAt_opens hfree (hsub.symm ▸ hat)
      have hslash' := commentAt_opens (fun hcomment => hfree (h.symm.commentAt hcomment))
        (hsub.symm ▸ h.commentAt hat)
      rw [hsub] at hslash hslash'
      rw [htext] at hslash
      obtain rfl := eq_of_ascii_byte (j := 0) (by decide) hpos hslash
      obtain ⟨pre'', rest, hother, hsize'⟩ := spelledAt_of_ascii (by decide) hslash'
      obtain ⟨-, rfl⟩ := append_inj_of_byteSize (htext'.symm.trans hother)
        (hsize.trans hsize'.symm)
      exact ⟨[], _, _, rfl, rfl, Or.inr ⟨post, rest, rfl, rfl⟩⟩
    · obtain ⟨rest, rfl⟩ := exists_char_of_agree h htext hat htext' hsize
      have hnext : text = (pre ++ [c]) ++ post := by simp [htext]
      have hnext' : text' = (pre' ++ [c]) ++ rest := by simp [htext']
      have hlast : byteSize (pre ++ [c]) - 1 = byteSize pre + (c.utf8Size - 1) := by
        simp only [byteSize_append, byteSize_cons, byteSize_nil]
        omega
      have hfreelast : ¬ CommentAt (encode text) (byteSize (pre ++ [c]) - 1) := by
        rw [hlast]
        rw [htext] at hat ⊢
        exact fun hcomment => hat ((commentAt_iff_of_char (by omega)).mp hcomment)
      obtain ⟨v, w, w', rfl, rfl, hends⟩ := ih hnext hnext'
        (by rw [byteSize_append, byteSize_append, hsize]) (by simp) hfreelast
      exact ⟨c :: v, w, w', rfl, rfl, hends⟩

end Agree

end Telemetry.Source
