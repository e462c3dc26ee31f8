import Mathlib.Data.List.TakeWhile
import Telemetry.Text.Blank
import Telemetry.Text.Identifier
import Telemetry.Text.Word

/-!
How the readers of a text cut it.

* `dropWhile_append_stop`, `takeWhile_append_stop` — a run of characters of a class ends where the
  first character outside the class stands, so a run at either end of a text is determined by the
  text (`run_unique`, `run_unique_back`); `dropWhile_bne_eq_cons_iff` divides a text at the first
  occurrence of a character.
* `isIdentifierPart_iff` — the characters of an identifier by code point; they are word characters
  (`isWord_of_isIdentifierPart`) and no blanks (`isBlank_of_isIdentifierPart`), and a blank is no
  word character (`isWord_of_isBlank`).
* `identifier?_eq_some_iff`, `trimStart_eq_iff` — the two readers every pattern is made of, each
  described by the way it divides the text; `trim_eq_iff` says the same of blanks at both ends.
* `word_unique` — the last word of a text and the blanks behind it are determined by the text.
-/

namespace Telemetry.Text

/-! ### Runs of a class of characters -/

section Runs

variable {α : Type} {p : α → Bool} {xs rest : List α}

/-- A run ends where the first element outside the class stands. -/
theorem dropWhile_append_stop (hrun : ∀ x ∈ xs, p x = true)
    (hstop : ∀ x ∈ rest.head?, p x = false) : (xs ++ rest).dropWhile p = rest := by
  rw [List.dropWhile_append_of_pos hrun]
  cases rest with
  | nil => rfl
  | cons x rest =>
    have hx : p x = false := hstop x rfl
    simp [hx]

theorem takeWhile_append_stop (hrun : ∀ x ∈ xs, p x = true)
    (hstop : ∀ x ∈ rest.head?, p x = false) : (xs ++ rest).takeWhile p = xs := by
  rw [List.takeWhile_append_of_pos hrun]
  cases rest with
  | nil => simp
  | cons x rest =>
    have hx : p x = false := hstop x rfl
    simp [hx]

/-- An element outside the class ends a run wherever it stands. -/
theorem dropWhile_append_cons {x : α} (hx : p x = false) :
    (xs ++ x :: rest).dropWhile p = xs.dropWhile p ++ x :: rest := by
  induction xs with
  | nil => simp [hx]
  | cons y xs ih =>
    rw [List.cons_append, List.dropWhile_cons, List.dropWhile_cons, ih]
    split <;> rfl

theorem takeWhile_append_cons {x : α} (hx : p x = false) :
    (xs ++ x :: rest).takeWhile p = xs.takeWhile p := by
  induction xs with
  | nil => simp [hx]
  | cons y xs ih => rw [List.cons_append, List.takeWhile_cons, List.takeWhile_cons, ih]

/-- Of two runs one after the other only the wider one counts. -/
theorem dropWhile_dropWhile {q : α → Bool} (hwider : ∀ x, q x = true → p x = true) :
    (xs.dropWhile q).dropWhile p = xs.dropWhile p := by
  induction xs with
  | nil => rfl
  | cons x xs ih =>
    by_cases hx : q x = true
    · rw [List.dropWhile_cons_of_pos hx, List.dropWhile_cons_of_pos (hwider x hx), ih]
    · rw [List.dropWhile_cons_of_neg hx]

/-- A run and what is left after it are determined by the text. -/
theorem run_unique {ys rest' : List α} (hxs : ∀ x ∈ xs, p x = true)
    (hrest : ∀ x ∈ rest.head?, p x = false) (hys : ∀ y ∈ ys, p y = true)
    (hrest' : ∀ y ∈ rest'.head?, p y = false) (h : xs ++ rest = ys ++ rest') :
    xs = ys ∧ rest = rest' := by
  constructor
  · rw [← takeWhile_append_stop hxs hrest, h, takeWhile_append_stop hys hrest']
  · rw [← dropWhile_append_stop hxs hrest, h, dropWhile_append_stop hys hrest']

/-- The same for a run at the end of a text. -/
theorem run_unique_back {front front' ys : List α} (hxs : ∀ x ∈ xs, p x = true)
    (hfront : ∀ x ∈ front.getLast?, p x = false) (hys : ∀ y ∈ ys, p y = true)
    (hfront' : ∀ y ∈ front'.getLast?, p y = false) (h : front ++ xs = front' ++ ys) :
    front = front' ∧ xs = ys := by
  have hreverse : xs.reverse ++ front.reverse = ys.reverse ++ front'.reverse := by
    simpa using congrArg List.reverse h
  obtain ⟨hrun, hrest⟩ := run_unique (fun x hx => hxs x (List.mem_reverse.mp hx))
    (by rwa [List.head?_reverse]) (fun y hy => hys y (List.mem_reverse.mp hy))
    (by rwa [List.head?_reverse]) hreverse
  exact ⟨List.reverse_inj.mp hrest, List.reverse_inj.mp hrun⟩

theorem forall_mem_eq_false (h : (xs.all fun x => !p x) = true) : ∀ x ∈ xs, p x = false := by
  simpa using h

/-- A text that ends with a run outside a class ends outside the class. -/
theorem getLast?_append_eq_false (hne : xs ≠ []) (hxs : ∀ x ∈ xs, p x = false)
    (front : List α) : ∀ x ∈ (front ++ xs).getLast?, p x = false := by
  intro x hx
  rw [List.getLast?_append, List.getLast?_eq_some_getLast hne, Option.some_or] at hx
  exact hxs x (Option.some.inj hx ▸ List.getLast_mem hne)

/-- A text that starts with a run outside a class starts outside the class. -/
theorem head?_append_eq_false (hne : xs ≠ []) (hxs : ∀ x ∈ xs, p x = false) (rest : List α) :
    ∀ x ∈ (xs ++ rest).head?, p x = false := by
  intro x hx
  obtain ⟨y, ys, rfl⟩ := List.exists_cons_of_ne_nil hne
  cases hx
  exact hxs _ List.mem_cons_self

theorem head?_append_cons_eq_false {x : α} (hxs : ∀ y ∈ xs, p y = false) (hx : p x = false)
    (rest : List α) : ∀ y ∈ (xs ++ x :: rest).head?, p y = false := by
  by_cases hne : xs = []
  · subst hne
    rintro y ⟨⟩
    exact hx
  · exact head?_append_eq_false hne hxs (x :: rest)

theorem getLast?_concat_eq_false {x : α} (hx : p x = false) (front : List α) :
    ∀ y ∈ (front ++ [x]).getLast?, p y = false := by
  rw [List.getLast?_concat]
  rintro y ⟨⟩
  exact hx

/-- **A text divides at the first occurrence of a character** into the part in front of it, which
does not hold the character, and the part behind it. -/
theorem dropWhile_bne_eq_cons_iff {c : Char} {cs front rest : List Char} :
    cs.dropWhile (· != c) = c :: rest ∧ cs.takeWhile (· != c) = front ↔
      cs = front ++ c :: rest ∧ c ∉ front := by
  constructor
  · rintro ⟨hdrop, rfl⟩
    refine ⟨by rw [← hdrop, List.takeWhile_append_dropWhile], fun hc => ?_⟩
    have hne := List.mem_takeWhile_imp hc
    simp at hne
  · rintro ⟨rfl, hfront⟩
    have hrun : ∀ d ∈ front, (d != c) = true :=
      fun d hd => bne_iff_ne.mpr (ne_of_mem_of_not_mem hd hfront)
    have hstop : ∀ d ∈ (c :: rest).head?, (d != c) = false := by
      rintro _ ⟨⟩
      simp
    exact ⟨dropWhile_append_stop hrun hstop, takeWhile_append_stop hrun hstop⟩

/-- The first occurrence of a character is determined by the text. -/
theorem first_unique {c : Char} {front front' rest rest' : List Char} (hfront : c ∉ front)
    (hfront' : c ∉ front') (h : front ++ c :: rest = front' ++ c :: rest') :
    front = front' ∧ rest = rest' := by
  obtain ⟨hdrop, htake⟩ := dropWhile_bne_eq_cons_iff.mpr ⟨h, hfront'⟩
  obtain ⟨hdrop', htake'⟩ := dropWhile_bne_eq_cons_iff.mpr ⟨rfl, hfront⟩
  rw [hdrop'] at hdrop
  rw [htake'] at htake
  exact ⟨htake, (List.cons.inj hdrop).2⟩

/-- What is left after a run starts outside the class. -/
theorem head?_dropWhile_eq_false {x : α} (h : x ∈ (xs.dropWhile p).head?) : p x = false := by
  have hnot := List.head?_dropWhile_not p xs
  rw [Option.mem_def] at h
  rw [h] at hnot
  exact hnot

end Runs

/-! ### Classes of characters -/

/-- The characters of an identifier by code point. -/
theorem isIdentifierPart_iff {c : Char} :
    isIdentifierPart c = true ↔
      (48 ≤ c.toNat ∧ c.toNat ≤ 57) ∨ (65 ≤ c.toNat ∧ c.toNat ≤ 90) ∨ c.toNat = 95 ∨
        (97 ≤ c.toNat ∧ c.toNat ≤ 122) := by
  have hunderscore : c = '_' ↔ c.toNat = 95 := by rw [← Char.toNat_inj]; rfl
  have hupper : c.isUpper = true ↔ 65 ≤ c.toNat ∧ c.toNat ≤ 90 := decide_eq_true_iff
  have hlower : c.isLower = true ↔ 97 ≤ c.toNat ∧ c.toNat ≤ 122 := by
    rw [show c.isLower = (decide (97 ≤ c.toNat) && decide (c.toNat ≤ 122)) from rfl,
      Bool.and_eq_true, decide_eq_true_iff, decide_eq_true_iff]
  have hdigit : c.isDigit = true ↔ 48 ≤ c.toNat ∧ c.toNat ≤ 57 := Char.isDigit_iff_toNat
  rw [show isIdentifierPart c = (c.isUpper || c.isLower || c.isDigit || c == '_') from rfl]
  simp only [Bool.or_eq_true, beq_iff_eq, hunderscore, hupper, hlower, hdigit]
  omega

theorem isIdentifierPart_of_isIdentifierStart {c : Char} (h : isIdentifierStart c = true) :
    isIdentifierPart c = true := by
  simp only [isIdentifierStart, isIdentifierPart, Char.isAlphanum, Bool.or_eq_true] at h ⊢
  rcases h with h | h
  · exact Or.inl (Or.inl h)
  · exact Or.inr h

theorem isBlank_of_isIdentifierPart {c : Char} (h : isIdentifierPart c = true) :
    isBlank c = false := by
  rw [isIdentifierPart_iff] at h
  simp only [isBlank, Bool.or_eq_false_iff, Bool.and_eq_false_iff, beq_eq_false_iff_ne,
    decide_eq_false_iff_not]
  omega

theorem isIdentifierPart_of_isBlank {c : Char} (h : isBlank c = true) :
    isIdentifierPart c = false := by
  cases hpart : isIdentifierPart c with
  | false => rfl
  | true =>
    rw [isBlank_of_isIdentifierPart hpart] at h
    cases h

theorem isWord_of_isIdentifierPart {c : Char} (h : isIdentifierPart c = true) :
    isWord c = true := by
  have hascii : c.toNat < 128 := by
    rw [isIdentifierPart_iff] at h
    omega
  simpa only [isWord, hascii, if_true, isIdentifierPart] using h

theorem isWord_of_isBlank {c : Char} (h : isBlank c = true) : isWord c = false := by
  have hblanks : ∀ n ∈ List.range' 9 5 ++ List.range' 0x2000 11 ++
      [0x20, 0x85, 0xA0, 0x1680, 0x2028, 0x2029, 0x202F, 0x205F, 0x3000],
      isWord (Char.ofNat n) = false := by decide +kernel
  have hmem : c.toNat ∈ List.range' 9 5 ++ List.range' 0x2000 11 ++
      [0x20, 0x85, 0xA0, 0x1680, 0x2028, 0x2029, 0x202F, 0x205F, 0x3000] := by
    simp only [isBlank, Bool.or_eq_true, Bool.and_eq_true, decide_eq_true_eq, beq_iff_eq] at h
    simp only [List.mem_append, List.mem_range'_1, List.mem_cons, List.not_mem_nil, or_false]
    omega
  simpa using hblanks _ hmem

/-! ### Identifiers -/

theorem isIdentifier_cons {c : Char} {cs : List Char} :
    isIdentifier (c :: cs) = true ↔
      isIdentifierStart c = true ∧ ∀ x ∈ cs, isIdentifierPart x = true := by
  simp [isIdentifier]

theorem isIdentifierPart_of_mem {name : List Char} (h : isIdentifier name = true) {c : Char}
    (hc : c ∈ name) : isIdentifierPart c = true := by
  cases name with
  | nil => cases hc
  | cons d name =>
    rw [isIdentifier_cons] at h
    rcases List.mem_cons.mp hc with rfl | hc
    · exact isIdentifierPart_of_isIdentifierStart h.1
    · exact h.2 c hc

theorem not_mem_identifier {c : Char} {name : List Char} (hc : isIdentifierPart c = false)
    (h : isIdentifier name = true) : c ∉ name := by
  intro hmem
  rw [isIdentifierPart_of_mem h hmem] at hc
  cases hc

theorem ne_nil_of_isIdentifier {name : List Char} (h : isIdentifier name = true) : name ≠ [] := by
  rintro rfl
  simp [isIdentifier] at h

theorem isBlank_of_mem_identifier {name : List Char} (h : isIdentifier name = true) :
    ∀ c ∈ name, isBlank c = false :=
  fun _ hc => isBlank_of_isIdentifierPart (isIdentifierPart_of_mem h hc)

/-- An identifier as a run of characters. -/
theorem run_of_isIdentifier {word : List Char} (h : isIdentifier word = true) :
    word ≠ [] ∧ ∀ c ∈ word, isIdentifierPart c = true :=
  ⟨ne_nil_of_isIdentifier h, fun _ => isIdentifierPart_of_mem h⟩

/-- **The reader of identifiers takes the longest one**: what it returns is an identifier, and no
further character could belong to it. -/
theorem identifier?_eq_some_iff {cs name rest : List Char} :
    identifier? cs = some (name, rest) ↔
      cs = name ++ rest ∧ isIdentifier name = true ∧
        ∀ c ∈ rest.head?, isIdentifierPart c = false := by
  constructor
  · intro h
    cases cs with
    | nil => simp [identifier?] at h
    | cons c cs =>
      simp only [identifier?] at h
      split at h
      · rename_i hstart
        simp only [Option.some.injEq, Prod.mk.injEq] at h
        obtain ⟨rfl, rfl⟩ := h
        refine ⟨by simp, isIdentifier_cons.mpr ⟨hstart, ?_⟩, ?_⟩
        · intro x hx
          exact List.mem_takeWhile_imp hx
        · intro x hx
          exact head?_dropWhile_eq_false hx
      · cases h
  · rintro ⟨rfl, hname, hstop⟩
    cases name with
    | nil => simp [isIdentifier] at hname
    | cons c name =>
      obtain ⟨hstart, hparts⟩ := isIdentifier_cons.mp hname
      simp only [List.cons_append, identifier?, hstart, if_true,
        takeWhile_append_stop hparts hstop, dropWhile_append_stop hparts hstop]

/-! ### Blanks -/

/-- **Skipping blanks** divides a text into blanks and a rest that starts with none. -/
theorem trimStart_eq_iff {cs rest : List Char} :
    trimStart cs = rest ↔
      (∃ blanks, (∀ c ∈ blanks, isBlank c = true) ∧ cs = blanks ++ rest) ∧
        ∀ c ∈ rest.head?, isBlank c = false := by
  constructor
  · rintro rfl
    refine ⟨⟨cs.takeWhile isBlank, fun c hc => List.mem_takeWhile_imp hc, ?_⟩, ?_⟩
    · exact List.takeWhile_append_dropWhile.symm
    · intro c hc
      exact head?_dropWhile_eq_false hc
  · rintro ⟨⟨blanks, hblanks, rfl⟩, hstop⟩
    exact dropWhile_append_stop hblanks hstop

theorem trimStart_eq_self {cs : List Char} (h : ∀ c ∈ cs.head?, isBlank c = false) :
    trimStart cs = cs :=
  trimStart_eq_iff.mpr ⟨⟨[], by simp, by simp⟩, h⟩

/-- A word and blanks behind it, at the end of a text, where a word is a run of characters of a
class and no character of the class stands before it. -/
theorem word_unique {p : Char → Bool} (hblank : ∀ {c}, isBlank c = true → p c = false)
    {x x' word word' bl bl' : List Char}
    (hx : ∀ c ∈ x.getLast?, p c = false) (hx' : ∀ c ∈ x'.getLast?, p c = false)
    (hword : word ≠ [] ∧ ∀ c ∈ word, p c = true) (hword' : word' ≠ [] ∧ ∀ c ∈ word', p c = true)
    (hbl : ∀ c ∈ bl, isBlank c = true) (hbl' : ∀ c ∈ bl', isBlank c = true)
    (h : x ++ (word ++ bl) = x' ++ (word' ++ bl')) : x = x' ∧ word = word' ∧ bl = bl' := by
  have hlast : ∀ {w : List Char}, (w ≠ [] ∧ ∀ c ∈ w, p c = true) → ∀ y : List Char,
      ∀ c ∈ (y ++ w).getLast?, isBlank c = false := by
    rintro w ⟨hne, hw⟩ y
    refine getLast?_append_eq_false hne (fun c hc => Bool.eq_false_iff.mpr fun hbl => ?_) y
    have hclass := hw c hc
    rw [hblank hbl] at hclass
    cases hclass
  rw [← List.append_assoc, ← List.append_assoc] at h
  obtain ⟨hrest, hblanks⟩ := run_unique_back hbl (hlast hword x) hbl' (hlast hword' x') h
  obtain ⟨hfront, hwords⟩ := run_unique_back hword.2 hx hword'.2 hx' hrest
  exact ⟨hfront, hwords, hblanks⟩

theorem trimEnd_eq_reverse (cs : List Char) : trimEnd cs = (trimStart cs.reverse).reverse := rfl

/-- **Trimming** divides a text into blanks, a middle that neither starts nor ends with one, and
blanks. -/
theorem trim_eq_iff {cs ds : List Char} :
    trim cs = ds ↔
      (∃ front back, (∀ c ∈ front, isBlank c = true) ∧ (∀ c ∈ back, isBlank c = true) ∧
        cs = front ++ (ds ++ back)) ∧
      (∀ c ∈ ds.head?, isBlank c = false) ∧ ∀ c ∈ ds.getLast?, isBlank c = false := by
  constructor
  · rintro rfl
    obtain ⟨⟨front, hfront, hcs⟩, hhead⟩ := trimStart_eq_iff.mp (rfl : trimStart cs = _)
    obtain ⟨⟨back, hback, hrest⟩, hlast⟩ :=
      trimStart_eq_iff.mp (rfl : trimStart (trimStart cs).reverse = _)
    have hmiddle : trimStart cs = trim cs ++ back.reverse := by
      rw [trim, trimEnd_eq_reverse, ← List.reverse_append, ← hrest, List.reverse_reverse]
    refine ⟨⟨front, back.reverse, hfront, fun c hc => hback c (List.mem_reverse.mp hc), ?_⟩,
      fun c hc => hhead c ?_, fun c hc => hlast c ?_⟩
    · rw [← hmiddle, ← hcs]
    · rw [hmiddle, List.head?_append, Option.mem_def.mp hc]
      rfl
    · rwa [trim, trimEnd_eq_reverse, List.getLast?_reverse] at hc
  · rintro ⟨⟨front, back, hfront, hback, rfl⟩, hhead, hlast⟩
    have hreverse : ∀ c ∈ back.reverse, isBlank c = true :=
      fun c hc => hback c (List.mem_reverse.mp hc)
    cases ds with
    | nil =>
      have hblank : trimStart (front ++ ([] ++ back)) = [] :=
        trimStart_eq_iff.mpr ⟨⟨front ++ back, fun c hc => ?_, by simp⟩, by simp⟩
      · rw [trim, hblank]
        rfl
      · exact (List.mem_append.mp hc).elim (hfront c) (hback c)
    | cons d ds =>
      have hstart : trimStart (front ++ (d :: ds ++ back)) = d :: ds ++ back :=
        trimStart_eq_iff.mpr ⟨⟨front, hfront, rfl⟩, hhead⟩
      have hend : trimStart (d :: ds ++ back).reverse = (d :: ds).reverse := by
        rw [List.reverse_append]
        exact trimStart_eq_iff.mpr
          ⟨⟨back.reverse, hreverse, rfl⟩, fun c hc => hlast c (by rwa [List.head?_reverse] at hc)⟩
      rw [trim, hstart, trimEnd_eq_reverse, hend, List.reverse_reverse]

/-- A trimmed text has no blanks left to trim. -/
theorem trim_trim (cs : List Char) : trim (trim cs) = trim cs := by
  obtain ⟨-, hhead, hlast⟩ := trim_eq_iff.mp (rfl : trim cs = _)
  exact trim_eq_iff.mpr ⟨⟨[], [], by simp, by simp, by simp⟩, hhead, hlast⟩

/-- A trimmed text stands in the text. -/
theorem isInfix_trim (cs : List Char) : trim cs <:+: cs := by
  obtain ⟨⟨front, back, -, -, hcs⟩, -⟩ := trim_eq_iff.mp (rfl : trim cs = _)
  exact ⟨front, back, by rw [List.append_assoc]; exact hcs.symm⟩

/-- Trimming leaves an identifier alone. -/
theorem trim_of_isIdentifier {name : List Char} (h : isIdentifier name = true) :
    trim name = name := by
  have hblank := isBlank_of_mem_identifier h
  have hstart : trimStart name = name :=
    trimStart_eq_self fun c hc => hblank c (List.mem_of_mem_head? hc)
  have hend : (name.reverse.dropWhile isBlank) = name.reverse :=
    trimStart_eq_self fun c hc => hblank c (List.mem_reverse.mp (List.mem_of_mem_head? hc))
  rw [trim, hstart, trimEnd, hend, List.reverse_reverse]

end Telemetry.Text
