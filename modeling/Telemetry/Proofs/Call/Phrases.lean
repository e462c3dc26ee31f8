import Mathlib.Data.List.Count
import Telemetry.Call.Basic
import Telemetry.Proofs.Text.Occurrences

/-!
The phrases that the patterns of calls and scope blocks stand for.

`Bare word closer` is a word and a closing mark with blanks between them, and `Member receiver word
closer` puts `receiver.` or `receiver?.` in front, blanks again allowed.

* `memberCall_eq_some_iff`, `scopeOpening_eq_some_iff`, `bareCall_eq_some_iff` — each pattern
  succeeds exactly where its phrase stands behind a word boundary.
* `memberCall_separated`, `scopeOpening_separated`, `bareCall_separated` — for identifiers no such
  phrase starts inside another one, so a search that goes on behind each match misses none.
-/

namespace Telemetry.Call

open Telemetry.Text Telemetry.Source

/-- A run of blanks. -/
def Blanks (s : List Char) : Prop :=
  ∀ c ∈ s, isBlank c = true

/-- A word, blanks and a closing mark. -/
def Bare (word : List Char) (closer : Char) (phrase : List Char) : Prop :=
  ∃ s, Blanks s ∧ phrase = word ++ (s ++ [closer])

/-- The marks between a receiver and its member. -/
def IsAccess (mark : List Char) : Prop :=
  mark = ['.'] ∨ mark = ['?', '.']

/-- A member of a receiver, blanks and a closing mark. -/
def Member (receiver word : List Char) (closer : Char) (phrase : List Char) : Prop :=
  ∃ s₁ mark s₂ call, Blanks s₁ ∧ IsAccess mark ∧ Blanks s₂ ∧ Bare word closer call ∧
    phrase = receiver ++ (s₁ ++ (mark ++ (s₂ ++ call)))

theorem IsAccess.isIdentifierPart_eq_false {mark : List Char} (h : IsAccess mark) :
    ∀ c ∈ mark, isIdentifierPart c = false := by
  intro c hc
  have hmark : c = '.' ∨ c = '?' := by
    rcases h with rfl | rfl
    · exact Or.inl (List.mem_singleton.mp hc)
    · exact (List.mem_cons.mp hc).symm.imp_left List.mem_singleton.mp
  rcases hmark with rfl | rfl <;> decide

theorem Bare.ne_nil {word phrase : List Char} {closer : Char} (h : Bare word closer phrase) :
    phrase ≠ [] := by
  obtain ⟨s, -, rfl⟩ := h
  simp

theorem Member.ne_nil {receiver word phrase : List Char} {closer : Char}
    (h : Member receiver word closer phrase) : phrase ≠ [] := by
  obtain ⟨s₁, mark, s₂, call, -, -, -, hcall, rfl⟩ := h
  simp [hcall.ne_nil]

/-- A mark that closes a phrase: no blank, no part of an identifier and no part of an access. -/
structure IsCloser (closer : Char) : Prop where
  blank : isBlank closer = false
  part : isIdentifierPart closer = false
  dot : closer ≠ '.'
  question : closer ≠ '?'

theorem isCloser_parenthesis : IsCloser '(' := by
  constructor <;> decide

theorem isCloser_brace : IsCloser '\x7b' := by
  constructor <;> decide

/-! ### Reading -/

section Reading

variable {receiver word s rest cs : List Char} {closer : Char}

theorem trimStart_blanks_append (hs : Blanks s) (hrest : ∀ c ∈ rest.head?, isBlank c = false) :
    trimStart (s ++ rest) = rest :=
  trimStart_eq_iff.mpr ⟨⟨s, hs, rfl⟩, hrest⟩

/-- The access to a member, blanks skipped up to the member. -/
theorem memberOf_eq_some_iff {before : Option Char} :
    memberOf receiver before cs = some rest ↔
      isBoundary before cs = true ∧ (∀ c ∈ rest.head?, isBlank c = false) ∧
        ∃ s₁ mark s₂, Blanks s₁ ∧ IsAccess mark ∧ Blanks s₂ ∧
          cs = receiver ++ (s₁ ++ (mark ++ (s₂ ++ rest))) := by
  unfold memberOf
  constructor
  · intro h
    split at h
    · rename_i hboundary
      refine ⟨hboundary, ?_⟩
      obtain ⟨behind, hreceiver, hread⟩ := Option.bind_eq_some_iff.mp h
      rw [List.isPrefixOf?_eq_some_iff_append_eq] at hreceiver
      subst hreceiver
      have hmarks : ∀ mark member, trimStart behind = mark ++ member → IsAccess mark →
          trimStart member = rest →
          (∀ c ∈ rest.head?, isBlank c = false) ∧
            ∃ s₁ mark s₂, Blanks s₁ ∧ IsAccess mark ∧ Blanks s₂ ∧
              receiver ++ behind = receiver ++ (s₁ ++ (mark ++ (s₂ ++ rest))) := by
        intro mark member hbehind hmark hmember
        obtain ⟨⟨s₁, hs₁, rfl⟩, -⟩ := trimStart_eq_iff.mp hbehind
        obtain ⟨⟨s₂, hs₂, rfl⟩, hstop⟩ := trimStart_eq_iff.mp hmember
        exact ⟨hstop, s₁, mark, s₂, hs₁, hmark, hs₂, rfl⟩
      split at hread
      · rename_i member hbehind
        exact hmarks ['?', '.'] member hbehind (Or.inr rfl) (Option.some.inj hread)
      · rename_i member hbehind
        exact hmarks ['.'] member hbehind (Or.inl rfl) (Option.some.inj hread)
      · cases hread
    · cases h
  · rintro ⟨hboundary, hstop, s₁, mark, s₂, hs₁, hmark, hs₂, rfl⟩
    rw [if_pos hboundary, Option.bind_eq_some_iff]
    refine ⟨_, List.isPrefixOf?_eq_some_iff_append_eq.mpr rfl, ?_⟩
    rcases hmark with rfl | rfl
    · rw [trimStart_blanks_append hs₁ (by rintro _ ⟨⟩; decide)]
      simp only [List.cons_append, List.nil_append, trimStart_blanks_append hs₂ hstop]
    · rw [trimStart_blanks_append hs₁ (by rintro _ ⟨⟩; decide)]
      simp only [List.cons_append, List.nil_append, trimStart_blanks_append hs₂ hstop]

/-- A text with an identifier in front starts with a character of it. -/
theorem head?_word_append (hword : isIdentifier word = true) :
    ∀ c ∈ (word ++ rest).head?, isIdentifierPart c = true := by
  intro c hc
  rw [List.head?_append] at hc
  cases word with
  | nil => exact absurd hword (by simp [isIdentifier])
  | cons d word =>
    cases hc
    exact isIdentifierPart_of_mem hword List.mem_cons_self

/-- An identifier in front of blanks and a closing mark is read as a whole. -/
theorem identifier?_bare (hword : isIdentifier word = true) (hs : Blanks s)
    (hcloser : IsCloser closer) :
    identifier? (word ++ (s ++ closer :: rest)) = some (word, s ++ closer :: rest) :=
  identifier?_eq_some_iff.mpr ⟨rfl, hword, head?_append_cons_eq_false
    (fun c hc => isIdentifierPart_of_isBlank (hs c hc)) hcloser.part _⟩

/-- A bare phrase is one in one way. -/
theorem bare_unique {word' s' rest' : List Char} (hcloser : IsCloser closer)
    (hword : isIdentifier word = true) (hword' : isIdentifier word' = true) (hs : Blanks s)
    (hs' : Blanks s')
    (h : word ++ (s ++ closer :: rest) = word' ++ (s' ++ closer :: rest')) :
    word = word' ∧ rest = rest' := by
  have hread : identifier? (word ++ (s ++ closer :: rest)) = some (word, s ++ closer :: rest) :=
    identifier?_bare hword hs hcloser
  rw [h, identifier?_bare hword' hs' hcloser] at hread
  obtain ⟨rfl, htail⟩ := Prod.mk.inj (Option.some.inj hread)
  have hstop : ∀ {tail : List Char}, ∀ c ∈ (closer :: tail).head?, isBlank c = false := by
    rintro tail _ ⟨⟩
    exact hcloser.blank
  exact ⟨rfl, (List.cons.inj (run_unique hs' hstop hs hstop htail).2).2.symm⟩

end Reading

/-! ### The patterns -/

section Patterns

variable {receiver cs rest : List Char} {before : Option Char}

/-- **A member call** is read exactly where its phrase stands behind a word boundary. -/
theorem memberCall_eq_some_iff {method : String} :
    memberCall receiver before cs = some (method, rest) ↔
      isBoundary before cs = true ∧
        ∃ phrase, (isIdentifier method.toList = true ∧ Member receiver method.toList '(' phrase) ∧
          cs = phrase ++ rest := by
  constructor
  · intro h
    obtain ⟨member, hmember, hname⟩ := Option.bind_eq_some_iff.mp h
    obtain ⟨⟨name, behind⟩, hname, hclose⟩ := Option.bind_eq_some_iff.mp hname
    obtain ⟨hboundary, -, s₁, mark, s₂, hs₁, hmark, hs₂, rfl⟩ := memberOf_eq_some_iff.mp hmember
    obtain ⟨rfl, hidentifier, -⟩ := identifier?_eq_some_iff.mp hname
    simp only at hclose
    split at hclose
    · rename_i rest' hbehind
      obtain ⟨rfl, rfl⟩ := Prod.mk.inj (Option.some.inj hclose)
      obtain ⟨⟨s₃, hs₃, rfl⟩, -⟩ := trimStart_eq_iff.mp hbehind
      rw [String.toList_ofList]
      refine ⟨hboundary, _, ⟨hidentifier,
        ⟨s₁, mark, s₂, _, hs₁, hmark, hs₂, ⟨s₃, hs₃, rfl⟩, rfl⟩⟩, ?_⟩
      simp only [List.append_assoc, List.singleton_append]
    · cases hclose
  · rintro ⟨hboundary, _, ⟨hidentifier,
      ⟨s₁, mark, s₂, _, hs₁, hmark, hs₂, ⟨s₃, hs₃, rfl⟩, rfl⟩⟩, rfl⟩
    simp only [List.append_assoc, List.singleton_append] at hboundary ⊢
    have hmember := memberOf_eq_some_iff.mpr ⟨hboundary,
      fun c hc => isBlank_of_isIdentifierPart (head?_word_append hidentifier c hc),
      s₁, mark, s₂, hs₁, hmark, hs₂, rfl⟩
    have hclose : trimStart (s₃ ++ '(' :: rest) = '(' :: rest :=
      trimStart_blanks_append hs₃ (by rintro _ ⟨⟩; decide)
    simp only [memberCall, hmember, Option.bind_some,
      identifier?_bare hidentifier hs₃ isCloser_parenthesis, hclose, String.ofList_toList]

/-- One of several words in front of blanks and a closing mark. A word that fits is the only one,
so the order of the words does not matter. -/
theorem findSome?_bare_iff {β : Type} {words : List β} (cs : List Char) (spelling : β → List Char)
    {closer : Char}
    (hcloser : IsCloser closer) (hidentifier : ∀ w ∈ words, isIdentifier (spelling w) = true)
    (hinj : ∀ v ∈ words, ∀ w ∈ words, spelling v = spelling w → v = w)
    {read : β → Option (β × List Char)}
    (hread : ∀ w v rest, read w = some (v, rest) ↔
      v = w ∧ ∃ phrase, Bare (spelling w) closer phrase ∧ cs = phrase ++ rest)
    {w : β} :
    words.findSome? read = some (w, rest) ↔
      w ∈ words ∧ ∃ phrase, Bare (spelling w) closer phrase ∧ cs = phrase ++ rest := by
  constructor
  · intro h
    obtain ⟨v, hv, hfound⟩ := List.exists_of_findSome?_eq_some h
    obtain ⟨rfl, hphrase⟩ := (hread v w rest).mp hfound
    exact ⟨hv, hphrase⟩
  · rintro ⟨hw, hphrase⟩
    have hfits := (hread w w rest).mpr ⟨rfl, hphrase⟩
    cases hfound : words.findSome? read with
    | none =>
      rw [List.findSome?_eq_none_iff.mp hfound w hw] at hfits
      cases hfits
    | some found =>
      obtain ⟨v, rest'⟩ := found
      obtain ⟨u, hu, hother⟩ := List.exists_of_findSome?_eq_some hfound
      obtain ⟨rfl, _, ⟨s', hs', rfl⟩, hcs'⟩ := (hread u v rest').mp hother
      obtain ⟨_, ⟨s, hs, rfl⟩, hcs⟩ := hphrase
      simp only [List.append_assoc, List.singleton_append] at hcs hcs'
      obtain ⟨hspelling, rfl⟩ := bare_unique hcloser (hidentifier v hu) (hidentifier w hw) hs' hs
        (hcs'.symm.trans hcs)
      rw [hinj v hu w hw hspelling]

/-- A word in front, and behind it what the closing mark decides. -/
theorem bind_closer_eq_some_iff {β : Type} {word : List Char} {closer : Char} {b v : β}
    (hcloser : IsCloser closer) {close : List Char → Option (β × List Char)}
    (hclose : ∀ behind v rest,
      close behind = some (v, rest) ↔ v = b ∧ trimStart behind = closer :: rest) :
    (word.isPrefixOf? cs).bind close = some (v, rest) ↔
      v = b ∧ ∃ phrase, Bare word closer phrase ∧ cs = phrase ++ rest := by
  constructor
  · intro h
    obtain ⟨behind, hword, hread⟩ := Option.bind_eq_some_iff.mp h
    rw [List.isPrefixOf?_eq_some_iff_append_eq] at hword
    subst hword
    obtain ⟨rfl, hbehind⟩ := (hclose behind v rest).mp hread
    obtain ⟨⟨s, hs, rfl⟩, -⟩ := trimStart_eq_iff.mp hbehind
    exact ⟨rfl, _, ⟨s, hs, rfl⟩, by simp⟩
  · rintro ⟨rfl, _, ⟨s, hs, rfl⟩, rfl⟩
    refine Option.bind_eq_some_iff.mpr ⟨s ++ closer :: rest, ?_, (hclose _ _ _).mpr ⟨rfl, ?_⟩⟩
    · rw [List.isPrefixOf?_eq_some_iff_append_eq]
      simp
    · exact trimStart_blanks_append hs (by rintro _ ⟨⟩; exact hcloser.blank)

/-- One method in front of a parenthesis. -/
theorem readMethod_eq_some_iff {m v : String} :
    ((m.toList.isPrefixOf? cs).bind fun rest =>
      match trimStart rest with
      | '(' :: rest => some (m, rest)
      | _ => none) = some (v, rest) ↔
      v = m ∧ ∃ phrase, Bare m.toList '(' phrase ∧ cs = phrase ++ rest := by
  refine bind_closer_eq_some_iff isCloser_parenthesis fun behind v rest => ?_
  split
  · rename_i rest' hbehind
    simp [hbehind, eq_comm]
  · rename_i hbehind
    simp only [reduceCtorEq, false_iff, not_and]
    exact fun _ => hbehind rest

/-- A bare call of whatever method is read where its phrase stands behind a word boundary. -/
theorem of_bareCall {methods : List String} {method : String}
    (h : bareCall methods before cs = some (method, rest)) :
    isBoundary before cs = true ∧
      ∃ phrase, (method ∈ methods ∧ Bare method.toList '(' phrase) ∧ cs = phrase ++ rest := by
  unfold bareCall at h
  split at h
  · rename_i hboundary
    obtain ⟨m, hm, hread⟩ := List.exists_of_findSome?_eq_some h
    obtain ⟨rfl, phrase, hphrase, rfl⟩ := readMethod_eq_some_iff.mp hread
    exact ⟨hboundary, phrase, ⟨hm, hphrase⟩, rfl⟩
  · cases h

/-- **A bare call** of an identifier is read exactly where its phrase stands behind a word
boundary. -/
theorem bareCall_eq_some_iff {methods : List String}
    (hmethods : ∀ m ∈ methods, isIdentifier m.toList = true) {method : String} :
    bareCall methods before cs = some (method, rest) ↔
      isBoundary before cs = true ∧
        ∃ phrase, (method ∈ methods ∧ Bare method.toList '(' phrase) ∧ cs = phrase ++ rest := by
  unfold bareCall
  split
  · rename_i hboundary
    rw [findSome?_bare_iff cs String.toList isCloser_parenthesis hmethods
      (fun v _ w _ h => String.toList_inj.mp h)]
    · simp only [hboundary, true_and, and_assoc, exists_and_left]
    · exact fun m v rest => readMethod_eq_some_iff
  · rename_i hboundary
    simp [hboundary]

theorem scopeWord?_eq_some_iff {w : ScopeWord} :
    scopeWord? cs = some (w, rest) ↔
      ∃ phrase, Bare w.spelling.toList '\x7b' phrase ∧ cs = phrase ++ rest := by
  have hall : w ∈ [ScopeWord.apply, .run, .letIn, .also] := by
    cases w <;> decide
  unfold scopeWord?
  rw [findSome?_bare_iff cs (fun w => w.spelling.toList) isCloser_brace
    (by decide) (by decide)]
  · simp only [hall, true_and]
  · intro w v rest
    refine bind_closer_eq_some_iff isCloser_brace fun behind v rest => ?_
    split
    · rename_i rest' hbehind
      simp [hbehind, eq_comm]
    · rename_i hbehind
      simp only [reduceCtorEq, false_iff, not_and]
      exact fun _ => hbehind rest

theorem isIdentifier_spelling (w : ScopeWord) : isIdentifier w.spelling.toList = true := by
  cases w <;> decide

/-- **The opening of a scope block** is read exactly where its phrase stands behind a word
boundary. -/
theorem scopeOpening_eq_some_iff {w : ScopeWord} :
    scopeOpening receiver before cs = some (w, rest) ↔
      isBoundary before cs = true ∧
        ∃ phrase, Member receiver w.spelling.toList '\x7b' phrase ∧ cs = phrase ++ rest := by
  rw [scopeOpening, Option.bind_eq_some_iff]
  constructor
  · rintro ⟨member, hmember, hword⟩
    obtain ⟨hboundary, -, s₁, mark, s₂, hs₁, hmark, hs₂, rfl⟩ := memberOf_eq_some_iff.mp hmember
    obtain ⟨call, hcall, rfl⟩ := scopeWord?_eq_some_iff.mp hword
    refine ⟨hboundary, _, ⟨s₁, mark, s₂, call, hs₁, hmark, hs₂, hcall, rfl⟩, ?_⟩
    simp only [List.append_assoc]
  · rintro ⟨hboundary, _, ⟨s₁, mark, s₂, call, hs₁, hmark, hs₂, hcall, rfl⟩, rfl⟩
    refine ⟨call ++ rest, memberOf_eq_some_iff.mpr
      ⟨hboundary, ?_, s₁, mark, s₂, hs₁, hmark, hs₂, ?_⟩,
      scopeWord?_eq_some_iff.mpr ⟨call, hcall, rfl⟩⟩
    · obtain ⟨s, -, rfl⟩ := hcall
      intro c hc
      rw [List.append_assoc] at hc
      exact isBlank_of_isIdentifierPart (head?_word_append (isIdentifier_spelling w) c hc)
    · simp only [List.append_assoc]

end Patterns

/-! ### Matches do not overlap -/

section Separation

variable {receiver word cs rest x y : List Char} {closer : Char}

/-- No word boundary lies inside an identifier, and no identifier starts behind it before other
characters are over. -/
theorem isBoundary_inside_eq_false (lead tail : List Char) (hword : isIdentifier word = true)
    (hreceiver : isIdentifier receiver = true) (hlead : ∀ c ∈ lead, isIdentifierPart c = false)
    (hx : x ≠ []) (h : x ++ (word ++ tail) = receiver ++ lead) :
    isBoundary x.getLast? (word ++ rest) = false := by
  have hhead : (word ++ rest).head?.any isWord = true := by
    cases word with
    | nil => exact absurd hword (by simp [isIdentifier])
    | cons c word =>
      exact isWord_of_isIdentifierPart (isIdentifierPart_of_mem hword List.mem_cons_self)
  rcases List.append_eq_append_iff.mp h with ⟨z, hz, -⟩ | ⟨z, -, hz⟩
  · -- the word would start inside the receiver
    obtain ⟨c, hc⟩ : ∃ c, x.getLast? = some c := ⟨_, List.getLast?_eq_some_getLast hx⟩
    have hmem : c ∈ receiver := by
      rw [hz]
      exact List.mem_append_left _ (List.mem_of_mem_getLast? hc)
    have hlast := isWord_of_isIdentifierPart (isIdentifierPart_of_mem hreceiver hmem)
    rw [isBoundary, hc, hhead]
    simp [hlast]
  · -- the word would start among the characters behind the receiver
    cases word with
    | nil => exact absurd hword (by simp [isIdentifier])
    | cons c word =>
      have hpart := isIdentifierPart_of_mem hword (c := c) List.mem_cons_self
      rw [hlead c (by rw [hz]; simp)] at hpart
      cases hpart

/-- A phrase that ends with its only closing mark. -/
def Closed (closer : Char) (phrase : List Char) : Prop :=
  ∃ u, phrase = u ++ [closer] ∧ closer ∉ u

/-- Of two phrases in front of a text that end with their only closing marks, both are the same. -/
theorem Closed.unique {phrase phrase' rest' : List Char} (h : Closed closer phrase)
    (h' : Closed closer phrase') (heq : phrase ++ rest = phrase' ++ rest') : phrase = phrase' := by
  obtain ⟨u, rfl, hu⟩ := h
  obtain ⟨u', rfl, hu'⟩ := h'
  simp only [List.append_assoc, List.singleton_append] at heq
  have hrun : ∀ {v : List Char}, closer ∉ v → ∀ c ∈ v, (c != closer) = true :=
    fun hv c hc => bne_iff_ne.mpr (ne_of_mem_of_not_mem hc hv)
  rw [(run_unique (hrun hu) (by simp) (hrun hu') (by simp) heq).1]

theorem Closed.of_append (h : Closed closer (x ++ y)) (hy : y ≠ []) : Closed closer y := by
  obtain ⟨u, hxy, hu⟩ := h
  obtain ⟨v, c, rfl⟩ : ∃ v c, y = v ++ [c] := ⟨_, _, (List.dropLast_concat_getLast hy).symm⟩
  rw [← List.append_assoc] at hxy
  obtain ⟨rfl, hc⟩ := List.append_inj' hxy rfl
  exact ⟨v, by rw [hc], fun hmem => hu (List.mem_append_right _ hmem)⟩

/-- **Patterns of closed phrases are separated**, if no word boundary lies in front of such a
phrase inside another one. -/
theorem separated_of_closed {α : Type} {p : Pattern α} (closer : Char) {P : List Char → Prop}
    (hmatch : ∀ {before cs a rest}, p before cs = some (a, rest) →
      isBoundary before cs = true ∧ ∃ phrase, P phrase ∧ cs = phrase ++ rest)
    (hclosed : ∀ {phrase}, P phrase → Closed closer phrase)
    (hinside : ∀ {x y : List Char} (rest : List Char), x ≠ [] → P (x ++ y) → P y →
      isBoundary x.getLast? (y ++ rest) = false) :
    p.Separated where
  consumes := by
    intro before cs rest a h
    obtain ⟨-, phrase, hphrase, rfl⟩ := hmatch h
    obtain ⟨u, rfl, -⟩ := hclosed hphrase
    exact ⟨_, by simp, rfl⟩
  apart := by
    intro before x y rest a h hx hy
    obtain ⟨-, phrase, hphrase, heq⟩ := hmatch h
    rw [← List.append_assoc] at heq
    obtain rfl : x ++ y = phrase := List.append_cancel_right heq
    cases hother : p x.getLast? (y ++ rest) with
    | none => rfl
    | some found =>
      obtain ⟨a', rest'⟩ := found
      obtain ⟨hboundary, phrase', hphrase', heq'⟩ := hmatch hother
      have hsame := ((hclosed hphrase).of_append hy).unique (hclosed hphrase') heq'
      rw [hinside rest hx hphrase (hsame ▸ hphrase')] at hboundary
      cases hboundary

theorem not_mem_blanks {c : Char} (hc : isBlank c = false) {s : List Char} (hs : Blanks s) :
    c ∉ s := by
  intro hmem
  rw [hs c hmem] at hc
  cases hc

/-! ### Bare phrases -/

/-- No mark but the closing one stands in a bare phrase. -/
theorem Bare.not_mem {mark : Char} (hmark : IsCloser mark) (hne : mark ≠ closer)
    (hword : isIdentifier word = true) {phrase : List Char} (h : Bare word closer phrase) :
    mark ∉ phrase := by
  obtain ⟨s, hs, rfl⟩ := h
  simp only [List.mem_append, List.mem_singleton, not_or]
  exact ⟨not_mem_identifier hmark.part hword, not_mem_blanks hmark.blank hs, hne⟩

theorem closed_bare (hcloser : IsCloser closer) (hword : isIdentifier word = true)
    {phrase : List Char} (h : Bare word closer phrase) : Closed closer phrase := by
  obtain ⟨s, hs, rfl⟩ := h
  refine ⟨word ++ s, by simp, ?_⟩
  simp only [List.mem_append, not_or]
  exact ⟨not_mem_identifier hcloser.part hword, not_mem_blanks hcloser.blank hs⟩

/-- **Bare calls of identifiers do not overlap.** -/
theorem bareCall_separated {methods : List String}
    (hmethods : ∀ m ∈ methods, isIdentifier m.toList = true) :
    Pattern.Separated (bareCall methods) := by
  refine separated_of_closed '('
    (P := fun phrase => ∃ word, isIdentifier word = true ∧ Bare word '(' phrase) ?_ ?_ ?_
  · intro before cs method rest h
    obtain ⟨hboundary, phrase, ⟨hmethod, hphrase⟩, rfl⟩ := (bareCall_eq_some_iff hmethods).mp h
    exact ⟨hboundary, phrase, ⟨_, hmethods method hmethod, hphrase⟩, rfl⟩
  · rintro phrase ⟨word, hword, hphrase⟩
    exact closed_bare isCloser_parenthesis hword hphrase
  · rintro x y rest hx ⟨word, hword, s, hs, hxy⟩ ⟨word', hword', s', hs', rfl⟩
    rw [List.append_assoc]
    refine isBoundary_inside_eq_false s s' hword' hword
      (fun c hc => isIdentifierPart_of_isBlank (hs c hc)) hx ?_
    simp only [← List.append_assoc] at hxy ⊢
    exact List.append_cancel_right hxy

/-! ### Members -/

/-- The access of a member phrase ends with its only dot. -/
theorem Member.split_dot (hcloser : IsCloser closer) (hword : isIdentifier word = true)
    {phrase : List Char} (h : Member receiver word closer phrase) :
    ∃ lead tail, phrase = receiver ++ (lead ++ '.' :: tail) ∧
      (∀ c ∈ lead, isBlank c = true ∨ c = '?') ∧ '.' ∉ tail := by
  obtain ⟨s₁, mark, s₂, _, hs₁, hmark, hs₂, ⟨s₃, hs₃, rfl⟩, rfl⟩ := h
  have htail : '.' ∉ s₂ ++ (word ++ (s₃ ++ [closer])) := by
    simp only [List.mem_append, List.mem_singleton, not_or]
    exact ⟨not_mem_blanks (by decide) hs₂, not_mem_identifier (by decide) hword,
      not_mem_blanks (by decide) hs₃, hcloser.dot.symm⟩
  rcases hmark with rfl | rfl
  · exact ⟨s₁, _, by simp, fun c hc => Or.inl (hs₁ c hc), htail⟩
  · refine ⟨s₁ ++ ['?'], _, by simp, fun c hc => ?_, htail⟩
    rcases List.mem_append.mp hc with hc | hc
    · exact Or.inl (hs₁ c hc)
    · exact Or.inr (List.mem_singleton.mp hc)

theorem IsAccess.not_mem {mark : Char} (hmark : IsCloser mark) {access : List Char}
    (h : IsAccess access) : mark ∉ access := by
  rcases h with rfl | rfl
  · simpa using hmark.dot
  · simpa using ⟨hmark.question, hmark.dot⟩

/-- No mark but the closing one stands in a member phrase. -/
theorem Member.not_mem {mark : Char} (hmark : IsCloser mark) (hne : mark ≠ closer)
    (hreceiver : isIdentifier receiver = true) (hword : isIdentifier word = true)
    {phrase : List Char} (h : Member receiver word closer phrase) : mark ∉ phrase := by
  obtain ⟨s₁, access, s₂, call, hs₁, haccess, hs₂, hcall, rfl⟩ := h
  simp only [List.mem_append, not_or]
  exact ⟨not_mem_identifier hmark.part hreceiver, not_mem_blanks hmark.blank hs₁,
    haccess.not_mem hmark, not_mem_blanks hmark.blank hs₂, hcall.not_mem hmark hne hword⟩

theorem closed_member (hcloser : IsCloser closer) (hreceiver : isIdentifier receiver = true)
    (hword : isIdentifier word = true) {phrase : List Char}
    (h : Member receiver word closer phrase) : Closed closer phrase := by
  obtain ⟨s₁, access, s₂, call, hs₁, haccess, hs₂, hcall, rfl⟩ := h
  obtain ⟨u, rfl, hu⟩ := closed_bare hcloser hword hcall
  refine ⟨receiver ++ (s₁ ++ (access ++ (s₂ ++ u))), by simp, ?_⟩
  simp only [List.mem_append, not_or]
  exact ⟨not_mem_identifier hcloser.part hreceiver, not_mem_blanks hcloser.blank hs₁,
    haccess.not_mem hcloser, not_mem_blanks hcloser.blank hs₂, hu⟩

/-- What stands in front of the last occurrence of a character is determined by the text. -/
theorem append_cons_unique {c : Char} {as as' tail tail' : List Char} (htail : c ∉ tail)
    (htail' : c ∉ tail') (h : as ++ c :: tail = as' ++ c :: tail') : as = as' := by
  have hrun : ∀ {v : List Char}, c ∉ v → ∀ d ∈ v, (d != c) = true :=
    fun hv d hd => bne_iff_ne.mpr (ne_of_mem_of_not_mem hd hv)
  have hends : ∀ front : List Char, ∀ d ∈ (front ++ [c]).getLast?, (d != c) = false :=
    fun front => @getLast?_concat_eq_false _ (· != c) c (by simp) front
  rw [List.append_cons, List.append_cons as'] at h
  exact List.append_cancel_right
    (run_unique_back (hrun htail) (hends as) (hrun htail') (hends as') h).1

/-- A pattern of members of an identifier is separated. The dot is what two overlapping phrases
would have to share. -/
theorem separated_of_member {α : Type} {p : Pattern α} (hcloser : IsCloser closer)
    (hreceiver : isIdentifier receiver = true)
    (hmatch : ∀ {before cs a rest}, p before cs = some (a, rest) →
      isBoundary before cs = true ∧ ∃ phrase,
        (∃ word, isIdentifier word = true ∧ Member receiver word closer phrase) ∧
        cs = phrase ++ rest) :
    p.Separated := by
  refine separated_of_closed closer hmatch ?_ ?_
  · rintro phrase ⟨word, hword, hphrase⟩
    exact closed_member hcloser hreceiver hword hphrase
  · rintro x y rest hx ⟨word, hword, hxy⟩ ⟨word', hword', hy⟩
    obtain ⟨lead, tail, hxy, hlead, htail⟩ := hxy.split_dot hcloser hword
    obtain ⟨lead', tail', rfl, -, htail'⟩ := hy.split_dot hcloser hword'
    rw [List.append_assoc]
    refine isBoundary_inside_eq_false lead lead' hreceiver hreceiver ?_ hx ?_
    · intro c hc
      rcases hlead c hc with hblank | rfl
      · exact isIdentifierPart_of_isBlank hblank
      · decide
    · simp only [← List.append_assoc] at hxy ⊢
      exact append_cons_unique htail' htail hxy

/-- **Calls on an identifier do not overlap.** -/
theorem memberCall_separated (hreceiver : isIdentifier receiver = true) :
    Pattern.Separated (memberCall receiver) := by
  refine separated_of_member isCloser_parenthesis hreceiver ?_
  intro before cs method rest h
  obtain ⟨hboundary, phrase, ⟨hmethod, hphrase⟩, rfl⟩ := memberCall_eq_some_iff.mp h
  exact ⟨hboundary, phrase, ⟨_, hmethod, hphrase⟩, rfl⟩

/-- **Scope blocks of an identifier do not overlap in their openings.** -/
theorem scopeOpening_separated (hreceiver : isIdentifier receiver = true) :
    Pattern.Separated (scopeOpening receiver) := by
  refine separated_of_member isCloser_brace hreceiver ?_
  intro before cs w rest h
  obtain ⟨hboundary, phrase, hphrase, rfl⟩ := scopeOpening_eq_some_iff.mp h
  exact ⟨hboundary, phrase, ⟨_, isIdentifier_spelling w, hphrase⟩, rfl⟩

end Separation

end Telemetry.Call
