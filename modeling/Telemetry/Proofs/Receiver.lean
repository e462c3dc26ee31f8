import Mathlib.Data.List.Infix
import Telemetry.Proofs.Text.Occurrences
import Telemetry.Receiver

/-!
The names of a receiver are its token and what the search for its type finds (`mem_namesIn_iff`).
They are identifiers, whatever token and type it is configured with and whatever the text declares
(`isIdentifier_of_mem_namesIn`); and a name that a text mentions shows that the text mentions the
receiver (`appearsIn_of_mem_namesIn`).
-/

namespace Telemetry.Text

/-- A text contains a word exactly if the word stands somewhere in it. -/
theorem contains_iff_isInfix {word cs : List Char} : contains word cs = true ↔ word <:+: cs := by
  induction cs with
  | nil => simp [contains]
  | cons c cs ih =>
    rw [contains, Bool.or_eq_true, List.isPrefixOf_iff_prefix, ih, List.infix_cons_iff]

end Telemetry.Text

namespace Telemetry.Receiver

open Telemetry.Text

/-- **The parts of a name with a type**: the name, a colon and the type, with blanks around the
colon. -/
theorem exists_parts_of_typedName {typeName : List Char} {before : Option Char}
    {cs rest : List Char} {name : String}
    (h : typedName typeName before cs = some (name, rest)) :
    isBoundary before cs = true ∧ isIdentifier name.toList = true ∧
      isBoundary typeName.getLast? rest = true ∧
      ∃ gap space, (∀ c ∈ gap, isBlank c = true) ∧ (∀ c ∈ space, isBlank c = true) ∧
        cs = name.toList ++ (gap ++ ':' :: (space ++ (typeName ++ rest))) := by
  unfold typedName at h
  split at h
  · rename_i hboundary
    obtain ⟨⟨word, behind⟩, hword, hread⟩ := Option.bind_eq_some_iff.mp h
    obtain ⟨rfl, hidentifier, -⟩ := identifier?_eq_some_iff.mp hword
    simp only at hread
    split at hread
    · rename_i colon hcolon
      obtain ⟨behind', htype, hread⟩ := Option.bind_eq_some_iff.mp hread
      rw [List.isPrefixOf?_eq_some_iff_append_eq] at htype
      split at hread
      · rename_i hends
        obtain ⟨rfl, rfl⟩ := Prod.mk.inj (Option.some.inj hread)
        obtain ⟨⟨gap, hgap, rfl⟩, -⟩ := trimStart_eq_iff.mp hcolon
        obtain ⟨⟨space, hspace, rfl⟩, -⟩ := trimStart_eq_iff.mp htype.symm
        rw [String.toList_ofList]
        exact ⟨hboundary, hidentifier, hends, gap, space, hgap, hspace, rfl⟩
      · cases hread
    · cases hread
  · cases h

/-- A name is in the list exactly if it was there before or has been added. -/
theorem mem_foldl_addName_iff {names found : List String} {name : String} :
    name ∈ found.foldl addName names ↔ name ∈ names ∨ name ∈ found := by
  induction found generalizing names with
  | nil => simp
  | cons new found ih =>
    have hstep : name ∈ addName names new ↔ name ∈ names ∨ name = new := by
      unfold addName
      split
      · rename_i hnew
        exact ⟨Or.inl, fun h => h.elim id fun h => h ▸ List.contains_iff_mem.mp hnew⟩
      · rw [List.mem_append, List.mem_singleton]
    rw [List.foldl_cons, ih, hstep, List.mem_cons, or_assoc]

/-- **The names of a receiver** are its token and the names that the search for its type finds. -/
theorem mem_namesIn_iff {r : Receiver} {text : List Char} {name : String} :
    name ∈ r.namesIn text ↔
      (isIdentifier r.token.toList = true ∧ name = r.token) ∨
        isIdentifier r.typeName.toList = true ∧
          ∃ o ∈ occurrences (typedName r.typeName.toList) text 0, o.value = name := by
  have htoken : name ∈ (if isIdentifier r.token.toList then [r.token] else []) ↔
      isIdentifier r.token.toList = true ∧ name = r.token := by
    split <;> simp [*]
  simp only [namesIn]
  split
  · rename_i htype
    simp only [mem_foldl_addName_iff, htoken, List.mem_map, htype, true_and]
  · rename_i htype
    rw [htoken]
    exact ⟨Or.inl, fun h => h.elim id fun h => absurd h.1 htype⟩

/-- A receiver goes by its token, or by names declared with its type. -/
theorem mem_namesIn_cases {r : Receiver} {text : List Char} {name : String}
    (h : name ∈ r.namesIn text) :
    (isIdentifier r.token.toList = true ∧ name = r.token) ∨
      isIdentifier r.typeName.toList = true ∧ isIdentifier name.toList = true ∧
        r.typeName.toList <:+: text := by
  refine (mem_namesIn_iff.mp h).imp_right ?_
  rintro ⟨htype, o, ho, rfl⟩
  obtain ⟨pre, cs, rest, rfl, -, hread, -, -⟩ := exists_match_of_mem_occurrencesFrom ho
  obtain ⟨-, hname, -, gap, space, -, -, rfl⟩ := exists_parts_of_typedName hread
  refine ⟨htype, hname, pre ++ (o.value.toList ++ (gap ++ ':' :: space)), rest, ?_⟩
  simp

/-- **A receiver goes by identifiers only.** -/
theorem isIdentifier_of_mem_namesIn (r : Receiver) {text : List Char} {name : String}
    (h : name ∈ r.namesIn text) : isIdentifier name.toList = true := by
  rcases mem_namesIn_cases h with ⟨htoken, rfl⟩ | ⟨-, hname, -⟩
  · exact htoken
  · exact hname

/-- **A text that mentions one of the names mentions the receiver**: the name is the token, or it is
declared with the type. -/
theorem appearsIn_of_mem_namesIn {r : Receiver} {text : List Char} {name : String}
    (h : name ∈ r.namesIn text) (hmentions : name.toList <:+: text) : r.appearsIn text = true := by
  have hne : ∀ {s : String}, isIdentifier s.toList = true → s ≠ "" := by
    rintro s hs rfl
    exact ne_nil_of_isIdentifier hs rfl
  rw [appearsIn, Bool.or_eq_true, Bool.and_eq_true, Bool.and_eq_true, contains_iff_isInfix,
    contains_iff_isInfix, decide_eq_true_eq, decide_eq_true_eq]
  rcases mem_namesIn_cases h with ⟨htoken, rfl⟩ | ⟨htype, -, htypeIn⟩
  · exact Or.inl ⟨hne htoken, hmentions⟩
  · exact Or.inr ⟨hne htype, htypeIn⟩

end Telemetry.Receiver
