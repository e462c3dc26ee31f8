import Telemetry.Proofs.Source.Endings
import Telemetry.Proofs.Symbol.Overrides
import Telemetry.Proofs.Text.Occurrences
import Telemetry.Symbol.Declaration

/-!
The declarations that a table is made of.

A match of the pattern counts if its name stands in code. Its header, which goes from the keyword to
the equals sign, holds no quotes and no slashes, so from the name on all of it is code; but the
blanks in front of the name may hold the newline that ends a line comment.

* `exists_parts_of_declaration` — a match divides into its header and the initializer, which is read
  to the end of its line (`exists_parts_of_initializer?`).
* `literalBody?_eq_some_iff` — the reader of literals takes the text up to the closing quote.
* `Table.get?_ofSource_eq_some_iff` — a name has the value of the last declaration of it.
* `isCode_name_iff` — a match counts exactly if its header is code, or if a line comment ends with
  the keyword of the match and the rest of the header stands behind the comment.
* `bindings_live_or_stray` — so a table binds what is declared in either way, and nothing else.
-/

namespace Telemetry.Symbol

open Telemetry.Text Telemetry.Source

/-! ### Headers -/

/-- The text of a declaration from its keyword to the equals sign: `blanks` stand in front of the
name, and `types` behind it, perhaps a type annotation and blanks. -/
def Declaration.header (d : Declaration) (blanks types : List Char) : List Char :=
  "val".toList ++ (blanks ++ (d.name ++ (types ++ ['='])))

/-- The parts of the header of a declaration. -/
structure Declaration.HasHeader (d : Declaration) (blanks types : List Char) : Prop where
  blanks_ne : blanks ≠ []
  blank : ∀ c ∈ blanks, isBlank c = true
  nameAfter : d.nameAfter = 3 + byteSize blanks
  name : isIdentifier d.name = true
  annotated : ∀ c ∈ types, isBlank c = true ∨ c = ':' ∨ isTypePart c = true

/-- What may stand between a name with blanks behind it and the equals sign: nothing, or a colon and
a type name, with blanks around the type name. -/
def IsTyping (xs : List Char) : Prop :=
  xs = [] ∨ ∃ front type back, xs = ':' :: (front ++ (type ++ back)) ∧
    (∀ c ∈ front, isBlank c = true) ∧ type ≠ [] ∧ (∀ c ∈ type, isTypePart c = true) ∧
    ∀ c ∈ back, isBlank c = true

section Headers

variable {before : Option Char} {cs rest blanks types : List Char} {d : Declaration}

/-- What is skipped as a type annotation. -/
theorem exists_typing_of_skipType? (h : skipType? cs = some rest) :
    ∃ typing, cs = typing ++ rest ∧ IsTyping typing := by
  unfold skipType? at h
  split at h
  · rename_i behind
    split at h
    · rename_i c ds hread
      split at h
      · rename_i hstart
        obtain rfl := Option.some.inj h
        obtain ⟨⟨front, hfront, hbehind⟩, -⟩ := trimStart_eq_iff.mp hread
        obtain ⟨⟨back, hback, hrest⟩, -⟩ :=
          trimStart_eq_iff.mp (rfl : trimStart (ds.dropWhile isTypePart) = _)
        have hword : isTypePart c = true := by
          have hpart := isIdentifierPart_of_isIdentifierStart hstart
          simp [isTypePart, isWord_of_isIdentifierPart hpart]
        refine ⟨':' :: (front ++ (c :: ds.takeWhile isTypePart ++ back)), ?_, Or.inr
          ⟨front, c :: ds.takeWhile isTypePart, back, rfl, hfront, by simp, ?_, hback⟩⟩
        · rw [hbehind, List.cons_append, List.append_assoc, List.append_assoc, List.cons_append,
            ← hrest, List.takeWhile_append_dropWhile]
        · intro d hd
          rcases List.mem_cons.mp hd with rfl | hd
          · exact hword
          · exact List.mem_takeWhile_imp hd
      · cases h
    · cases h
  · obtain rfl := Option.some.inj h
    exact ⟨[], rfl, Or.inl rfl⟩

/-- The characters of a type annotation. -/
theorem IsTyping.annotated {typing : List Char} (h : IsTyping typing) :
    ∀ c ∈ typing, isBlank c = true ∨ c = ':' ∨ isTypePart c = true := by
  obtain rfl | ⟨front, type, back, rfl, hfront, -, htype, hback⟩ := h
  · simp
  · simp only [List.mem_cons, List.mem_append]
    rintro c (rfl | hc | hc | hc)
    · exact Or.inr (Or.inl rfl)
    · exact Or.inl (hfront c hc)
    · exact Or.inr (Or.inr (htype c hc))
    · exact Or.inl (hback c hc)

/-- **A declaration is a header and an initializer**, and behind its name stand blanks and perhaps a
type annotation. -/
theorem exists_parts_of_declaration (h : declaration before cs = some (d, rest)) :
    ∃ blanks gap typing tail, (∀ c ∈ gap, isBlank c = true) ∧ IsTyping typing ∧
      d.HasHeader blanks (gap ++ typing) ∧ cs = d.header blanks (gap ++ typing) ++ tail ∧
      initializer? ('=' :: tail) = some (d.value, rest) := by
  unfold declaration at h
  split at h
  · obtain ⟨behind, hbehind, hread⟩ := Option.bind_eq_some_iff.mp h
    obtain rfl := List.isPrefixOf?_eq_some_iff_append_eq.mp hbehind
    dsimp only at hread
    split at hread
    · cases hread
    · rename_i hblanks
      obtain ⟨⟨name, typed⟩, hname, hread⟩ := Option.bind_eq_some_iff.mp hread
      obtain ⟨value, hvalue, hread⟩ := Option.bind_eq_some_iff.mp hread
      obtain ⟨⟨literal, after⟩, hliteral, heq⟩ := Option.map_eq_some_iff.mp hread
      cases heq
      obtain ⟨hsplit, hidentifier, -⟩ := identifier?_eq_some_iff.mp hname
      obtain ⟨⟨gap, hgap, htyped⟩, -⟩ := trimStart_eq_iff.mp (rfl : trimStart typed = _)
      obtain ⟨typing, hparts, htyping⟩ := exists_typing_of_skipType? hvalue
      obtain ⟨tail, rfl⟩ : ∃ tail, value = '=' :: tail := by
        unfold initializer? at hliteral
        split at hliteral
        · exact ⟨_, rfl⟩
        · cases hliteral
      refine ⟨behind.takeWhile isBlank, gap, typing, tail, hgap, htyping,
        ⟨by simpa using hblanks, fun c hc => List.mem_takeWhile_imp hc, rfl, hidentifier, ?_⟩, ?_,
        hliteral⟩
      · intro c hc
        exact (List.mem_append.mp hc).elim (fun hc => Or.inl (hgap c hc)) (htyping.annotated c)
      · have hrest : behind = behind.takeWhile isBlank ++ (name ++ typed) := by
          rw [← hsplit]
          exact List.takeWhile_append_dropWhile.symm
        rw [Declaration.header, List.append_assoc]
        nth_rewrite 1 [hrest]
        rw [htyped, hparts]
        simp
  · cases h

/-- A declaration is a header and an initializer. -/
theorem exists_header_of_declaration (h : declaration before cs = some (d, rest)) :
    ∃ blanks types tail, d.HasHeader blanks types ∧
      cs = d.header blanks types ++ tail ∧ initializer? ('=' :: tail) = some (d.value, rest) := by
  obtain ⟨blanks, gap, typing, tail, -, -, hparts⟩ := exists_parts_of_declaration h
  exact ⟨blanks, gap ++ typing, tail, hparts⟩

/-- From the name on, a header holds no quotes and no slashes. -/
theorem Declaration.HasHeader.unquoted_name (h : d.HasHeader blanks types) :
    Unquoted (d.name ++ (types ++ ['='])) := by
  have hmarks : (['"', '\'', '/'].all fun c => isIdentifierPart c = false ∧ isBlank c = false ∧
      isTypePart c = false ∧ c ≠ ':' ∧ c ≠ '=') = true := by decide
  refine unquoted_iff.mpr fun c hc => ?_
  obtain ⟨hname, hblank, htype, hcolon, hequals⟩ :=
    of_decide_eq_true (List.all_eq_true.mp hmarks c hc)
  have htypes : c ∉ types := by
    intro hmem
    rcases h.annotated c hmem with hmem | hmem | hmem
    · exact absurd hmem (by simp [hblank])
    · exact hcolon hmem
    · exact absurd hmem (by simp [htype])
  simp only [List.mem_append, List.mem_singleton, not_or]
  exact ⟨not_mem_identifier hname h.name, htypes, hequals⟩

/-- In front of the name it holds none either. -/
theorem Declaration.HasHeader.unquoted_keyword (h : d.HasHeader blanks types) :
    Unquoted ("val".toList ++ blanks) := by
  have hmarks : (['"', '\'', '/'].all fun c => c ∉ "val".toList ∧ isBlank c = false) = true := by
    decide
  refine unquoted_iff.mpr fun c hc hmem => ?_
  obtain ⟨hkeyword, hblank⟩ := of_decide_eq_true (List.all_eq_true.mp hmarks c hc)
  rcases List.mem_append.mp hmem with hmem | hmem
  · exact hkeyword hmem
  · exact absurd (h.blank c hmem) (by simp [hblank])

theorem Declaration.HasHeader.byteSize_keyword (h : d.HasHeader blanks types) :
    byteSize ("val".toList ++ blanks) = d.nameAfter := by
  rw [byteSize_append, h.nameAfter]
  rfl

end Headers

/-! ### Literals and initializers -/

/-- The inside of a literal that ends on its line: characters other than a quote, a backslash and a
newline, and backslashes, each with a character that is no newline. -/
inductive IsBody : List Char → Prop where
  | nil : IsBody []
  | char {c : Char} {cs : List Char} (hquote : c ≠ '"') (hescape : c ≠ '\\') (hnewline : c ≠ '\n')
      (hcs : IsBody cs) : IsBody (c :: cs)
  | escape {c : Char} {cs : List Char} (hnewline : c ≠ '\n') (hcs : IsBody cs) :
      IsBody ('\\' :: c :: cs)

section Literals

variable {cs body value tail rest : List Char}

theorem IsBody.not_mem_newline (h : IsBody body) : '\n' ∉ body := by
  induction h with
  | nil => simp
  | char _ _ hnewline _ ih => simp [hnewline.symm, ih]
  | escape hnewline _ ih => simp [hnewline.symm, ih]

theorem literalBody?_append (h : IsBody body) (rest : List Char) :
    literalBody? (body ++ '"' :: rest) = some (body, rest) := by
  induction h with
  | nil => cases rest <;> rfl
  | @char c cs hquote hescape hnewline _ ih =>
    obtain ⟨d, ds, hds⟩ := List.exists_cons_of_ne_nil (l := cs ++ '"' :: rest) (by simp)
    rw [hds] at ih
    simp [hds, literalBody?, hquote, hescape, hnewline, ih]
  | escape hnewline _ ih => simp [literalBody?, hnewline, ih]

/-- **The reader of literals** takes the text up to the first quote that no backslash takes along,
if that stands on the same line. -/
theorem literalBody?_eq_some_iff :
    literalBody? cs = some (body, rest) ↔ IsBody body ∧ cs = body ++ '"' :: rest := by
  constructor
  · intro h
    fun_induction literalBody? cs generalizing body rest with
    | case1 => cases h
    | case2 =>
      cases h
      exact ⟨.nil, rfl⟩
    | case3 => cases h
    | case4 =>
      cases h
      exact ⟨.nil, rfl⟩
    | case5 => cases h
    | case6 => cases h
    | case7 d cs hnewline _ _ ih =>
      obtain ⟨⟨body', rest'⟩, hrest, heq⟩ := Option.map_eq_some_iff.mp h
      cases heq
      obtain ⟨hbody, rfl⟩ := ih hrest
      exact ⟨.escape hnewline hbody, rfl⟩
    | case8 c d cs hquote hnewline hescape ih =>
      obtain ⟨⟨body', rest'⟩, hrest, heq⟩ := Option.map_eq_some_iff.mp h
      cases heq
      obtain ⟨hbody, hcs⟩ := ih hrest
      exact ⟨.char hquote hescape hnewline hbody, by rw [hcs, List.cons_append]⟩
  · rintro ⟨hbody, rfl⟩
    exact literalBody?_append hbody rest

/-- What is skipped at the end of a line. -/
theorem exists_line_of_lineEnd? (h : lineEnd? cs = some rest) :
    ∃ line, cs = line ++ rest ∧ '\n' ∉ line := by
  unfold lineEnd? at h
  split at h
  · cases h
    exact ⟨[], rfl, by simp⟩
  · cases h
    exact ⟨[], rfl, by simp⟩
  · cases h
    exact ⟨['\r'], rfl, by decide⟩
  · cases h
    exact ⟨['\r'], rfl, by decide⟩
  · cases h

/-- What is skipped behind a literal. -/
theorem exists_line_of_skipLineRest? (h : skipLineRest? cs = some rest) :
    ∃ line, cs = line ++ rest ∧ '\n' ∉ line := by
  obtain ⟨blanks, hblanks, hcs⟩ : ∃ blanks, '\n' ∉ blanks ∧
      cs = blanks ++ cs.dropWhile fun c => c == ' ' || c == '\t' :=
    ⟨cs.takeWhile fun c => c == ' ' || c == '\t',
      fun hmem => absurd (List.mem_takeWhile_imp hmem) (by decide),
      List.takeWhile_append_dropWhile.symm⟩
  unfold skipLineRest? at h
  split at h
  · rename_i behind hbehind
    obtain ⟨line, rfl, hline⟩ := exists_line_of_lineEnd? h
    rw [hbehind] at hcs
    exact ⟨blanks ++ ';' :: line, by simp [hcs], by simp [hblanks, hline]⟩
  · rename_i behind hbehind
    cases h
    have hcomment : '\n' ∉ behind.takeWhile (· != '\n') :=
      fun hmem => absurd (List.mem_takeWhile_imp hmem) (by decide)
    rw [hbehind] at hcs
    exact ⟨blanks ++ '/' :: '/' :: behind.takeWhile (· != '\n'), by simp [hcs],
      by simp [hblanks, hcomment]⟩
  · obtain ⟨line, hbehind, hline⟩ := exists_line_of_lineEnd? h
    rw [hbehind] at hcs
    exact ⟨blanks ++ line, by simp [hcs], by simp [hblanks, hline]⟩

/-- **The parts of an initializer**: blanks, the literal, and what follows the literal on its
line. -/
theorem exists_parts_of_initializer? (h : initializer? ('=' :: tail) = some (value, rest)) :
    ∃ space line, (∀ c ∈ space, isBlank c = true) ∧ IsBody value ∧ '\n' ∉ line ∧
      tail = space ++ '"' :: (value ++ '"' :: (line ++ rest)) := by
  simp only [initializer?] at h
  split at h
  · rename_i literal hliteral
    obtain ⟨⟨body, behind⟩, hbody, hrest⟩ := Option.bind_eq_some_iff.mp h
    obtain ⟨_, hbehind, heq⟩ := Option.map_eq_some_iff.mp hrest
    cases heq
    obtain ⟨⟨space, hspace, rfl⟩, -⟩ := trimStart_eq_iff.mp hliteral
    obtain ⟨hvalue, rfl⟩ := literalBody?_eq_some_iff.mp hbody
    obtain ⟨line, rfl, hline⟩ := exists_line_of_skipLineRest? hbehind
    exact ⟨space, line, hspace, hvalue, hline, rfl⟩
  · cases h

end Literals

/-! ### Bindings -/

/-- **A name has the value of the last declaration of it.** -/
theorem Table.get?_ofSource_eq_some_iff {text : List Char} {name value : String} :
    (Table.ofSource text).get? name = some value ↔
      ∃ earlier o later, declarations text = earlier ++ o :: later ∧
        String.ofList o.value.name = name ∧ String.ofList o.value.value = value ∧
        ∀ o' ∈ later, String.ofList o'.value.name ≠ name := by
  have hinsert : ∀ (t : Table) (o : Occurrence Declaration),
      (t.insert (String.ofList o.value.name) (String.ofList o.value.value)).get? name =
        (if String.ofList o.value.name = name then some (String.ofList o.value.value)
          else none).or (t.get? name) := by
    intro t o
    rw [Table.get?_insert]
    by_cases hname : String.ofList o.value.name = name
    · rw [if_pos hname, if_pos hname.symm, Option.some_or]
    · rw [if_neg hname, if_neg (Ne.symm hname), Option.none_or]
  rw [Table.ofSource, read_foldl (fun t : Table => t.get? name) hinsert,
    show Table.empty.get? name = none from rfl, Option.or_none, List.getLast?_filterMap,
    List.findSome?_eq_some_iff]
  simp only [Option.ite_none_right_eq_some, ite_eq_right_iff, reduceCtorEq, imp_false,
    Option.some.injEq]
  constructor
  · rintro ⟨later, o, earlier, hsplit, ⟨hname, hvalue⟩, hlater⟩
    refine ⟨earlier.reverse, o, later.reverse, ?_, hname, hvalue, fun o' ho' => ?_⟩
    · simpa using List.reverse_eq_append_iff.mp hsplit
    · exact hlater o' (List.mem_reverse.mp ho')
  · rintro ⟨earlier, o, later, hsplit, hname, hvalue, hlater⟩
    refine ⟨later.reverse, o, earlier.reverse, ?_, ⟨hname, hvalue⟩, fun o' ho' => ?_⟩
    · simp [hsplit]
    · exact hlater o' (List.mem_reverse.mp ho')

/-- The header of a match is code, all of it. -/
def Live (text : List Char) (o : Occurrence Declaration) (blanks types : List Char) : Prop :=
  ∀ j < byteSize (o.value.header blanks types),
    (Coverage.ofBytes (encode text)).isCode (o.start + j) = true

/-- The keyword of a match stands at the end of a line comment: a newline among the blanks ends the
comment, and the header is code from there on. -/
def Stray (text : List Char) (o : Occurrence Declaration) (blanks types : List Char) : Prop :=
  ∃ a b, blanks = a ++ '\n' :: b ∧
    (∀ j ≤ 3 + byteSize a, CommentAt (encode text) (o.start + j)) ∧
    ∀ j, 3 + byteSize a < j → j < byteSize (o.value.header blanks types) →
      (Coverage.ofBytes (encode text)).isCode (o.start + j) = true

section Matches

variable {text blanks types : List Char} {o : Occurrence Declaration}

/-- Each match has a header, spelled where the match starts. -/
theorem exists_header_of_mem_occurrences (ho : o ∈ occurrences declaration text 0) :
    ∃ blanks types, o.value.HasHeader blanks types ∧
      SpelledAt text o.start (o.value.header blanks types) := by
  obtain ⟨pre, post, rest, rfl, -, hread, hstart, -⟩ := exists_match_of_mem_occurrencesFrom ho
  obtain ⟨blanks, types, tail, hheader, rfl, -⟩ := exists_header_of_declaration hread
  exact ⟨blanks, types, hheader, pre, tail, rfl, by rw [hstart, Nat.zero_add]⟩

theorem not_live_and_stray :
    ¬ (Live text o blanks types ∧ Stray text o blanks types) := by
  rintro ⟨hlive, a, b, -, hcomment, -⟩
  have hpos : 0 < byteSize (o.value.header blanks types) :=
    byteSize_pos (by simp [Declaration.header])
  exact not_commentAt_of_isCode (hlive 0 hpos) (hcomment 0 (Nat.zero_le _))

/-- A newline behind the keyword is one of the blanks. -/
theorem exists_blanks_of_newline {front b : List Char}
    (h : "val".toList ++ blanks = front ++ '\n' :: b) :
    ∃ a, front = "val".toList ++ a ∧ blanks = a ++ '\n' :: b := by
  rcases List.append_eq_append_iff.mp h with ⟨a, hfront, hblanks⟩ | ⟨a, hkeyword, hrest⟩
  · exact ⟨a, hfront, hblanks⟩
  · cases a with
    | nil => exact ⟨[], by simpa using hkeyword.symm, by simpa using hrest.symm⟩
    | cons c a =>
      obtain ⟨rfl, -⟩ := List.cons.inj hrest
      have hmem : '\n' ∈ "val".toList := by
        rw [hkeyword]
        simp
      exact absurd hmem (by decide)

/-- **A match whose name stands in code** is live or stray, and no other match is. -/
theorem isCode_name_iff (hheader : o.value.HasHeader blanks types)
    (hspelled : SpelledAt text o.start (o.value.header blanks types)) :
    (Coverage.ofBytes (encode text)).isCode (o.start + o.value.nameAfter) = true ↔
      Live text o blanks types ∨ Stray text o blanks types := by
  have hsize := hheader.byteSize_keyword
  have hparts : o.value.header blanks types =
      ("val".toList ++ blanks) ++ (o.value.name ++ (types ++ ['='])) := by
    rw [Declaration.header, List.append_assoc]
  have hlength : byteSize (o.value.header blanks types) =
      o.value.nameAfter + byteSize (o.value.name ++ (types ++ ['='])) := by
    rw [hparts, byteSize_append, hsize]
  have hpos : 0 < byteSize (o.value.name ++ (types ++ ['='])) := byteSize_pos (by simp)
  constructor
  · intro hcode
    obtain ⟨hkeyword, hname⟩ := spelledAt_append_iff.mp (hparts ▸ hspelled)
    rw [hsize] at hname
    have hbehind : ∀ j, o.value.nameAfter ≤ j → j < byteSize (o.value.header blanks types) →
        (Coverage.ofBytes (encode text)).isCode (o.start + j) = true := by
      intro j hlow hhigh
      have hat := isCode_of_spelledAt hname hheader.unquoted_name hcode
        (j := j - o.value.nameAfter) (by omega)
      rwa [Nat.add_assoc, Nat.add_sub_cancel' hlow] at hat
    have hcases := code_or_lineComment hkeyword hheader.unquoted_keyword
      (hsize ▸ spelledAt_lt hname (by simp)) (hsize ▸ hcode)
    rw [hsize] at hcases
    rcases hcases with hfront | ⟨front, b, hnewline, hcomment, hfront⟩
    · refine Or.inl fun j hj => ?_
      rcases Nat.lt_or_ge j o.value.nameAfter with hlt | hge
      · exact hfront j hlt
      · exact hbehind j hge hj
    · obtain ⟨a, rfl, hblanks⟩ := exists_blanks_of_newline hnewline
      have hfrontSize : byteSize ("val".toList ++ a) = 3 + byteSize a := byteSize_append _ _
      rw [hfrontSize] at hcomment hfront
      refine Or.inr ⟨a, b, hblanks, hcomment, fun j hlow hhigh => ?_⟩
      rcases Nat.lt_or_ge j o.value.nameAfter with hlt | hge
      · exact hfront j hlow hlt
      · exact hbehind j hge hhigh
  · rintro (hlive | ⟨a, b, rfl, -, hcode⟩)
    · exact hlive _ (by omega)
    · refine hcode _ ?_ (by omega)
      rw [hheader.nameAfter, byteSize_append]
      have hnewline : 0 < byteSize ('\n' :: b) := byteSize_pos (by simp)
      omega

end Matches

/-- **The bindings of a table come from live declarations and from stray ones.** A match of the
pattern is a declaration exactly if its header is code from the keyword to the equals sign, or if
its keyword ends a line comment and a newline among the blanks behind it ends the comment; never
both. A name is bound to the value of the last declaration of it. -/
theorem bindings_live_or_stray (text : List Char) :
    (∀ o ∈ occurrences declaration text 0, ∃ blanks types,
      o.value.HasHeader blanks types ∧
      SpelledAt text o.start (o.value.header blanks types) ∧
      (o ∈ declarations text ↔ Live text o blanks types ∨ Stray text o blanks types) ∧
      ¬ (Live text o blanks types ∧ Stray text o blanks types)) ∧
    ∀ name value, (Table.ofSource text).get? name = some value ↔
      ∃ earlier o later, declarations text = earlier ++ o :: later ∧
        String.ofList o.value.name = name ∧ String.ofList o.value.value = value ∧
        ∀ o' ∈ later, String.ofList o'.value.name ≠ name := by
  refine ⟨fun o ho => ?_, fun name value => Table.get?_ofSource_eq_some_iff⟩
  obtain ⟨blanks, types, hheader, hspelled⟩ := exists_header_of_mem_occurrences ho
  refine ⟨blanks, types, hheader, hspelled, ?_, not_live_and_stray⟩
  rw [← isCode_name_iff hheader hspelled, declarations, List.mem_filter, and_iff_right ho]

/-- The last word of a comment and the assignment on the next line. -/
theorem bindings_live_or_stray_comment :
    (Table.ofSource "// val\nprefix = \"x\"".toList).get? "prefix" = some "x" ∧
      ∃ o ∈ declarations "// val\nprefix = \"x\"".toList, ∃ blanks types,
        o.value.HasHeader blanks types ∧
          Stray "// val\nprefix = \"x\"".toList o blanks types := by
  have hbound : (Table.ofSource "// val\nprefix = \"x\"".toList).get? "prefix" = some "x" := by
    decide +kernel
  obtain ⟨hmatches, hbindings⟩ := bindings_live_or_stray "// val\nprefix = \"x\"".toList
  obtain ⟨earlier, o, later, hsplit, -⟩ := (hbindings "prefix" "x").mp hbound
  have ho : o ∈ declarations "// val\nprefix = \"x\"".toList := by
    rw [hsplit]
    simp
  have hstart : ∀ o ∈ declarations "// val\nprefix = \"x\"".toList, o.start = 3 := by decide +kernel
  obtain ⟨blanks, types, hheader, -, hdeclared, -⟩ := hmatches o (List.mem_filter.mp ho).1
  refine ⟨hbound, o, ho, blanks, types, hheader, (hdeclared.mp ho).resolve_left fun hlive => ?_⟩
  have hcode := hlive 0 (byteSize_pos (by simp [Declaration.header]))
  rw [hstart o ho] at hcode
  exact absurd hcode (by decide +kernel)

end Telemetry.Symbol
