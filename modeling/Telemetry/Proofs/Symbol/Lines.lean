import Telemetry.Proofs.Source.Lines
import Telemetry.Proofs.Symbol.Declarations

/-!
A declaration on a line of its own is found, whatever stands in front of it.

The blanks of the pattern may hold newlines, so a declaration that earlier lines leave unfinished
may run into the line. It cannot get past the equals sign of the line, in front of which stand a
keyword and a name and no colon; and once its literal has begun it stays on one line.

* `eq_nil_of_header_eq` — a header that reaches the equals sign of a line starts with the line's own
  keyword.
* `length_le_of_declaration` — so a declaration that starts in front of the keyword ends there too.
* `get?_ofSource_declarationLine` — the name of a line in code is bound to the literal of the line,
  if the name is not mentioned behind it.
-/

namespace Telemetry.Symbol

open Telemetry.Text Telemetry.Source

/-- The visibility in front of a declaration, which may be left out. -/
def visibilities : List String := ["", "private ", "public ", "internal ", "protected "]

/-- The word for constants in front of a declaration, which may be left out. -/
def constancies : List String := ["", "const "]

/-- What stands in front of the keyword of a line. -/
def leadingWords (indent : List Char) (visibility constancy : String) : List Char :=
  indent ++ (visibility.toList ++ constancy.toList)

/-- A declaration from its keyword to the quote of its literal. -/
def assignment (name : List Char) : List Char :=
  "val ".toList ++ (name ++ " = ".toList)

/-- A declaration from its keyword to its end. -/
def assigned (name body : List Char) : List Char :=
  assignment name ++ '"' :: (body ++ ['"'])

/-- The line of a declaration. -/
def declarationLine (indent : List Char) (visibility constancy : String) (name body : List Char) :
    List Char :=
  leadingWords indent visibility constancy ++ assigned name body

/-! ### Declarations that start in front of a line -/

section Earlier

variable {before : Option Char} {front name tail rest blanks gap typing space : List Char}
  {d : Declaration}

theorem isTypePart_of_isBlank {c : Char} (h : isBlank c = true) : isTypePart c = false := by
  have hmarks : (['.', '<', '>', '?'].all fun d => isBlank d = false) = true := by decide
  have hne : ∀ d ∈ ['.', '<', '>', '?'], (c == d) = false := by
    intro d hd
    refine beq_eq_false_iff_ne.mpr ?_
    rintro rfl
    rw [of_decide_eq_true (List.all_eq_true.mp hmarks c hd)] at h
    cases h
  simp [isTypePart, isWord_of_isBlank h, hne]

/-- **A header that ends with the equals sign of a line is the line's own.** Going back from the
sign, the name of the line is the name or the type of the header; the keyword in front of it makes
it the name, and the keyword of the header is that keyword. -/
theorem eq_nil_of_header_eq (hheader : d.HasHeader blanks (gap ++ typing))
    (hgap : ∀ c ∈ gap, isBlank c = true) (htyping : IsTyping typing)
    (hspace : ∀ c ∈ space, isBlank c = true) (hname : isIdentifier name = true)
    (h : d.header blanks (gap ++ typing) ++ space = front ++ assignment name) : front = [] := by
  have hone : ∀ c ∈ [' '], isBlank c = true := List.all_eq_true.mp rfl
  have hkeyword : ∀ u : List Char, ∀ c ∈ (u ++ "val".toList).getLast?, isBlank c = false :=
    getLast?_append_eq_false (by simp) (forall_mem_eq_false rfl)
  -- the blanks behind the equals sign, then the sign
  have hsign : ("val".toList ++ blanks ++ d.name ++ gap ++ typing ++ ['=']) ++ space =
      (front ++ "val".toList ++ [' '] ++ name ++ [' '] ++ ['=']) ++ [' '] := by
    rw [Declaration.header, assignment] at h
    simp only [List.append_assoc] at h ⊢
    exact h
  obtain ⟨hsign, -⟩ := run_unique_back hspace (getLast?_concat_eq_false rfl _) hone
    (getLast?_concat_eq_false rfl _) hsign
  have hfront := List.append_cancel_right hsign
  obtain rfl | ⟨inner, type, back, rfl, hinner, htypeNe, htype, hback⟩ := htyping
  · have hwords : ("val".toList ++ blanks) ++ (d.name ++ gap) =
        (front ++ "val".toList ++ [' ']) ++ (name ++ [' ']) := by simpa using hfront
    obtain ⟨hblanks, -, -⟩ := word_unique isIdentifierPart_of_isBlank
      (getLast?_append_eq_false hheader.blanks_ne
        (fun c hc => isIdentifierPart_of_isBlank (hheader.blank c hc)) _)
      (getLast?_concat_eq_false rfl _)
      (run_of_isIdentifier hheader.name) (run_of_isIdentifier hname) hgap hone hwords
    obtain ⟨hval, -⟩ := run_unique_back hheader.blank (hkeyword []) hone (hkeyword front) hblanks
    simpa using congrArg List.length hval
  · -- a colon would stand where the keyword of the line stands
    have hcolon : ∀ c ∈ ':' :: inner, isTypePart c = false := by
      intro c hc
      rcases List.mem_cons.mp hc with rfl | hc
      · rfl
      · exact isTypePart_of_isBlank (hinner c hc)
    have hpart : ∀ c ∈ name, isTypePart c = true := fun c hc => by
      simp [isTypePart, isWord_of_isIdentifierPart (isIdentifierPart_of_mem hname hc)]
    have hwords : ("val".toList ++ blanks ++ d.name ++ gap ++ (':' :: inner)) ++ (type ++ back) =
        (front ++ "val".toList ++ [' ']) ++ (name ++ [' ']) := by simpa using hfront
    obtain ⟨hblanks, -, -⟩ := word_unique isTypePart_of_isBlank
      (getLast?_append_eq_false (by simp) hcolon _) (getLast?_concat_eq_false rfl _)
      ⟨htypeNe, htype⟩ ⟨ne_nil_of_isIdentifier hname, hpart⟩ hback hone hwords
    rw [← List.singleton_append, ← List.append_assoc] at hblanks
    obtain ⟨hval, -⟩ := run_unique_back hinner (getLast?_concat_eq_false rfl _) hone
      (hkeyword front) hblanks
    have hlast := congrArg List.getLast? hval
    rw [List.getLast?_append, @List.getLast?_append _ front] at hlast
    cases hlast

/-- The first mark of a text stands in front of a phrase without marks, or is the one behind it. -/
theorem first_mark {c : Char} {mid header behind : List Char} (hmid : c ∉ mid)
    (hheader : c ∉ header) (h : front ++ (mid ++ c :: tail) = header ++ c :: behind) :
    header = front ++ mid ∨ ∃ v, front = header ++ c :: v ∧ behind = v ++ (mid ++ c :: tail) := by
  by_cases hmem : c ∈ front
  · obtain ⟨u, v, rfl, hu⟩ := List.eq_append_cons_of_mem hmem
    rw [List.append_assoc, List.cons_append] at h
    obtain ⟨rfl, hbehind⟩ := first_unique hu hheader h
    exact Or.inr ⟨v, rfl, hbehind.symm⟩
  · rw [← List.append_assoc] at h
    exact Or.inl (first_unique (by simp [hmem, hmid]) hheader h).1.symm

theorem quote_not_mem_assignment (hname : isIdentifier name = true) : '"' ∉ assignment name := by
  have hquote := not_mem_identifier (c := '"') (by decide) hname
  simp [assignment, hquote]

theorem Declaration.HasHeader.quote_not_mem {types : List Char} (h : d.HasHeader blanks types) :
    '"' ∉ d.header blanks types := by
  have hname := unquoted_iff.mp h.unquoted_name '"' (by simp)
  have hkeyword := unquoted_iff.mp h.unquoted_keyword '"' (by simp)
  rw [Declaration.header, ← List.append_assoc, List.mem_append]
  exact fun hmem => hmem.elim hkeyword hname

/-- **A declaration that starts in front of the keyword of a line ends in front of it too**, if
every quote in front of the keyword stands on an earlier line. -/
theorem length_le_of_declaration (hname : isIdentifier name = true) (hfront : front ≠ [])
    (hlines : ∀ u v, front = u ++ '"' :: v → '\n' ∈ v)
    (h : declaration before (front ++ (assignment name ++ '"' :: tail)) = some (d, rest)) :
    (assignment name ++ '"' :: tail).length ≤ rest.length := by
  obtain ⟨blanks, gap, typing, behind, hgap, htyping, hheader, htext, hread⟩ :=
    exists_parts_of_declaration h
  obtain ⟨space, line, hspace, hvalue, hline, rfl⟩ := exists_parts_of_initializer? hread
  have hquote : '"' ∉ d.header blanks (gap ++ typing) ++ space := by
    intro hmem
    rcases List.mem_append.mp hmem with hmem | hmem
    · exact hheader.quote_not_mem hmem
    · exact absurd (hspace _ hmem) (by decide)
  rw [← List.append_assoc (d.header blanks (gap ++ typing))] at htext
  rcases first_mark (quote_not_mem_assignment hname) hquote htext with heq | ⟨v, hv, hrest⟩
  · exact absurd (eq_nil_of_header_eq hheader hgap htyping hspace hname heq) hfront
  · -- the literal opens in front and stays on its line, which ends in front too
    have hnewline := hlines _ v hv
    rw [← List.cons_append, ← List.append_assoc] at hrest
    rcases List.append_eq_append_iff.mp hrest with ⟨z, rfl, hz⟩ | ⟨z, hz, -⟩
    · rw [hz, @List.length_append _ z]
      exact Nat.le_add_left _ _
    · have hmem : '\n' ∈ d.value ++ '"' :: line := by
        rw [hz]
        exact List.mem_append_left z hnewline
      simp [hvalue.not_mem_newline, hline] at hmem

end Earlier

/-! ### Declarations on a line -/

section Line

variable {front indent name body behind : List Char} {visibility constancy : String}

/-- **The reader takes a declaration to the end of its line.** -/
theorem declaration_assigned {before : Option Char} (hbefore : ∀ c ∈ before, isWord c = false)
    (hname : isIdentifier name = true) (hbody : IsBody body) (behind : List Char) :
    declaration before (assigned name body ++ '\n' :: behind) =
      some (⟨4, name, body⟩, '\n' :: behind) := by
  have hstart : before.any isWord = false := by
    cases before with
    | none => rfl
    | some c => exact hbefore c rfl
  have hboundary : isBoundary before (assigned name body ++ '\n' :: behind) = true := by
    rw [isBoundary, hstart]
    rfl
  obtain ⟨value, hvalue⟩ : ∃ value, value = '=' :: ' ' :: '"' :: (body ++ '"' :: '\n' :: behind) :=
    ⟨_, rfl⟩
  have hprefix : "val".toList.isPrefixOf? (assigned name body ++ '\n' :: behind) =
      some ([' '] ++ (name ++ ' ' :: value)) :=
    List.isPrefixOf?_eq_some_iff_append_eq.mpr (by simp [assigned, assignment, hvalue])
  have hstop := head?_append_eq_false (ne_nil_of_isIdentifier hname)
    (isBlank_of_mem_identifier hname) (' ' :: value)
  have htrim : trimStart ([' '] ++ (name ++ ' ' :: value)) = name ++ ' ' :: value :=
    dropWhile_append_stop (List.all_eq_true.mp rfl) hstop
  have hblanks : ([' '] ++ (name ++ ' ' :: value)).takeWhile isBlank = [' '] :=
    takeWhile_append_stop (List.all_eq_true.mp rfl) hstop
  have hidentifier : identifier? (name ++ ' ' :: value) = some (name, ' ' :: value) :=
    identifier?_eq_some_iff.mpr ⟨rfl, hname, by rintro c ⟨⟩; decide⟩
  have htype : skipType? (trimStart (' ' :: value)) = some value := by
    subst hvalue
    rfl
  have hinit : initializer? value = some (body, '\n' :: behind) := by
    have hquote : trimStart (' ' :: '"' :: (body ++ '"' :: '\n' :: behind)) =
        '"' :: (body ++ '"' :: '\n' :: behind) := rfl
    rw [hvalue, initializer?, hquote]
    simp only [literalBody?_append hbody, Option.bind_some]
    rfl
  rw [declaration, if_pos hboundary, hprefix]
  simp only [Option.bind_some, hblanks, htrim, hidentifier, htype, hinit, Option.map_some,
    List.isEmpty_cons, Bool.false_eq_true, if_false]
  rfl

theorem unquoted_leadingWords (hindent : ∀ c ∈ indent, isBlank c = true)
    (hvisibility : visibility ∈ visibilities) (hconstancy : constancy ∈ constancies) :
    Unquoted (leadingWords indent visibility constancy) := by
  have hmarks : (['"', '\'', '/'].all fun c => isBlank c = false ∧
      (∀ v ∈ visibilities, c ∉ v.toList) ∧ ∀ v ∈ constancies, c ∉ v.toList) = true := by decide
  refine unquoted_iff.mpr fun c hc => ?_
  obtain ⟨hblank, hwords, hconst⟩ := of_decide_eq_true (List.all_eq_true.mp hmarks c hc)
  have hindent' : c ∉ indent := fun hmem => absurd (hindent c hmem) (by simp [hblank])
  simp [leadingWords, hindent', hwords visibility hvisibility, hconst constancy hconstancy]

/-- In front of the keyword of a line stands no word character. -/
theorem isWord_getLast?_leadingWords (hfront : front = [] ∨ front.getLast? = some '\n')
    (hindent : ∀ c ∈ indent, isBlank c = true)
    (hvisibility : visibility ∈ visibilities) (hconstancy : constancy ∈ constancies) :
    ∀ c ∈ (front ++ leadingWords indent visibility constancy).getLast?, isWord c = false := by
  have hwords : ∀ v ∈ visibilities ++ constancies, v.toList.getLast?.all (!isWord ·) = true := by
    decide
  have hword : ∀ v ∈ visibilities ++ constancies, ∀ c ∈ v.toList.getLast?, isWord c = false := by
    intro v hv c hc
    have hlast := hwords v hv
    rw [Option.mem_def.mp hc] at hlast
    simpa using hlast
  have happend : ∀ {as bs : List Char}, (∀ c ∈ as.getLast?, isWord c = false) →
      (∀ c ∈ bs.getLast?, isWord c = false) → ∀ c ∈ (as ++ bs).getLast?, isWord c = false := by
    intro as bs has hbs c hc
    rw [List.getLast?_append, Option.mem_def, Option.or_eq_some_iff] at hc
    exact hc.elim (hbs c) fun h => has c h.2
  refine happend ?_ (happend ?_ (happend
    (hword _ (List.mem_append_left _ hvisibility)) (hword _ (List.mem_append_right _ hconstancy))))
  · rcases hfront with rfl | hlast
    · simp
    · rw [hlast]
      rintro c ⟨⟩
      decide
  · exact fun c hc => isWord_of_isBlank (hindent c (List.mem_of_mem_getLast? hc))

/-- Behind a quote in front of the keyword of a line, an earlier line ends. -/
theorem newline_mem_of_quote {words u v : List Char}
    (hfront : front = [] ∨ front.getLast? = some '\n') (hwords : '"' ∉ words)
    (h : front ++ words = u ++ '"' :: v) : '\n' ∈ v := by
  rcases List.append_eq_append_iff.mp h with ⟨m, -, rfl⟩ | ⟨m, rfl, hm⟩
  · simp at hwords
  · cases m with
    | nil =>
      obtain rfl : '"' :: v = words := hm
      simp at hwords
    | cons c m =>
      obtain ⟨rfl, rfl⟩ := List.cons.inj hm
      have hlast : (u ++ '"' :: m).getLast? = some '\n' := hfront.resolve_left (by simp)
      rw [List.getLast?_append, List.getLast?_cons, Option.some_or] at hlast
      rcases List.eq_nil_or_concat m with rfl | ⟨m, d, rfl⟩
      · exact absurd hlast (by decide)
      · simp at hlast
        simp [hlast]

/-- The name of a line behind lines that end in code is code. -/
theorem isCode_assigned {words : List Char} (hfront : front = [] ∨ front.getLast? = some '\n')
    (hmode : Mode.code.after (encode front) = .code) (hwords : Unquoted words)
    (hname : isIdentifier name = true) (behind : List Char) :
    (Coverage.ofBytes (encode (front ++ (words ++ (assigned name body ++ behind))))).isCode
      (byteSize (front ++ words) + 4) = true := by
  have hmarks : (['"', '\'', '/'].all fun c => isIdentifierPart c = false ∧
      c ∉ "val ".toList) = true := by decide
  have hphrase : Unquoted (words ++ ("val ".toList ++ name)) := by
    refine unquoted_iff.mpr fun c hc => ?_
    obtain ⟨hpart, hkeyword⟩ := of_decide_eq_true (List.all_eq_true.mp hmarks c hc)
    simp only [List.mem_append, not_or]
    exact ⟨unquoted_iff.mp hwords c hc, hkeyword, not_mem_identifier hpart hname⟩
  have hsize : byteSize (words ++ ("val ".toList ++ name)) =
      byteSize words + 4 + byteSize name := by
    rw [byteSize_append, byteSize_append, ← Nat.add_assoc]
    rfl
  have hpos := byteSize_pos (ne_nil_of_isIdentifier hname)
  have hcode := @isCode_of_after _ _ (" = ".toList ++ '"' :: (body ++ '"' :: behind))
    hfront hmode hphrase (byteSize words + 4) (by omega)
  have htext : words ++ (assigned name body ++ behind) =
      (words ++ ("val ".toList ++ name)) ++ (" = ".toList ++ '"' :: (body ++ '"' :: behind)) := by
    simp only [assigned, assignment, List.append_assoc, List.cons_append, List.nil_append]
  rwa [htext, byteSize_append, Nat.add_assoc]

/-- **The search finds the declaration of a line**, whose name stands in code. -/
theorem exists_mem_declarations_line {words : List Char}
    (hfront : front = [] ∨ front.getLast? = some '\n')
    (hmode : Mode.code.after (encode front) = .code) (hwords : Unquoted words)
    (hlast : ∀ c ∈ (front ++ words).getLast?, isWord c = false) (hname : isIdentifier name = true)
    (hbody : IsBody body) (behind : List Char) :
    ∃ o ∈ declarations (front ++ (words ++ (assigned name body ++ '\n' :: behind))),
      o.value = ⟨4, name, body⟩ ∧
        o.stop = byteSize (front ++ words) + byteSize (assigned name body) := by
  have hread : declaration ((front ++ words).getLast?.or none)
      (assigned name body ++ '\n' :: behind) = some (⟨4, name, body⟩, '\n' :: behind) := by
    rw [Option.or_none]
    exact declaration_assigned hlast hname hbody behind
  have hclear : ∀ x y d rest, front ++ words = x ++ y → y ≠ [] →
      declaration (x.getLast?.or none) (y ++ (assigned name body ++ '\n' :: behind)) =
        some (d, rest) → (assigned name body ++ '\n' :: behind).length ≤ rest.length := by
    intro x y d rest hsplit hy hmatch
    rw [assigned, List.append_assoc, List.cons_append] at hmatch ⊢
    refine length_le_of_declaration hname hy (fun u v huv => ?_) hmatch
    refine newline_mem_of_quote (u := x ++ u) hfront (unquoted_iff.mp hwords _ (by simp)) ?_
    rw [hsplit, huv, List.append_assoc]
  obtain ⟨o, ho, hvalue, hstart, hstop⟩ := @exists_mem_occurrencesFrom_of_clear _ _ none 0 0 _ _ _ _
    hread (by simp) (Nat.zero_le _) hclear
  rw [Nat.zero_add] at hstart
  refine ⟨o, List.mem_filter.mpr ⟨?_, ?_⟩, hvalue, ?_⟩
  · rwa [List.append_assoc] at ho
  · rw [hvalue, hstart]
    exact isCode_assigned hfront hmode hwords hname _
  · rw [hstop, hstart, List.length_append, Nat.add_sub_cancel, List.take_left]

/-- The name of a declaration behind an offset stands behind it too. -/
theorem name_infix_of_mem_declarations {pre post : List Char} {o : Occurrence Declaration}
    (ho : o ∈ declarations (pre ++ post)) (hstart : byteSize pre ≤ o.start) :
    o.value.name <:+: post := by
  obtain ⟨pre', post', rest, htext, -, hread, hstart', -⟩ :=
    exists_match_of_mem_occurrencesFrom (List.mem_filter.mp ho).1
  obtain ⟨mid, -, rfl⟩ := exists_append_of_byteSize_le htext (by omega)
  obtain ⟨blanks, types, tail, -, rfl, -⟩ := exists_header_of_declaration hread
  refine ⟨mid ++ ("val".toList ++ blanks), types ++ ['='] ++ tail, ?_⟩
  simp [Declaration.header]

theorem declarations_pairwise (text : List Char) :
    (declarations text).Pairwise fun o o' => o.stop ≤ o'.start :=
  (occurrencesFrom_pairwise declaration none 0 0 text).sublist List.filter_sublist

/-- **The table binds the name of a line to its literal**, if the line follows lines that end in
code and the name does not occur behind it. Nothing is asked of the lines in front: they may hold
other declarations of the name, comments and strings, and declarations without an end. -/
theorem get?_ofSource_declarationLine (hfront : front = [] ∨ front.getLast? = some '\n')
    (hmode : Mode.code.after (encode front) = .code)
    (hindent : ∀ c ∈ indent, isBlank c = true) (hvisibility : visibility ∈ visibilities)
    (hconstancy : constancy ∈ constancies) (hname : isIdentifier name = true)
    (hbody : IsBody body) (hbehind : ¬ name <:+: behind) :
    (Table.ofSource (front ++ (declarationLine indent visibility constancy name body ++
      '\n' :: behind))).get? (String.ofList name) = some (String.ofList body) := by
  have hwords := unquoted_leadingWords hindent hvisibility hconstancy
  have hlast := isWord_getLast?_leadingWords hfront hindent hvisibility hconstancy
  obtain ⟨o, ho, hvalue, hstop⟩ :=
    exists_mem_declarations_line hfront hmode hwords hlast hname hbody behind
  rw [declarationLine, List.append_assoc]
  obtain ⟨earlier, later, hsplit⟩ := List.append_of_mem ho
  refine Table.get?_ofSource_eq_some_iff.mpr
    ⟨earlier, o, later, hsplit, by rw [hvalue], by rw [hvalue], fun o' ho' heq => ?_⟩
  -- a later declaration of the name would stand behind the line
  have horder := declarations_pairwise
    (front ++ (leadingWords indent visibility constancy ++ (assigned name body ++ '\n' :: behind)))
  rw [hsplit, List.pairwise_append, List.pairwise_cons] at horder
  have hlater : o.stop ≤ o'.start := horder.2.1.1 o' ho'
  have hmem : o' ∈ declarations
      ((front ++ leadingWords indent visibility constancy ++ assigned name body) ++
        '\n' :: behind) := by
    simp only [List.append_assoc, hsplit]
    simp [ho']
  have hinfix := name_infix_of_mem_declarations hmem (by rwa [byteSize_append, ← hstop])
  rw [String.ofList_inj.mp heq, List.infix_cons_iff] at hinfix
  rcases hinfix with hstart | hinfix
  · obtain ⟨c, cs, rfl⟩ := List.exists_cons_of_ne_nil (ne_nil_of_isIdentifier hname)
    obtain ⟨rfl, -⟩ := List.cons_prefix_cons.mp hstart
    exact not_mem_identifier (by decide) hname List.mem_cons_self
  · exact hbehind hinfix

/-- Behind a comment with a declaration of the name, and behind a declaration without an end. -/
theorem get?_ofSource_declarationLine_unfinished :
    Mode.code.after (encode "/* val p = \"old\" */\nval q:\n".toList) = .code ∧
      (Table.ofSource ("/* val p = \"old\" */\nval q:\n".toList ++
        (declarationLine "  ".toList "private " "const " "p".toList "a\\\"b".toList ++
          '\n' :: "// the end".toList))).get? (String.ofList "p".toList) =
            some (String.ofList "a\\\"b".toList) := by
  have hmode : Mode.code.after (encode "/* val p = \"old\" */\nval q:\n".toList) = .code := by
    decide +kernel
  have hbody : IsBody "a\\\"b".toList :=
    .char (by decide) (by decide) (by decide)
      (.escape (by decide) (.char (by decide) (by decide) (by decide) .nil))
  have hbehind : ¬ "p".toList <:+: "// the end".toList := by decide +kernel
  exact ⟨hmode, get?_ofSource_declarationLine (Or.inr (by decide +kernel)) hmode
    (List.all_eq_true.mp rfl) (by decide) (by decide) (by decide) hbody hbehind⟩

end Line

end Telemetry.Symbol
