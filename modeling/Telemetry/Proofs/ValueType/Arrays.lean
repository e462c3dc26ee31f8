import Telemetry.Proofs.Source.Erasure
import Telemetry.ValueType

/-!
Array constructors and the labels of their elements.

An array constructor is recognised by its head and its last character, while its elements are read
up to the parenthesis that closes the list. Where the two agree, labels are composed from labels.

* `arrayBody?_eq_some_iff` — what is recognised: a head, a parenthesis, and a parenthesis at the
  end.
* `labelOf_array` — the label of an array is made of the labels of its elements, at any depth: an
  element has fewer characters than the array.
* `classify_arrayOf` — so joining self-contained expressions joins their labels.
* `classify_isArray_iff` — an expression that starts with a constructor and goes on behind it is
  labelled as the constructor alone, if it happens to end with a parenthesis.
-/

namespace Telemetry.ValueType

open Telemetry.Text
open Telemetry.Source (arguments closingParenthesis lexemesAt splitTopLevel)

/-! ### The spelling of a constructor -/

/-- What stands in front of the elements of an array constructor: its name and perhaps type
arguments, with blanks between and behind them. -/
def IsHead (head : List Char) : Prop :=
  ∃ blanks types blanks', (∀ c ∈ blanks, isBlank c = true) ∧ (∀ c ∈ blanks', isBlank c = true) ∧
    (types = [] ∨ ∃ inner, '>' ∉ inner ∧ types = '<' :: (inner ++ ['>'])) ∧
    head = "arrayOf".toList ++ (blanks ++ (types ++ blanks'))

theorem isHead_arrayOf : IsHead "arrayOf".toList :=
  ⟨[], [], [], by simp, by simp, Or.inl rfl, by simp⟩

section Spelling

variable {cs head body rest : List Char}

theorem skipTypeArguments?_eq_some_iff :
    skipTypeArguments? cs = some rest ↔
      (∃ inner, '>' ∉ inner ∧ cs = '<' :: (inner ++ '>' :: rest)) ∨
        cs = rest ∧ cs.head? ≠ some '<' := by
  constructor
  · intro h
    unfold skipTypeArguments? at h
    split at h
    · rename_i cs
      split at h
      · rename_i c rest' hdrop
        cases h
        have hc : (c != '>') = false :=
          head?_dropWhile_eq_false (x := c) (by rw [hdrop, List.head?_cons, Option.mem_some])
        obtain rfl : c = '>' := bne_eq_false_iff_eq.mp hc
        obtain ⟨hcs, hinner⟩ := dropWhile_bne_eq_cons_iff.mp ⟨hdrop, rfl⟩
        exact Or.inl ⟨_, hinner, congrArg _ hcs⟩
      · cases h
    · rename_i hangle
      cases h
      refine Or.inr ⟨rfl, fun hhead => ?_⟩
      obtain ⟨cs', rfl⟩ := List.head?_eq_some_iff.mp hhead
      exact hangle cs' rfl
  · rintro (⟨inner, hinner, rfl⟩ | ⟨rfl, hhead⟩)
    · rw [skipTypeArguments?, (dropWhile_bne_eq_cons_iff.mpr ⟨rfl, hinner⟩).1]
    · unfold skipTypeArguments?
      split
      · exact absurd rfl hhead
      · rfl

/-- Blanks in front of a parenthesis are skipped. -/
theorem trimStart_parenthesis {blanks : List Char} (hblanks : ∀ c ∈ blanks, isBlank c = true)
    (list : List Char) : trimStart (blanks ++ '(' :: list) = '(' :: list :=
  trimStart_eq_iff.mpr ⟨⟨blanks, hblanks, rfl⟩, by rintro _ ⟨⟩; rfl⟩

/-- **What is recognised as an array constructor**: a head, a parenthesis behind it, and a
parenthesis at the end. -/
theorem arrayBody?_eq_some_iff :
    arrayBody? cs = some body ↔ ∃ head, IsHead head ∧ cs = head ++ '(' :: (body ++ [')']) := by
  constructor
  · intro h
    obtain ⟨rest, hname, hbehind⟩ := Option.bind_eq_some_iff.mp h
    obtain ⟨rest', htypes, hlist⟩ := Option.bind_eq_some_iff.mp hbehind
    obtain rfl := List.isPrefixOf?_eq_some_iff_append_eq.mp hname
    obtain ⟨⟨blanks, hblanks, hrest⟩, -⟩ := trimStart_eq_iff.mp (rfl : trimStart rest = _)
    obtain ⟨⟨blanks', hblanks', hrest'⟩, -⟩ := trimStart_eq_iff.mp (rfl : trimStart rest' = _)
    split at hlist
    · rename_i list hparenthesis
      split_ifs at hlist with hlast
      obtain rfl := Option.some.inj hlist
      obtain ⟨body, rfl⟩ := List.getLast?_eq_some_iff.mp hlast
      rw [List.dropLast_concat]
      rw [hparenthesis] at hrest'
      rcases skipTypeArguments?_eq_some_iff.mp htypes with ⟨inner, hinner, hangle⟩ | ⟨hangle, -⟩
      · refine ⟨_, ⟨blanks, '<' :: (inner ++ ['>']), blanks', hblanks, hblanks',
          Or.inr ⟨inner, hinner, rfl⟩, rfl⟩, ?_⟩
        rw [hrest, hangle, hrest']
        simp
      · refine ⟨_, ⟨blanks, [], blanks', hblanks, hblanks', Or.inl rfl, rfl⟩, ?_⟩
        rw [hrest, hangle, hrest']
        simp
    · cases hlist
  · rintro ⟨head, ⟨blanks, types, blanks', hblanks, hblanks', htypes, rfl⟩, rfl⟩
    have hskip : ∃ rest', skipTypeArguments? (trimStart (blanks ++ (types ++ (blanks' ++
        '(' :: (body ++ [')']))))) = some rest' ∧ trimStart rest' = '(' :: (body ++ [')']) := by
      rcases htypes with rfl | ⟨inner, hinner, rfl⟩
      · have hboth : ∀ c ∈ blanks ++ blanks', isBlank c = true :=
          fun c hc => (List.mem_append.mp hc).elim (hblanks c) (hblanks' c)
        rw [List.nil_append, ← List.append_assoc, trimStart_parenthesis hboth]
        exact ⟨_, skipTypeArguments?_eq_some_iff.mpr (Or.inr ⟨rfl, by simp⟩),
          @trimStart_parenthesis [] (by simp) _⟩
      · refine ⟨blanks' ++ '(' :: (body ++ [')']), skipTypeArguments?_eq_some_iff.mpr
          (Or.inl ⟨inner, hinner, ?_⟩), trimStart_parenthesis hblanks' _⟩
        exact trimStart_eq_iff.mpr ⟨⟨blanks, hblanks, by simp⟩, by rintro _ ⟨⟩; rfl⟩
    obtain ⟨rest', htypes, hlist⟩ := hskip
    have hname : "arrayOf".toList.isPrefixOf? ("arrayOf".toList ++ (blanks ++ (types ++ blanks')) ++
        '(' :: (body ++ [')'])) = some (blanks ++ (types ++ (blanks' ++ '(' :: (body ++ [')'])))) :=
      List.isPrefixOf?_eq_some_iff_append_eq.mpr (by simp only [List.append_assoc])
    rw [arrayBody?, hname, Option.bind_some, htypes, Option.bind_some, hlist]
    simp

/-- The head of a constructor and the text between its parentheses are determined. -/
theorem constructor_unique {head' body' : List Char} (hhead : IsHead head) (hhead' : IsHead head')
    (h : head ++ '(' :: (body ++ [')']) = head' ++ '(' :: (body' ++ [')'])) :
    head = head' ∧ body = body' := by
  have hbody : arrayBody? (head ++ '(' :: (body ++ [')'])) = some body :=
    arrayBody?_eq_some_iff.mpr ⟨head, hhead, rfl⟩
  have hbody' := arrayBody?_eq_some_iff.mpr ⟨head', hhead', h⟩
  obtain rfl : body = body' := Option.some.inj (hbody.symm.trans hbody')
  exact ⟨List.append_cancel_right h, rfl⟩

/-- There are no blanks around a constructor. -/
theorem trim_constructor (hhead : IsHead head) :
    trim (head ++ '(' :: (body ++ [')'])) = head ++ '(' :: (body ++ [')']) := by
  refine trim_eq_iff.mpr ⟨⟨[], [], by simp, by simp, by simp⟩, fun c hc => ?_, fun c hc => ?_⟩
  · obtain ⟨_, _, _, -, -, -, rfl⟩ := hhead
    obtain rfl : 'a' = c := Option.some.inj hc
    rfl
  · rw [← List.cons_append, ← List.append_assoc, List.getLast?_concat] at hc
    obtain rfl : ')' = c := Option.some.inj hc
    rfl

end Spelling

/-! ### Labels of elements -/

section Labels

variable {cs head body : List Char}

/-- **The label of an array is made of the labels of its elements**: they have fewer characters, so
the guard of the recursion never bites. -/
theorem labelOf_array (hhead : IsHead head) :
    labelOf (head ++ '(' :: (body ++ [')'])) = arrayLabel ((splitTopLevel body).map labelOf) := by
  rw [labelOf, arrayBody?_eq_some_iff.mpr ⟨head, hhead, rfl⟩]
  refine congrArg arrayLabel (List.map_congr_left fun x hx => if_pos ?_)
  have hname : 0 < head.length := by
    obtain ⟨_, _, _, -, -, -, rfl⟩ := hhead
    simp
  have hlength := (Source.sublist_of_mem_arguments hx).length_le
  simp only [List.length_append, List.length_cons, List.length_nil] at hlength ⊢
  omega

/-- **Any other expression takes its label from the scalar rules.** -/
theorem labelOf_scalar (h : arrayBody? cs = none) : labelOf cs = (scalar cs).label := by
  rw [labelOf, h]

end Labels

/-! ### Joined expressions -/

/-- Self-contained expressions, joined by commas behind a head. -/
theorem classify_joined {head : List Char} (hhead : IsHead head) (es : List String) (hne : es ≠ [])
    (hself : ∀ e ∈ es, splitTopLevel e.toList = [e.toList]) (expr : String)
    (hexpr : expr.toList = head ++ '(' :: ((", ".intercalate es).toList ++ [')'])) :
    classify expr = "Array<" ++ ", ".intercalate (es.map classify) ++ ">" := by
  have hes : ∀ e ∈ es, e.toList ≠ [] ∧ Source.IsArgument e.toList :=
    fun e he => Source.splitTopLevel_eq_singleton_iff.mp (hself e he)
  have hsplit : splitTopLevel (", ".intercalate es).toList = es.map String.toList := by
    rw [String.toList_intercalate]
    refine Source.splitTopLevel_intercalate (fun x hx => ?_) fun hempty => ?_
    · obtain ⟨e, he, rfl⟩ := List.mem_map.mp hx
      exact (hes e he).2
    · obtain ⟨e, rfl, hnil⟩ := List.map_eq_singleton_iff.mp hempty
      exact (hes e List.mem_cons_self).1 hnil
  have hlabels : (es.map String.toList).map labelOf = es.map classify := by
    rw [List.map_map]
    refine List.map_congr_left fun e he => ?_
    rw [classify, (hes e he).2.trimmed, Function.comp_apply]
  rw [classify, hexpr, trim_constructor hhead, labelOf_array hhead, hsplit, hlabels, arrayLabel,
    if_neg (by simpa using hne)]

/-- **Labels are compositional over arrays.** The label of an array constructor over self-contained
expressions is made of their labels, whatever they are: scalar expressions that hold brackets,
quotes and commas, or constructors again. Type arguments make no difference. -/
theorem classify_arrayOf (es : List String) (hne : es ≠ [])
    (hself : ∀ e ∈ es, splitTopLevel e.toList = [e.toList]) (types : String)
    (htypes : '>' ∉ types.toList) :
    classify ("arrayOf(" ++ ", ".intercalate es ++ ")") =
        "Array<" ++ ", ".intercalate (es.map classify) ++ ">" ∧
      classify ("arrayOf<" ++ types ++ ">(" ++ ", ".intercalate es ++ ")") =
        "Array<" ++ ", ".intercalate (es.map classify) ++ ">" := by
  have htyped : IsHead ("arrayOf".toList ++ '<' :: (types.toList ++ ['>'])) :=
    ⟨[], _, [], by simp, by simp, Or.inr ⟨types.toList, htypes, rfl⟩, by simp⟩
  constructor
  · refine classify_joined isHead_arrayOf es hne hself _ ?_
    simp only [String.toList_append]
    rfl
  · refine classify_joined htyped es hne hself _ ?_
    simp only [String.toList_append, List.append_assoc, List.cons_append]
    rfl

/-- An array in an array, with a string that holds what separates and closes elements. -/
theorem classify_arrayOf_nested :
    classify "arrayOf<Any>(arrayOf(1, \"a, )\"), f(x)[0].size)" =
      "Array<Array<Int, String>, Int>" := by
  have hinner := (classify_arrayOf ["1", "\"a, )\""] (by simp) (by decide +kernel) "" (by simp)).1
  have houter := (classify_arrayOf ["arrayOf(1, \"a, )\")", "f(x)[0].size"] (by simp)
    (by decide +kernel) "Any" (by decide +kernel)).2
  have hone : classify "1" = "Int" := (labelOf_scalar (by decide +kernel)).trans (by decide +kernel)
  have htext : classify "\"a, )\"" = "String" :=
    (labelOf_scalar (by decide +kernel)).trans (by decide +kernel)
  have hsize : classify "f(x)[0].size" = "Int" :=
    (labelOf_scalar (by decide +kernel)).trans (by decide +kernel)
  have hnested : classify "arrayOf(1, \"a, )\")" = "Array<Int, String>" := by
    simpa [hone, htext] using hinner
  simpa [hnested, hsize] using houter

/-! ### Behind the closing parenthesis -/

/-- The offset of the parenthesis that closes the list behind a head. -/
def closing? (head cs : List Char) : Option Nat :=
  closingParenthesis 0 (lexemesAt (encode cs) (byteSize head + 1))

/-- A whole array constructor: the parenthesis behind its head is closed by its last byte. -/
def IsConstructor (cs : List Char) : Prop :=
  ∃ head list closing, IsHead head ∧ cs = head ++ '(' :: list ∧
    closing? head cs = some closing ∧ closing + 1 = byteSize cs

/-- An expression that starts as an array constructor and ends with a parenthesis, but not the one
that closes the list behind its head. -/
def Overruns (cs : List Char) : Prop :=
  ∃ head body, IsHead head ∧ cs = head ++ '(' :: (body ++ [')']) ∧
    ∀ closing, closing? head cs = some closing → closing + 1 ≠ byteSize cs

section Behind

variable {cs head body : List Char} {closing : Nat}

/-- The elements behind a head are the arguments of its parenthesis. -/
theorem splitTopLevel_eq_arguments (head body : List Char) :
    splitTopLevel body = arguments (encode (head ++ '(' :: (body ++ [')']))) (byteSize head) :=
  Source.arguments_behind [] head (body ++ [')'])

/-- **What stands behind the closing parenthesis does not count**: up to there an expression is a
whole constructor, and has the same label. -/
theorem labelOf_front (hhead : IsHead head)
    (hclosing : closing? head (head ++ '(' :: (body ++ [')'])) = some closing) :
    ∃ inside, slice (head ++ '(' :: (body ++ [')'])) 0 (closing + 1) =
        head ++ '(' :: (inside ++ [')']) ∧
      IsConstructor (head ++ '(' :: (inside ++ [')'])) ∧
      labelOf (head ++ '(' :: (body ++ [')'])) = labelOf (head ++ '(' :: (inside ++ [')'])) := by
  obtain ⟨inside, behind, hbody, hoffset, hclosed, harguments⟩ := Source.exists_inside hclosing
  have hsize : byteSize (head ++ '(' :: (inside ++ [')'])) = closing + 1 := by
    rw [byteSize_append, byteSize_cons, byteSize_concat_of_ascii (by decide),
      utf8Size_of_ascii (by decide), hoffset]
    omega
  refine ⟨inside, ?_, ⟨head, inside ++ [')'], closing, hhead, rfl, hclosed [], hsize.symm⟩, ?_⟩
  · have hslice := slice_append [] (head ++ '(' :: (inside ++ [')'])) behind
    rw [hsize] at hslice
    rw [hbody]
    simpa using hslice
  · rw [labelOf_array hhead, labelOf_array hhead, splitTopLevel_eq_arguments head body,
      splitTopLevel_eq_arguments head inside, harguments head []]

/-- A list that is never closed has no elements. -/
theorem labelOf_unclosed (hhead : IsHead head)
    (hclosing : closing? head (head ++ '(' :: (body ++ [')'])) = none) :
    labelOf (head ++ '(' :: (body ++ [')'])) = "Array<Object>" := by
  rw [labelOf_array hhead, splitTopLevel_eq_arguments head body,
    Source.arguments_of_unclosed hclosing]
  rfl

/-- A whole constructor ends with the parenthesis that closes its list. -/
theorem IsConstructor.exists_body (h : IsConstructor cs) :
    ∃ head body, IsHead head ∧ cs = head ++ '(' :: (body ++ [')']) ∧
      ∃ closing, closing? head cs = some closing ∧ closing + 1 = byteSize cs := by
  obtain ⟨head, list, closing, hhead, rfl, hclosing, hlast⟩ := h
  obtain ⟨inside, behind, rfl, hoffset, -, -⟩ := Source.exists_inside hclosing
  obtain rfl : behind = [] := by
    refine byteSize_eq_zero_iff.mp ?_
    simp only [byteSize_append, byteSize_cons, utf8Size_of_ascii (c := '(') (by decide),
      utf8Size_of_ascii (c := ')') (by decide)] at hlast
    omega
  exact ⟨head, inside, hhead, rfl, closing, hclosing, hlast⟩

/-- What is recognised as a constructor is one, or overruns it. -/
theorem isConstructor_or_overruns_iff :
    IsConstructor cs ∨ Overruns cs ↔ ∃ body, arrayBody? cs = some body := by
  constructor
  · rintro (h | ⟨head, body, hhead, hcs, -⟩)
    · obtain ⟨head, body, hhead, hcs, -⟩ := h.exists_body
      exact ⟨body, arrayBody?_eq_some_iff.mpr ⟨head, hhead, hcs⟩⟩
    · exact ⟨body, arrayBody?_eq_some_iff.mpr ⟨head, hhead, hcs⟩⟩
  · rintro ⟨body, hbody⟩
    obtain ⟨head, hhead, hcs⟩ := arrayBody?_eq_some_iff.mp hbody
    by_cases hlast : ∃ closing, closing? head cs = some closing ∧ closing + 1 = byteSize cs
    · obtain ⟨closing, hclosing, hlast⟩ := hlast
      exact Or.inl ⟨head, body ++ [')'], closing, hhead, hcs, hclosing, hlast⟩
    · exact Or.inr ⟨head, body, hhead, hcs, fun closing hclosing hend =>
        hlast ⟨closing, hclosing, hend⟩⟩

theorem not_overruns_of_isConstructor (h : IsConstructor cs) : ¬ Overruns cs := by
  obtain ⟨head, body, hhead, hcs, closing, hclosing, hlast⟩ := h.exists_body
  rintro ⟨head', body', hhead', hcs', hover⟩
  obtain ⟨rfl, -⟩ := constructor_unique hhead hhead' (hcs.symm.trans hcs')
  exact hover closing hclosing hlast

/-- The labels of arrays and of scalars differ in how they start. -/
theorem isPrefix_labelOf_iff :
    "Array<".toList <+: (labelOf cs).toList ↔ ∃ body, arrayBody? cs = some body := by
  have harray : ∀ labels, "Array<".toList <+: (arrayLabel labels).toList := by
    intro labels
    unfold arrayLabel
    split
    · decide +kernel
    · simp only [String.toList_append, List.append_assoc]
      exact List.prefix_append _ _
  have hscalar : ∀ type : Scalar, ¬ "Array<".toList <+: type.label.toList := by
    intro type
    cases type <;> decide +kernel
  cases hbody : arrayBody? cs with
  | none =>
    rw [labelOf_scalar hbody]
    exact iff_of_false (hscalar _) (by simp)
  | some body =>
    obtain ⟨head, hhead, rfl⟩ := arrayBody?_eq_some_iff.mp hbody
    rw [labelOf_array hhead]
    exact iff_of_true (harray _) ⟨body, rfl⟩

end Behind

/-- **Which expressions are labelled as arrays**: whole constructors, and expressions that overrun
one. The latter have the label of the constructor that they start with, whatever is done with it
behind its closing parenthesis, and the label of an empty array if there is no such parenthesis.
All other expressions take their label from the scalar rules. -/
theorem classify_isArray_iff (expr : String) (cs : List Char) (hcs : trim expr.toList = cs) :
    ("Array<".toList <+: (classify expr).toList ↔ IsConstructor cs ∨ Overruns cs) ∧
    ¬ (IsConstructor cs ∧ Overruns cs) ∧
    (¬ IsConstructor cs → ¬ Overruns cs → classify expr = (scalar cs).label) ∧
    ∀ head body, IsHead head → cs = head ++ '(' :: (body ++ [')']) →
      (∀ closing, closing? head cs = some closing →
        IsConstructor (slice cs 0 (closing + 1)) ∧
          classify expr = classify (String.ofList (slice cs 0 (closing + 1)))) ∧
      (closing? head cs = none → classify expr = "Array<Object>") := by
  have hlabel : classify expr = labelOf cs := congrArg labelOf hcs
  rw [hlabel]
  refine ⟨isPrefix_labelOf_iff.trans isConstructor_or_overruns_iff.symm,
    fun h => not_overruns_of_isConstructor h.1 h.2, fun hwhole hover => ?_, ?_⟩
  · refine labelOf_scalar (Option.eq_none_iff_forall_ne_some.mpr fun body hbody => ?_)
    exact (isConstructor_or_overruns_iff.mpr ⟨body, hbody⟩).elim hwhole hover
  · rintro head body hhead rfl
    refine ⟨fun closing hclosing => ?_, labelOf_unclosed hhead⟩
    obtain ⟨inside, hslice, hwhole, hfront⟩ := labelOf_front hhead hclosing
    rw [hslice, classify, String.toList_ofList, trim_constructor hhead]
    exact ⟨hwhole, hfront⟩

/-- The number of elements is labelled as the array that they are counted in. -/
theorem classify_isArray_iff_count :
    Overruns "arrayOf(1, 2).count()".toList ∧
      (scalar "arrayOf(1, 2).count()".toList).label = "Int" ∧
      classify "arrayOf(1, 2).count()" = "Array<Int, Int>" := by
  have hclosing : closing? "arrayOf".toList "arrayOf(1, 2).count()".toList = some 12 := by
    decide +kernel
  have hover : Overruns "arrayOf(1, 2).count()".toList := by
    refine ⟨"arrayOf".toList, "1, 2).count(".toList, isHead_arrayOf, rfl, fun closing h => ?_⟩
    obtain rfl := Option.some.inj (hclosing.symm.trans h)
    decide +kernel
  obtain ⟨-, -, -, hfront⟩ :=
    classify_isArray_iff "arrayOf(1, 2).count()" "arrayOf(1, 2).count()".toList (by decide +kernel)
  obtain ⟨-, hlabel⟩ :=
    (hfront "arrayOf".toList "1, 2).count(".toList isHead_arrayOf rfl).1 12 hclosing
  have hslice : slice "arrayOf(1, 2).count()".toList 0 13 = "arrayOf(1, 2)".toList := by
    decide +kernel
  rw [hslice, String.ofList_toList] at hlabel
  have hone : classify "1" = "Int" := (labelOf_scalar (by decide +kernel)).trans (by decide +kernel)
  have htwo : classify "2" = "Int" := (labelOf_scalar (by decide +kernel)).trans (by decide +kernel)
  have harray : classify "arrayOf(1, 2)" = "Array<Int, Int>" := by
    have hjoined := classify_joined isHead_arrayOf ["1", "2"] (by simp) (by decide +kernel)
      "arrayOf(1, 2)" (by decide +kernel)
    simpa [hone, htwo] using hjoined
  exact ⟨hover, by decide +kernel, hlabel.trans harray⟩

end Telemetry.ValueType
