import Telemetry.Proofs.Receiver
import Telemetry.Proofs.Source.Endings

/-!
Where the names of a receiver come from.

A name that is not the token stands in the text in front of a colon and the type. The search for
such names reads comments and strings as it reads code, so a name may be declared, or stray.

* `length_le_of_typedName` — two names with the type overlap only if the later name is the type
  itself, as in `a: T: T`.
* `mem_namesIn_of_typedAt` — so a name other than the type is found wherever it stands with the
  type.
* `TypedAt.declared_or_stray` — where it stands, it is code from end to end or not code at all.
* `namesIn_declared_or_stray` — so the names other than the token are the declared ones and the
  stray ones.
-/

namespace Telemetry.Receiver

open Telemetry.Text Telemetry.Source

/-- The name stands in the text at the byte offset `k` with the type behind it: blanks may stand
around the colon, and no word character in front of the name or behind the type. -/
def TypedAt (text typeName name : List Char) (k : Nat) : Prop :=
  ∃ pre gap space post,
    text = pre ++ (name ++ (gap ++ ':' :: (space ++ (typeName ++ post)))) ∧ byteSize pre = k ∧
    (∀ c ∈ gap, isBlank c = true) ∧ (∀ c ∈ space, isBlank c = true) ∧
    (∀ c ∈ pre.getLast?, isWord c = false) ∧ ∀ c ∈ post.head?, isWord c = false

/-- The name stands with the type where it is code. -/
def Declared (text typeName name : List Char) : Prop :=
  ∃ k, TypedAt text typeName name k ∧
    ∀ j < byteSize name, (Coverage.ofBytes (encode text)).isCode (k + j) = true

/-- The name stands with the type in a comment or in a string. -/
def Stray (text typeName name : List Char) : Prop :=
  ∃ k, TypedAt text typeName name k ∧
    ∀ j < byteSize name, (Coverage.ofBytes (encode text)).isCode (k + j) = false

/-! ### Reading a name with its type -/

section Reading

variable {text typeName name rest : List Char} {before : Option Char}

theorem isWord_of_mem (h : isIdentifier name = true) : ∀ c ∈ name, isWord c = true :=
  fun _ hc => isWord_of_isIdentifierPart (isIdentifierPart_of_mem h hc)

/-- In front of a word, a boundary is the lack of a word character. -/
theorem isBoundary_word_iff (hname : isIdentifier name = true) :
    isBoundary before (name ++ rest) = true ↔ ∀ c ∈ before, isWord c = false := by
  obtain ⟨d, ds, rfl⟩ := List.exists_cons_of_ne_nil (ne_nil_of_isIdentifier hname)
  have hd : isWord d = true := isWord_of_mem hname d List.mem_cons_self
  cases before with
  | none => simp [isBoundary, hd]
  | some c => simp [isBoundary, hd]

/-- Behind a word too. -/
theorem isBoundary_behind_iff (hname : isIdentifier name = true) :
    isBoundary name.getLast? rest = true ↔ ∀ c ∈ rest.head?, isWord c = false := by
  have hne := ne_nil_of_isIdentifier hname
  have hlast := isWord_of_mem hname _ (List.getLast_mem hne)
  rw [List.getLast?_eq_some_getLast hne]
  cases hhead : rest.head? with
  | none => simp [isBoundary, hhead, hlast]
  | some c => simp [isBoundary, hhead, hlast]

/-- **The reader takes a name with its type** wherever it stands. -/
theorem typedName_eq_some {gap space : List Char} (hbefore : ∀ c ∈ before, isWord c = false)
    (hname : isIdentifier name = true) (htype : isIdentifier typeName = true)
    (hgap : ∀ c ∈ gap, isBlank c = true) (hspace : ∀ c ∈ space, isBlank c = true)
    (hrest : ∀ c ∈ rest.head?, isWord c = false) :
    typedName typeName before (name ++ (gap ++ ':' :: (space ++ (typeName ++ rest)))) =
      some (String.ofList name, rest) := by
  have hread := identifier?_eq_some_iff.mpr ⟨rfl, hname, head?_append_cons_eq_false
    (fun c hc => isIdentifierPart_of_isBlank (hgap c hc)) (by decide : isIdentifierPart ':' = false)
    (space ++ (typeName ++ rest))⟩
  have hcolon : trimStart (gap ++ ':' :: (space ++ (typeName ++ rest))) =
      ':' :: (space ++ (typeName ++ rest)) :=
    trimStart_eq_iff.mpr ⟨⟨gap, hgap, rfl⟩, by rintro c ⟨⟩; decide⟩
  have hprefix : typeName.isPrefixOf? (trimStart (space ++ (typeName ++ rest))) = some rest := by
    refine List.isPrefixOf?_eq_some_iff_append_eq.mpr
      (trimStart_eq_iff.mpr ⟨⟨space, hspace, rfl⟩, ?_⟩).symm
    exact head?_append_eq_false (ne_nil_of_isIdentifier htype)
      (isBlank_of_mem_identifier htype) rest
  rw [typedName, if_pos ((isBoundary_word_iff hname).mpr hbefore), hread]
  simp only [Option.bind_some, hcolon, hprefix, (isBoundary_behind_iff htype).mpr hrest, if_true]

/-- What the search finds stands in the text. -/
theorem typedAt_of_mem_occurrences (htype : isIdentifier typeName = true)
    {o : Occurrence String} (ho : o ∈ occurrences (typedName typeName) text 0) :
    isIdentifier o.value.toList = true ∧ TypedAt text typeName o.value.toList o.start := by
  obtain ⟨pre, cs, rest, rfl, -, hread, hstart, -⟩ := exists_match_of_mem_occurrencesFrom ho
  obtain ⟨hboundary, hname, hends, gap, space, hgap, hspace, rfl⟩ :=
    exists_parts_of_typedName hread
  rw [Option.or_none] at hboundary
  exact ⟨hname, pre, gap, space, rest, rfl, by rw [hstart, Nat.zero_add], hgap, hspace,
    (isBoundary_word_iff hname).mp hboundary, (isBoundary_behind_iff htype).mp hends⟩

end Reading

/-! ### Names with the type do not overlap -/

section Overlap

variable {typeName name x y w rest : List Char} {before : Option Char}

/-- A text that ends outside words does not end inside a word. -/
theorem exists_of_append_eq_word {word : List Char} (hword : ∀ c ∈ word, isWord c = true)
    (hne : x ≠ []) (hlast : ∀ c ∈ x.getLast?, isWord c = false) (h : x ++ w = word ++ rest) :
    ∃ m, x = word ++ m ∧ rest = m ++ w := by
  rcases List.append_eq_append_iff.mp h with ⟨m, rfl, -⟩ | hsplit
  · have hmem : x.getLast hne ∈ x ++ m := List.mem_append_left m (List.getLast_mem hne)
    have hnot := hlast _ (List.getLast?_eq_some_getLast hne)
    rw [hword _ hmem] at hnot
    cases hnot
  · exact hsplit

/-- **A match in front of a name with the type ends in front of it**, unless the name is the type of
the match. -/
theorem length_le_of_typedName (htype : isIdentifier typeName = true)
    (hname : isIdentifier name = true) (hne : name ≠ typeName) (hy : y ≠ [])
    (hlast : ∀ c ∈ y.getLast?, isWord c = false) (hw : ∀ c ∈ w.head?, isWord c = false)
    {found : String} (h : typedName typeName before (y ++ (name ++ w)) = some (found, rest)) :
    (name ++ w).length ≤ rest.length := by
  obtain ⟨-, hfound, hends, gap, space, hgap, hspace, htext⟩ := exists_parts_of_typedName h
  have hlead : ∀ c ∈ gap ++ ':' :: space, isWord c = false := by
    intro c hc
    rcases List.mem_append.mp hc with hc | hc
    · exact isWord_of_isBlank (hgap c hc)
    · rcases List.mem_cons.mp hc with rfl | hc
      · decide
      · exact isWord_of_isBlank (hspace c hc)
  -- past the name of the match
  obtain ⟨m, rfl, hm⟩ := exists_of_append_eq_word (isWord_of_mem hfound) hy hlast htext
  have hlead' : (gap ++ ':' :: space) ++ (typeName ++ rest) = m ++ (name ++ w) := by simpa using hm
  -- past the colon
  obtain ⟨m', rfl, hm'⟩ : ∃ m', m = (gap ++ ':' :: space) ++ m' ∧
      typeName ++ rest = m' ++ (name ++ w) := by
    rcases List.append_eq_append_iff.mp hlead' with hsplit | ⟨as, has, hrest⟩
    · exact hsplit
    · cases as with
      | nil => exact ⟨[], by simpa using has.symm, by simpa using hrest.symm⟩
      | cons c as =>
        obtain ⟨d, ds, rfl⟩ := List.exists_cons_of_ne_nil (ne_nil_of_isIdentifier hname)
        obtain ⟨rfl, -⟩ := List.cons.inj hrest
        have hnot := hlead d (by rw [has]; simp)
        rw [isWord_of_mem hname d List.mem_cons_self] at hnot
        cases hnot
  -- past the type
  by_cases hend : m' = []
  · subst hend
    have hwords := run_unique (isWord_of_mem htype) ((isBoundary_behind_iff htype).mp hends)
      (isWord_of_mem hname) hw hm'
    exact absurd hwords.1.symm hne
  · have hlast' : ∀ c ∈ m'.getLast?, isWord c = false := by
      intro c hc
      refine hlast c ?_
      rw [← List.append_assoc, List.getLast?_append, Option.mem_def.mp hc]
      rfl
    obtain ⟨m, -, rfl⟩ := exists_of_append_eq_word (isWord_of_mem htype) hend hlast' hm'.symm
    rw [@List.length_append _ m]
    exact Nat.le_add_left _ _

end Overlap

/-! ### The names -/

section Names

variable {r : Receiver} {text typeName name : List Char} {k : Nat}

/-- **A name other than the type is found wherever it stands with the type.** -/
theorem mem_namesIn_of_typedAt (htype : isIdentifier r.typeName.toList = true)
    (hname : isIdentifier name = true) (hne : name ≠ r.typeName.toList)
    (h : TypedAt text r.typeName.toList name k) : String.ofList name ∈ r.namesIn text := by
  obtain ⟨pre, gap, space, post, rfl, -, hgap, hspace, hpre, hpost⟩ := h
  have hread : typedName r.typeName.toList (pre.getLast?.or none)
      (name ++ (gap ++ ':' :: (space ++ (r.typeName.toList ++ post)))) =
        some (String.ofList name, post) := by
    rw [Option.or_none]
    exact typedName_eq_some hpre hname htype hgap hspace hpost
  have hcolon := head?_append_cons_eq_false (fun c hc => isWord_of_isBlank (hgap c hc))
    (by decide : isWord ':' = false) (space ++ (r.typeName.toList ++ post))
  have hclear : ∀ x y found rest, pre = x ++ y → y ≠ [] →
      typedName r.typeName.toList (x.getLast?.or none)
        (y ++ (name ++ (gap ++ ':' :: (space ++ (r.typeName.toList ++ post))))) =
          some (found, rest) →
      (name ++ (gap ++ ':' :: (space ++ (r.typeName.toList ++ post)))).length ≤ rest.length := by
    intro x y found rest hsplit hy hmatch
    refine length_le_of_typedName htype hname hne hy (fun c hc => hpre c ?_) hcolon hmatch
    rw [hsplit, List.getLast?_append, Option.mem_def.mp hc]
    rfl
  obtain ⟨o, ho, hvalue, -⟩ := @exists_mem_occurrencesFrom_of_clear _ _ none 0 0 _ _ _ _ hread
    (by simp) (Nat.zero_le _) hclear
  exact mem_namesIn_iff.mpr (Or.inr ⟨htype, o, ho, hvalue⟩)

/-- **A name with a type is code from end to end or not code at all.** -/
theorem TypedAt.declared_or_stray (hname : isIdentifier name = true)
    (h : TypedAt text typeName name k) :
    Declared text typeName name ∨ Stray text typeName name := by
  have hmarks := @forall_mem_eq_false _ isIdentifierPart ['"', '\'', '/', '\n'] (by decide)
  have hunquoted : Unquoted name := unquoted_iff.mpr fun c hc =>
    not_mem_identifier (hmarks c (List.mem_append_left ['\n'] hc)) hname
  have hline : '\n' ∉ name := not_mem_identifier (hmarks _ (by simp)) hname
  obtain ⟨pre, gap, space, post, htext, hk, -⟩ := id h
  have hspelled : SpelledAt text k name := ⟨pre, _, htext, hk⟩
  have hall := fun j hj => @isCode_eq_of_spelledAt _ _ _ j hspelled hunquoted hline hj
  cases hcode : (Coverage.ofBytes (encode text)).isCode k with
  | true => exact Or.inl ⟨k, h, fun j hj => (hall j hj).trans hcode⟩
  | false => exact Or.inr ⟨k, h, fun j hj => (hall j hj).trans hcode⟩

theorem nodup_foldl_addName {names found : List String} (h : names.Nodup) :
    (found.foldl addName names).Nodup := by
  induction found generalizing names with
  | nil => exact h
  | cons new found ih =>
    refine ih ?_
    unfold addName
    split
    · exact h
    · rename_i hnew
      refine List.nodup_append.mpr ⟨h, by simp, fun a ha b hb hab => hnew ?_⟩
      rw [← List.mem_singleton.mp hb, ← hab]
      exact List.contains_iff_mem.mpr ha

/-- No name of a receiver is listed twice. -/
theorem nodup_namesIn (r : Receiver) (text : List Char) : (r.namesIn text).Nodup := by
  have htokens : (if isIdentifier r.token.toList then [r.token] else []).Nodup := by
    split <;> simp
  simp only [namesIn]
  split
  · exact nodup_foldl_addName htokens
  · exact htokens

/-- **The names of a receiver are declared or stray.** They are distinct identifiers, and each of
them but the token stands with the type in code, or in a comment or a string. Any identifier that
stands there, in either way, is one of the names, unless it is the type itself; so a name that is
only mentioned in a comment is taken for a receiver. -/
theorem namesIn_declared_or_stray (r : Receiver) (text : List Char) :
    (r.namesIn text).Nodup ∧ (∀ name ∈ r.namesIn text, isIdentifier name.toList = true) ∧
    ∀ name, name ≠ r.token →
      (name ∈ r.namesIn text → isIdentifier r.typeName.toList = true ∧
        (Declared text r.typeName.toList name.toList ∨
          Stray text r.typeName.toList name.toList)) ∧
      (isIdentifier r.typeName.toList = true → isIdentifier name.toList = true →
        name ≠ r.typeName →
        Declared text r.typeName.toList name.toList ∨ Stray text r.typeName.toList name.toList →
          name ∈ r.namesIn text) := by
  refine ⟨nodup_namesIn r text, fun name => isIdentifier_of_mem_namesIn r, fun name htoken =>
    ⟨fun hmem => ?_, fun htype hname hne hfound => ?_⟩⟩
  · obtain ⟨htype, o, ho, rfl⟩ := (mem_namesIn_iff.mp hmem).resolve_left fun h => htoken h.2
    obtain ⟨hname, hat⟩ := typedAt_of_mem_occurrences htype ho
    exact ⟨htype, hat.declared_or_stray hname⟩
  · obtain ⟨k, hat⟩ : ∃ k, TypedAt text r.typeName.toList name.toList k :=
      hfound.elim (fun ⟨k, hat, _⟩ => ⟨k, hat⟩) fun ⟨k, hat, _⟩ => ⟨k, hat⟩
    have hmem := mem_namesIn_of_typedAt htype hname (fun h => hne (String.toList_inj.mp h)) hat
    rwa [String.ofList_toList] at hmem

/-- A name that only a comment mentions. -/
theorem namesIn_declared_or_stray_comment :
    "old" ∈ meterDefault.namesIn "// old: MeterRegistry\n".toList ∧
      Stray "// old: MeterRegistry\n".toList "MeterRegistry".toList "old".toList ∧
      ¬ Declared "// old: MeterRegistry\n".toList "MeterRegistry".toList "old".toList := by
  have hcomment : ∀ k < 20, (Coverage.ofBytes (encode "// old: MeterRegistry\n".toList)).isCode k =
      false := by decide +kernel
  have hmem : "old" ∈ meterDefault.namesIn "// old: MeterRegistry\n".toList := by decide +kernel
  have hnot : ¬ Declared "// old: MeterRegistry\n".toList "MeterRegistry".toList "old".toList := by
    rintro ⟨k, ⟨pre, gap, space, post, htext, hk, -⟩, hcode⟩
    have hle : k + 3 ≤ 22 := @spelledAt_le _ "old".toList _ ⟨pre, _, htext, hk⟩
    have hat := hcode 0 (by decide)
    rw [Nat.add_zero, hcomment k (by omega)] at hat
    cases hat
  obtain ⟨-, -, hnames⟩ := namesIn_declared_or_stray meterDefault "// old: MeterRegistry\n".toList
  obtain ⟨-, hfound⟩ := (hnames "old" (by decide)).1 hmem
  exact ⟨hmem, hfound.resolve_left hnot, hnot⟩

end Names

end Telemetry.Receiver
