import Mathlib.Data.String.Basic
import Mathlib.Order.Compare
import Telemetry.Path
import Telemetry.Proofs.Text.Reading

/-!
Paths and their components.

* `segments_append_slash`, `exists_last_segment` — a path divides at each of its slashes, and unless
  it ends with one, its last segment is not empty.
* `components_join`, `components_foldl_join` — a name that is joined to a path becomes its last
  component, so a path that is walked name by name is told by the names.
* `splitName_eq_some_iff` — the extension of a name is what follows its last dot, if something is in
  front of it.
* `compare_eq_lt_iff` — the order of paths is the lexicographic order of their components.
-/

namespace Telemetry.Path

open Telemetry.Text

/-! ### Segments -/

section Segments

variable {path name : String}

/-- A path divides at a slash. -/
theorem segments_append_slash (p q : String) :
    segments (p ++ "/" ++ q) = segments p ++ segments q := by
  have hchars : (p ++ "/" ++ q).toList = p.toList ++ '/' :: q.toList := by simp
  rw [segments, hchars, List.splitOn_append_cons_self, List.map_append]
  rfl

theorem segments_of_not_mem (h : '/' ∉ name.toList) : segments name = [name] := by
  rw [segments, List.splitOn_eq_singleton h, List.map_singleton, String.ofList_toList]

theorem segments_empty : segments "" = [""] :=
  segments_of_not_mem (by simp)

theorem segments_ne_nil (path : String) : segments path ≠ [] := by
  simp [segments, List.splitOn_ne_nil]

theorem endsWith_slash_iff : path.endsWith "/" = true ↔ ∃ front, path = front ++ "/" := by
  rw [String.endsWith_eq_endsWith_toSlice, String.Slice.endsWith_string_iff, String.copy_toSlice]
  constructor
  · rintro ⟨front, hfront⟩
    refine ⟨String.ofList front, String.toList_inj.mp ?_⟩
    rw [String.toList_append, String.toList_ofList]
    exact hfront.symm
  · rintro ⟨front, rfl⟩
    exact ⟨front.toList, by simp⟩

/-- A path is a single segment, or it divides at its last slash. -/
theorem not_mem_or_exists_slash (path : String) :
    '/' ∉ path.toList ∨ ∃ front last, path = front ++ "/" ++ last ∧ '/' ∉ last.toList := by
  by_cases h : '/' ∈ path.toList
  · obtain ⟨last, front, hpath, hlast⟩ := List.eq_append_cons_of_mem (List.mem_reverse.mpr h)
    refine Or.inr ⟨String.ofList front.reverse, String.ofList last.reverse, ?_, by simpa using hlast⟩
    rw [← String.toList_inj, ← List.reverse_inj, hpath]
    simp
  · exact Or.inl h

/-- A path that is a single segment is that segment. -/
theorem eq_of_segments_eq_singleton (h : segments path = [name]) : path = name := by
  rcases not_mem_or_exists_slash path with hsingle | ⟨front, last, rfl, -⟩
  · rw [segments_of_not_mem hsingle] at h
    exact List.singleton_inj.mp h
  · rw [segments_append_slash] at h
    rcases List.append_eq_singleton_iff.mp h with ⟨hfront, -⟩ | ⟨-, hlast⟩
    · exact absurd hfront (segments_ne_nil front)
    · exact absurd hlast (segments_ne_nil last)

/-- **The last segment of a path** that does not end with a slash is not empty. -/
theorem exists_last_segment (hpath : path ≠ "") (hslash : path.endsWith "/" = false) :
    ∃ front last, segments path = front ++ [last] ∧ last ≠ "" := by
  rcases not_mem_or_exists_slash path with hsingle | ⟨front, last, rfl, hlast⟩
  · exact ⟨[], path, segments_of_not_mem hsingle, hpath⟩
  · refine ⟨segments front, last, ?_, ?_⟩
    · rw [segments_append_slash, segments_of_not_mem hlast]
    · rintro rfl
      rw [String.append_empty, endsWith_slash_iff.mpr ⟨front, rfl⟩] at hslash
      cases hslash

end Segments

/-! ### Components -/

/-- A name that stands for itself in a path. -/
structure IsName (name : String) : Prop where
  ne_empty : name ≠ ""
  ne_current : name ≠ "."
  ne_parent : name ≠ ".."
  not_mem_slash : '/' ∉ name.toList

/-- The components that segments stand for. -/
def componentsOf : List String → List Component
  | "" :: rest => (if rest.isEmpty then [] else [.root]) ++ rest.filterMap Component.ofName?
  | "." :: rest => .current :: rest.filterMap Component.ofName?
  | names => names.filterMap Component.ofName?

theorem components_eq (path : String) : components path = componentsOf (segments path) := rfl

section Components

variable {path name : String} {front : List String}

theorem IsName.ofName? (h : IsName name) : Component.ofName? name = some (.normal name) := by
  simp [Component.ofName?, h.ne_empty, h.ne_current, h.ne_parent]

theorem componentsOf_cons {first : String} {rest : List String} (hempty : first ≠ "")
    (hdot : first ≠ ".") :
    componentsOf (first :: rest) = (first :: rest).filterMap Component.ofName? := by
  simp [componentsOf, hempty, hdot]

/-- A name behind other segments is the last component. -/
theorem componentsOf_concat (hfront : front ≠ []) (h : IsName name) :
    componentsOf (front ++ [name]) = componentsOf (front ++ [""]) ++ [.normal name] := by
  have hvoid : Component.ofName? "" = none := rfl
  obtain ⟨first, rest, rfl⟩ := List.exists_cons_of_ne_nil hfront
  rw [List.cons_append, List.cons_append]
  by_cases hempty : first = ""
  · subst hempty
    simp [componentsOf, h.ofName?, hvoid]
  · by_cases hdot : first = "."
    · subst hdot
      simp [componentsOf, h.ofName?, hvoid]
    · rw [componentsOf_cons hempty hdot, componentsOf_cons hempty hdot, ← List.cons_append,
        ← List.cons_append, List.filterMap_append, List.filterMap_append]
      simp [h.ofName?, hvoid]

/-- A slash at the end does not count. -/
theorem componentsOf_concat_empty (hfront : front ≠ []) (hempty : front ≠ [""]) :
    componentsOf (front ++ [""]) = componentsOf front := by
  have hvoid : Component.ofName? "" = none := rfl
  obtain ⟨first, rest, rfl⟩ := List.exists_cons_of_ne_nil hfront
  rw [List.cons_append]
  by_cases hfirst : first = ""
  · subst hfirst
    have hrest : rest ≠ [] := by
      rintro rfl
      exact hempty rfl
    simp [componentsOf, hvoid, hrest]
  · by_cases hdot : first = "."
    · subst hdot
      simp [componentsOf, hvoid]
    · rw [componentsOf_cons hfirst hdot, componentsOf_cons hfirst hdot, ← List.cons_append,
        List.filterMap_append]
      simp [hvoid]

theorem join_ne_empty (h : IsName name) : join path name ≠ "" := by
  have hjoin : ∀ front : String, front ++ name ≠ "" := by
    intro front hfront
    exact h.ne_empty (String.append_eq_empty_iff.mp hfront).2
  unfold join
  split
  · exact h.ne_empty
  · split
    · exact hjoin _
    · exact hjoin _

/-- **A name that is joined to a path becomes its last component.** -/
theorem components_join (hpath : path ≠ "") (h : IsName name) :
    components (join path name) = components path ++ [.normal name] := by
  have habsolute : name.startsWith "/" = false := by
    rw [Bool.eq_false_iff, ne_eq, String.startsWith_string_iff]
    intro hslash
    exact h.not_mem_slash (hslash.subset (by simp))
  have hname := segments_of_not_mem h.not_mem_slash
  simp only [join, hpath, habsolute, decide_false, Bool.or_self, Bool.false_eq_true, if_false]
  split
  · rename_i hslash
    obtain ⟨front, rfl⟩ := endsWith_slash_iff.mp hslash
    have hends : segments (front ++ "/") = segments front ++ [""] := by
      rw [← segments_empty, ← segments_append_slash, String.append_empty]
    rw [components_eq, components_eq, segments_append_slash, hname, hends,
      componentsOf_concat (segments_ne_nil front) h]
  · have hsegments : segments path ≠ [""] := fun h => hpath (eq_of_segments_eq_singleton h)
    rw [components_eq, components_eq, segments_append_slash, hname,
      componentsOf_concat (segments_ne_nil path) h,
      componentsOf_concat_empty (segments_ne_nil path) hsegments]

/-- **A path that is walked name by name** is told by the names. -/
theorem components_foldl_join {names : List String} (hpath : path ≠ "")
    (hnames : ∀ name ∈ names, IsName name) :
    components (names.foldl join path) = components path ++ names.map .normal := by
  induction names generalizing path with
  | nil => simp
  | cons name names ih =>
    have hname : IsName name := hnames name List.mem_cons_self
    rw [List.foldl_cons, ih (join_ne_empty hname) fun n hn => hnames n (List.mem_cons_of_mem _ hn),
      components_join hpath hname, List.map_cons, List.append_assoc, List.singleton_append]

theorem fileName?_of_components {first : List Component} (h : components path = first ++ [.normal name]) :
    fileName? path = some name := by
  rw [fileName?, h, List.getLast?_concat]

end Components

/-! ### Extensions -/

/-- A name divides at its last dot into what is in front of it, which is something, and an
extension. -/
structure Divides (name stem ext : String) : Prop where
  stem_ne : stem ≠ ""
  name_eq : name = stem ++ "." ++ ext
  not_mem_dot : '.' ∉ ext.toList

/-- The extension of a name, which is empty if the name does not divide. -/
def HasExtension (name ext : String) : Prop :=
  (∃ stem, Divides name stem ext) ∨ ext = "" ∧ ¬ ∃ stem ext', Divides name stem ext'

section Extensions

variable {path name ext : String}

/-- **The extension of a name** is what follows its last dot, if something is in front of it. -/
theorem splitName_eq_some_iff : (splitName name).2 = some ext ↔ ∃ stem, Divides name stem ext := by
  unfold splitName
  constructor
  · intro h
    dsimp only at h
    split at h
    · rename_i stem hdrop
      obtain ⟨hname, hext⟩ := dropWhile_bne_eq_cons_iff.mp ⟨hdrop, rfl⟩
      split at h
      · cases h
      · rename_i hstem
        obtain rfl := Option.some.inj h
        refine ⟨String.ofList stem.reverse, ?_, ?_, by simpa using hext⟩
        · simpa using hstem
        · rw [← String.toList_inj, ← List.reverse_inj]
          simpa using hname
    · cases h
  · rintro ⟨stem, hstem, rfl, hext⟩
    have hname : (stem ++ "." ++ ext).toList.reverse =
        ext.toList.reverse ++ '.' :: stem.toList.reverse := by simp
    obtain ⟨hdrop, htake⟩ := dropWhile_bne_eq_cons_iff.mpr ⟨hname, by simpa using hext⟩
    simp only [hdrop, htake, List.isEmpty_reverse, List.isEmpty_iff, String.toList_eq_nil_iff, hstem,
      if_false, List.reverse_reverse, String.ofList_toList]

theorem getD_extension?_eq_iff (hname : fileName? path = some name) :
    (extension? path).getD "" = ext ↔ HasExtension name ext := by
  have hextension : extension? path = (splitName name).2 := by
    rw [extension?, hname, Option.bind_some]
  rw [hextension, HasExtension, ← splitName_eq_some_iff]
  cases hsplit : (splitName name).2 with
  | none =>
    have hnone : ¬ ∃ stem ext', Divides name stem ext' := by
      rintro ⟨stem, ext', hdivides⟩
      rw [splitName_eq_some_iff.mpr ⟨stem, hdivides⟩] at hsplit
      cases hsplit
    simp [hnone, eq_comm]
  | some ext' =>
    obtain ⟨stem, hdivides⟩ := splitName_eq_some_iff.mp hsplit
    have hsome : ∃ stem ext', Divides name stem ext' := ⟨stem, ext', hdivides⟩
    simp [hsome]

end Extensions

/-! ### The order of paths -/

/-- The name in a component. -/
def Component.text : Component → String
  | .normal name => name
  | _ => ""

/-- The order of components: the root, a leading `.`, steps upwards, then names. -/
def Component.Before (a b : Component) : Prop :=
  a.rank < b.rank ∨ a.rank = b.rank ∧ a.text < b.text

/-- The order of paths: lexicographic by their components, a path before its extensions. -/
def Before (p q : String) : Prop :=
  List.Lex Component.Before (components p) (components q)

/-- Components are compared by their ranks, then by their names. -/
theorem Component.compare_eq :
    Component.compare = compareLex (compareOn Component.rank) (compareOn Component.text) := by
  funext a b
  cases a <;> cases b <;> rfl

instance : Std.TransCmp Component.compare := by
  rw [Component.compare_eq]
  infer_instance

theorem Component.compare_eq_lt_iff {a b : Component} : a.compare b = .lt ↔ a.Before b := by
  simp only [Component.compare_eq, compareLex, compareOn, Ordering.then_eq_lt, compare_lt_iff_lt,
    compare_eq_iff_eq, Component.Before]

theorem Component.compare_eq_eq_iff {a b : Component} : a.compare b = .eq ↔ a = b := by
  simp only [Component.compare_eq, compareLex, compareOn, Ordering.then_eq_eq, compare_eq_iff_eq]
  constructor
  · rintro ⟨hrank, htext⟩
    cases a <;> cases b <;> simp_all [rank, text]
  · rintro rfl
    exact ⟨rfl, rfl⟩

/-- The comparison of paths is the lexicographic one. -/
theorem compareComponents_eq : compareComponents = List.compareLex Component.compare := by
  funext as bs
  induction as generalizing bs with
  | nil => cases bs <;> rfl
  | cons a as ih =>
    cases bs with
    | nil => rfl
    | cons b bs => rw [compareComponents, ih, List.compareLex_cons_cons]

instance : Std.TransCmp compareComponents := by
  rw [compareComponents_eq]
  infer_instance

theorem compareComponents_eq_eq_iff {as bs : List Component} :
    compareComponents as bs = .eq ↔ as = bs := by
  induction as generalizing bs with
  | nil => cases bs <;> simp [compareComponents]
  | cons a as ih =>
    cases bs with
    | nil => simp [compareComponents]
    | cons b bs =>
      rw [compareComponents, Ordering.then_eq_eq, Component.compare_eq_eq_iff, ih, List.cons.injEq]

theorem compareComponents_eq_lt_iff {as bs : List Component} :
    compareComponents as bs = .lt ↔ List.Lex Component.Before as bs := by
  induction as generalizing bs with
  | nil => cases bs <;> simp [compareComponents]
  | cons a as ih =>
    cases bs with
    | nil => simp [compareComponents]
    | cons b bs =>
      rw [compareComponents, Ordering.then_eq_lt, Component.compare_eq_lt_iff,
        Component.compare_eq_eq_iff, ih]
      constructor
      · rintro (hbefore | ⟨rfl, hrest⟩)
        · exact .rel hbefore
        · exact .cons hrest
      · intro h
        cases h with
        | rel hbefore => exact Or.inl hbefore
        | cons hrest => exact Or.inr ⟨rfl, hrest⟩

instance : Std.TransCmp compare where
  eq_swap {p q} := Std.OrientedCmp.eq_swap (a := components p) (b := components q)
  isLE_trans {p q r} :=
    Std.TransCmp.isLE_trans (a := components p) (b := components q) (c := components r)

theorem compare_eq_eq_iff {p q : String} : compare p q = .eq ↔ components p = components q :=
  compareComponents_eq_eq_iff

/-- **The order of paths is the lexicographic order of their components.** -/
theorem compare_eq_lt_iff {p q : String} : compare p q = .lt ↔ Before p q :=
  compareComponents_eq_lt_iff

/-- The order of paths is not that of their texts: a slash counts less than any character. -/
example : compare "a/X.kt" "a.kt" = .lt ∧ "a.kt" < "a/X.kt" := by decide

end Telemetry.Path
