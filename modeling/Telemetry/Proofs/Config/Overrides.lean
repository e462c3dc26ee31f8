import Telemetry.Config.Basic
import Telemetry.Path
import Telemetry.Proofs.Symbol.Overrides
import Telemetry.Symbol.Declaration

/-!
Overrides on their way from the command line to the symbols of a file. An argument is split at its
first equals sign and trimmed, a valid key is two identifiers with a dot between them, and a table
splits the key at its first dot; the three agree.

* `isOverrideKey_iff`, `fault?_eq_none_iff` — what validation asks for.
* `getElem?_addOverrides` — of the arguments that assign a key the last one counts, and arguments
  come before the configuration.
* `get?_build_of_valid` — with valid overrides, a name of a file has the value of its key, or else
  the value that the source gives it.
* `get?_build_addOverrides` — so arguments come before the configuration, and the configuration
  before the source.
* `override_reaches` — a valid override reaches every name of a file whose identifier is one of the
  language; `build_eq_ofSource` says what happens to other files.
-/

namespace Telemetry.Config

open Telemetry.Text Telemetry.Symbol

/-! ### Validity -/

section Validity

variable {c : Config} {key : String}

/-- **A valid key** is two identifiers with a dot between them. -/
theorem isOverrideKey_iff :
    isOverrideKey key = true ↔
      ∃ file name : String, isIdentifier file.toList = true ∧ isIdentifier name.toList = true ∧
        key = file ++ "." ++ name := by
  unfold isOverrideKey
  split
  · rename_i file name hsplit
    obtain ⟨rfl, hdot⟩ := splitKey?_eq_some_iff.mp hsplit
    rw [Bool.and_eq_true]
    constructor
    · rintro ⟨hfile, hname⟩
      exact ⟨file, name, hfile, hname, rfl⟩
    · rintro ⟨file', name', hfile', hname', hkey⟩
      have hdot' : '.' ∉ file'.toList := not_mem_identifier (by decide) hfile'
      rw [splitKey?_eq_some_iff.mpr ⟨hkey, hdot'⟩] at hsplit
      obtain ⟨rfl, rfl⟩ := Prod.mk.inj (Option.some.inj hsplit)
      exact ⟨hfile', hname'⟩
  · rename_i hsplit
    simp only [Bool.false_eq_true, false_iff]
    rintro ⟨file, name, hfile, -, hkey⟩
    rw [splitKey?_eq_some_iff.mpr ⟨hkey, not_mem_identifier (by decide) hfile⟩] at hsplit
    cases hsplit

theorem receiverFault?_eq_none_iff {family : String} {r : Receiver} :
    receiverFault? family r = none ↔
      isIdentifier r.token.toList = true ∧ isIdentifier r.typeName.toList = true := by
  unfold receiverFault?
  cases isIdentifier r.token.toList <;> cases isIdentifier r.typeName.toList <;> simp

/-- **A configuration is valid** if its receivers are identifiers, some extension is given and every
override key is valid. -/
theorem fault?_eq_none_iff :
    c.fault? = none ↔
      (∀ r ∈ [c.meterReceiver, c.eventReceiver],
        isIdentifier r.token.toList = true ∧ isIdentifier r.typeName.toList = true) ∧
      c.extensions ≠ [] ∧ ∀ key ∈ c.overrides, isOverrideKey key = true := by
  rw [fault?, Option.or_eq_none_iff, Option.or_eq_none_iff, receiverFault?_eq_none_iff,
    receiverFault?_eq_none_iff, ← and_assoc, List.forall_mem_cons, List.forall_mem_singleton]
  refine and_congr_right fun _ => ?_
  split
  · rename_i hextensions
    simp [List.isEmpty_iff.mp hextensions]
  · rename_i hextensions
    have hne : c.extensions ≠ [] := fun h => hextensions (List.isEmpty_iff.mpr h)
    simp [hne]

/-- The configuration that holds where none is given, with one override. -/
def overriding (key value : String) : Config :=
  { standard with overrides := (∅ : Overrides).insert key value }

/-- A single override is as valid as its key. -/
theorem fault?_overriding_iff {value : String} :
    (overriding key value).fault? = none ↔ isOverrideKey key = true := by
  have hreceivers : ∀ r ∈ [standard.meterReceiver, standard.eventReceiver],
      isIdentifier r.token.toList = true ∧ isIdentifier r.typeName.toList = true := by decide
  have hmem : ∀ {key'}, key' ∈ (overriding key value).overrides ↔ key' = key := by
    intro key'
    rw [overriding, Std.TreeMap.mem_insert, Std.LawfulEqCmp.compare_eq_iff_eq, eq_comm]
    exact or_iff_left Std.TreeMap.not_mem_emptyc
  rw [fault?_eq_none_iff]
  constructor
  · rintro ⟨-, -, hkeys⟩
    exact hkeys key (hmem.mpr rfl)
  · intro hkey
    refine ⟨hreceivers, List.cons_ne_nil _ _, fun key' hkey' => ?_⟩
    rw [hmem.mp hkey']
    exact hkey

end Validity

/-! ### Arguments -/

/-- An argument assigns a value to a key: the value stands behind its first equals sign, the key in
front of it, perhaps with blanks around it. -/
def Assigns (argument key value : String) : Prop :=
  ∃ front, argument.toList = front ++ '=' :: value.toList ∧ '=' ∉ front ∧ trim front = key.toList

/-- Of the arguments that assign a key, the last one assigns the value. -/
def AssignsLast (args : List String) (key value : String) : Prop :=
  ∃ before argument after, args = before ++ argument :: after ∧ Assigns argument key value ∧
    ∀ later ∈ after, ∀ other, ¬ Assigns later key other

section Arguments

variable {c c' : Config} {args : List String} {argument key value : String}

theorem splitArgument?_eq_some_iff :
    splitArgument? argument = some (key, value) ↔ Assigns argument key value := by
  constructor
  · intro h
    unfold splitArgument? at h
    simp only at h
    split at h
    · rename_i rest hrest
      obtain ⟨rfl, rfl⟩ := Prod.mk.inj (Option.some.inj h)
      obtain ⟨hargument, hfront⟩ := dropWhile_bne_eq_cons_iff.mp ⟨hrest, rfl⟩
      rw [Assigns, String.toList_ofList, String.toList_ofList]
      exact ⟨_, hargument, hfront, rfl⟩
    · cases h
  · rintro ⟨front, hargument, hfront, hkey⟩
    obtain ⟨hdrop, htake⟩ := dropWhile_bne_eq_cons_iff.mpr ⟨hargument, hfront⟩
    simp only [splitArgument?, hdrop, htake, hkey, String.ofList_toList]

/-- The value that an argument assigns to a key. -/
def assigned? (key argument : String) : Option String :=
  (splitArgument? argument).bind fun (key', value) => if key' = key then some value else none

theorem assigned?_eq_some_iff :
    assigned? key argument = some value ↔ Assigns argument key value := by
  rw [← splitArgument?_eq_some_iff, assigned?, Option.bind_eq_some_iff]
  constructor
  · rintro ⟨⟨key', value'⟩, hsplit, hassigned⟩
    obtain ⟨rfl, hvalue⟩ := Option.ite_none_right_eq_some.mp hassigned
    rw [hsplit, Option.some.inj hvalue]
  · intro hsplit
    exact ⟨_, hsplit, if_pos rfl⟩

/-- What a single argument does to a configuration. -/
def assign (c : Config) (argument : String) : Config :=
  match splitArgument? argument with
  | some (key, value) => { c with overrides := c.overrides.insert key value }
  | none => c

theorem addOverrides_eq_foldl (h : c.addOverrides args = (c', none)) :
    c' = args.foldl assign c := by
  induction args generalizing c with
  | nil => exact (Prod.mk.inj h).1.symm
  | cons argument args ih =>
    rw [addOverrides] at h
    cases hsplit : splitArgument? argument with
    | none =>
      rw [hsplit] at h
      cases (Prod.mk.inj h).2
    | some assignment =>
      rw [hsplit] at h
      rw [List.foldl_cons, assign, hsplit]
      exact ih h

theorem getElem?_assign (c : Config) (argument : String) :
    (c.assign argument).overrides[key]? = (assigned? key argument).or c.overrides[key]? := by
  unfold assign assigned?
  cases splitArgument? argument with
  | none => rfl
  | some assignment =>
    obtain ⟨key', value⟩ := assignment
    simp only [Std.TreeMap.getElem?_insert, Std.LawfulEqCmp.compare_eq_iff_eq, Option.bind_some]
    split <;> rfl

/-- **Of the arguments that assign a key the last one counts**, and arguments come before the
configuration. -/
theorem getElem?_addOverrides (h : c.addOverrides args = (c', none)) :
    c'.overrides[key]? = (args.filterMap (assigned? key)).getLast?.or c.overrides[key]? := by
  rw [addOverrides_eq_foldl h]
  exact read_foldl (fun c => c.overrides[key]?) getElem?_assign args c

theorem filterMap_assigned?_eq_nil
    (h : ∀ argument ∈ args, ∀ value, ¬ Assigns argument key value) :
    args.filterMap (assigned? key) = [] := by
  refine List.filterMap_eq_nil_iff.mpr fun argument hargument => ?_
  refine Option.eq_none_iff_forall_ne_some.mpr fun value hvalue => ?_
  exact h argument hargument value (assigned?_eq_some_iff.mp hvalue)

theorem getLast?_filterMap_assigned? (h : AssignsLast args key value) :
    (args.filterMap (assigned? key)).getLast? = some value := by
  obtain ⟨before, argument, after, rfl, hargument, hafter⟩ := h
  rw [List.filterMap_append, List.filterMap_cons, assigned?_eq_some_iff.mpr hargument,
    filterMap_assigned?_eq_nil hafter, List.getLast?_concat]

end Arguments

/-! ### Tables -/

/-- The key that addresses a name in a file. -/
def keyOf (file name : String) : String :=
  Path.identifier file ++ "." ++ name

section Tables

variable {overrides : Overrides} {identifier file name name' : String}

/-- A valid key is divided by its only dot. -/
theorem key_unique (hfile : isIdentifier file.toList = true)
    (hname : isIdentifier name'.toList = true)
    (h : identifier ++ "." ++ name = file ++ "." ++ name') : identifier = file ∧ name = name' := by
  have hfileDot : '.' ∉ file.toList := not_mem_identifier (by decide) hfile
  have hnameDot : '.' ∉ name'.toList := not_mem_identifier (by decide) hname
  -- one side has a single dot, so the other side has none in front of its own
  have hdot : '.' ∉ identifier.toList := by
    have hcount := congrArg (fun key => key.toList.count '.') h
    simp only [toList_key, List.count_append, List.count_cons_self,
      List.count_eq_zero.mpr hfileDot, List.count_eq_zero.mpr hnameDot] at hcount
    exact List.count_eq_zero.mp (by omega)
  have hsplit := splitKey?_eq_some_iff.mpr ⟨h.symm, hdot⟩
  rw [splitKey?_eq_some_iff.mpr ⟨rfl, hfileDot⟩] at hsplit
  obtain ⟨hidentifier, hnames⟩ := Prod.mk.inj (Option.some.inj hsplit)
  exact ⟨hidentifier.symm, hnames.symm⟩

/-- **With valid overrides a name has the value of its key**, or else the one that the source
gives it. -/
theorem get?_build_of_valid (text : List Char)
    (hvalid : ∀ key ∈ overrides, isOverrideKey key = true) :
    (Table.build text identifier overrides).get? name =
      overrides[identifier ++ "." ++ name]?.or ((Table.ofSource text).get? name) := by
  rw [Table.build, Table.get?_override]
  split
  · rfl
  · rename_i hkey
    -- a key that no table takes over is not valid, so it is not among the overrides
    have hnone : overrides[identifier ++ "." ++ name]? = none := by
      refine Option.eq_none_iff_forall_ne_some.mpr fun value hvalue => hkey ?_
      have hmem : identifier ++ "." ++ name ∈ overrides := by
        rw [Std.TreeMap.mem_iff_isSome_getElem?, hvalue]
        rfl
      obtain ⟨file, name', hfile, hname', heq⟩ := isOverrideKey_iff.mp (hvalid _ hmem)
      obtain ⟨rfl, rfl⟩ := key_unique hfile hname' heq
      refine ⟨not_mem_identifier (by decide) hfile, ?_⟩
      rintro rfl
      exact ne_nil_of_isIdentifier hname' rfl
    rw [hnone]

/-- **Valid overrides are addressed to identifiers**: a file that has none for its identifier keeps
the symbols of its source. -/
theorem build_eq_ofSource (text : List Char)
    (hvalid : ∀ key ∈ overrides, isOverrideKey key = true)
    (hidentifier : isIdentifier identifier.toList = false) :
    Table.build text identifier overrides = Table.ofSource text := by
  refine Table.override_eq_self _ fun key hkey => ?_
  refine Option.eq_none_iff_forall_ne_some.mpr fun name hname => ?_
  obtain ⟨file, name', hfile, hname', rfl⟩ := isOverrideKey_iff.mp (hvalid key hkey)
  obtain ⟨heq, -, -⟩ := addressed?_eq_some_iff.mp hname
  obtain ⟨rfl, -⟩ := key_unique hfile hname' heq.symm
  rw [hfile] at hidentifier
  cases hidentifier

/-- **Arguments come before the configuration, and the configuration before the source.** When the
arguments have been added and the configuration is valid, a name of a file has the value of the last
argument that assigns its key; where no argument does, it has the value of the configuration, or
else the one that the source gives it. -/
theorem get?_build_addOverrides {c c' : Config} {args : List String}
    (hadd : c.addOverrides args = (c', none)) (hvalid : c'.fault? = none) (file : String)
    (text : List Char) (name : String) :
    (∀ value, AssignsLast args (keyOf file name) value →
      (Table.build text (Path.identifier file) c'.overrides).get? name = some value) ∧
    ((∀ argument ∈ args, ∀ value, ¬ Assigns argument (keyOf file name) value) →
      (Table.build text (Path.identifier file) c'.overrides).get? name =
        c.overrides[keyOf file name]?.or ((Table.ofSource text).get? name)) := by
  obtain ⟨-, -, hkeys⟩ := fault?_eq_none_iff.mp hvalid
  have hbuild : (Table.build text (Path.identifier file) c'.overrides).get? name =
      ((args.filterMap (assigned? (keyOf file name))).getLast?.or
        c.overrides[keyOf file name]?).or ((Table.ofSource text).get? name) := by
    rw [get?_build_of_valid text hkeys, ← keyOf, getElem?_addOverrides hadd]
  constructor
  · intro value hlast
    rw [hbuild, getLast?_filterMap_assigned? hlast]
    rfl
  · intro hnone
    rw [hbuild, filterMap_assigned?_eq_nil hnone]
    rfl

/-- A name assigned twice on the command line, and one that only the configuration knows. -/
theorem get?_build_addOverrides_twice :
    (Table.build "val prefix = \"s\"".toList (Path.identifier "src/Svc.kt")
      ((overriding "Svc.unit" "ms").addOverrides
        ["Svc.prefix=a", " Svc.prefix =b=c"]).1.overrides).get? "prefix" = some "b=c" ∧
    (Table.build "val prefix = \"s\"".toList (Path.identifier "src/Svc.kt")
      ((overriding "Svc.unit" "ms").addOverrides
        ["Svc.prefix=a", " Svc.prefix =b=c"]).1.overrides).get? "unit" = some "ms" := by
  have hadd : (overriding "Svc.unit" "ms").addOverrides ["Svc.prefix=a", " Svc.prefix =b=c"] =
      (((overriding "Svc.unit" "ms").addOverrides ["Svc.prefix=a", " Svc.prefix =b=c"]).1, none) :=
    Prod.ext rfl (by decide +kernel)
  have hvalid : ((overriding "Svc.unit" "ms").addOverrides
      ["Svc.prefix=a", " Svc.prefix =b=c"]).1.fault? = none := by decide +kernel
  constructor
  · refine (get?_build_addOverrides hadd hvalid "src/Svc.kt" _ "prefix").1 _
      ⟨["Svc.prefix=a"], " Svc.prefix =b=c", [], rfl, ?_, by simp⟩
    exact ⟨" Svc.prefix ".toList, by decide +kernel, by decide +kernel, by decide +kernel⟩
  · rw [(get?_build_addOverrides hadd hvalid "src/Svc.kt" _ "unit").2]
    · decide +kernel
    · intro argument hargument value hassigns
      have hnone : ∀ argument ∈ ["Svc.prefix=a", " Svc.prefix =b=c"],
          assigned? (keyOf "src/Svc.kt" "unit") argument = none := by decide +kernel
      rw [← assigned?_eq_some_iff, hnone argument hargument] at hassigns
      cases hassigns

/-- **An override reaches every name of a file whose identifier is one of the language**, in every
text. A file with another identifier, if it has no dot in it, is out of reach of every valid
configuration: a valid key has identifiers on both sides of its dot. Identifiers with a dot are left
out, since keys are split at their first dot, and what that does to them is no matter of validity. -/
theorem override_reaches (file name value : String) (hname : isIdentifier name.toList = true) :
    (isIdentifier (Path.identifier file).toList = true →
      ∃ key, (overriding key value).fault? = none ∧ ∀ text,
        (Table.build text (Path.identifier file) (overriding key value).overrides).get? name =
          some value) ∧
    ('.' ∉ (Path.identifier file).toList → isIdentifier (Path.identifier file).toList = false →
      ∀ c : Config, c.fault? = none → ∀ text,
        Table.build text (Path.identifier file) c.overrides = Table.ofSource text) := by
  constructor
  · intro hfile
    have hvalid : (overriding (keyOf file name) value).fault? = none :=
      fault?_overriding_iff.mpr (isOverrideKey_iff.mpr ⟨_, _, hfile, hname, rfl⟩)
    obtain ⟨-, -, hkeys⟩ := fault?_eq_none_iff.mp hvalid
    refine ⟨keyOf file name, hvalid, fun text => ?_⟩
    rw [get?_build_of_valid text hkeys, ← keyOf, overriding, Std.TreeMap.getElem?_insert_self,
      Option.some_or]
  · intro _ hidentifier c hvalid text
    obtain ⟨-, -, hkeys⟩ := fault?_eq_none_iff.mp hvalid
    exact build_eq_ofSource text hkeys hidentifier

/-- A name of a file with a plain name. -/
theorem override_reaches_plain :
    isIdentifier (Path.identifier "src/OrderService.kt").toList = true ∧
    ∃ key, (overriding key "orders").fault? = none ∧ ∀ text,
      (Table.build text (Path.identifier "src/OrderService.kt")
        (overriding key "orders").overrides).get? "prefix" = some "orders" := by
  have hfile : isIdentifier (Path.identifier "src/OrderService.kt").toList = true := by
    decide +kernel
  exact ⟨hfile, (override_reaches "src/OrderService.kt" "prefix" "orders" (by decide)).1 hfile⟩

/-- No override reaches a name of a file with a hyphen in its name. -/
theorem not_exists_override_hyphen :
    Path.identifier "order-service.kt" = "order-service" ∧ isIdentifier "prefix".toList = true ∧
    ¬ ∃ key, (overriding key "orders").fault? = none ∧ ∀ text,
      (Table.build text (Path.identifier "order-service.kt")
        (overriding key "orders").overrides).get? "prefix" = some "orders" := by
  refine ⟨by decide +kernel, by decide, ?_⟩
  rintro ⟨key, hvalid, hreaches⟩
  obtain ⟨-, -, hkeys⟩ := fault?_eq_none_iff.mp hvalid
  have hsource : (Table.ofSource []).get? "prefix" = some "orders" := by
    rw [← hreaches [], build_eq_ofSource [] hkeys (by decide +kernel)]
  exact absurd hsource (by decide +kernel)

end Tables

end Telemetry.Config
