import Mathlib.Data.List.Nodup
import Telemetry.FileTree.Walk
import Telemetry.Proofs.FileTree.Writing
import Telemetry.Proofs.Path
import Telemetry.Proofs.Sorting
import Telemetry.Proofs.Text.Decoding

/-!
Which files a walk takes.

A file below a folder is told by the way to it, the names of the folders that are passed and of the
file. `Folder.WellFormed` says what the system grants of the entries of a folder, and
`Folder.Rearranged` that two folders differ only in the order in which entries are listed, on any
level. `Wanted` spells out which files are to be taken.

* `mem_filesBelow_iff` — the files below a folder are those at the end of a way through folders that
  are entered, each under the names of its way.
* `pairwise_filesBelow` — no two files below a folder have paths with the same components.
* `FileTree.sources_exact` — a walk takes every wanted file once and no other, in the order of their
  paths, however the entries are listed.
-/

namespace Telemetry

open Telemetry.Text

/-! ### Folders -/

/-- The entries of a folder as a system has them: no name occurs twice, and every name stands for
itself in a path. Outside of the working directory a folder also holds the one around it, under the
name `..`. -/
inductive Folder.WellFormed : Folder → Prop where
  | nil : WellFormed []
  | file {name : String} {content : List UInt8} {rest : Folder} (hname : Path.IsName name)
      (hnew : name ∉ rest.map Prod.fst) (hrest : WellFormed rest) :
      WellFormed ((name, .file content) :: rest)
  | folder {name : String} {entries rest : Folder} (hname : Path.IsName name ∨ name = "..")
      (hnew : name ∉ rest.map Prod.fst) (hentries : WellFormed entries) (hrest : WellFormed rest) :
      WellFormed ((name, .folder entries) :: rest)

/-- Two folders with the same entries, which may be listed in another order in each folder. -/
inductive Folder.Rearranged : Folder → Folder → Prop where
  | nil : Rearranged [] []
  | file {name : String} {content : List UInt8} {rest rest' : Folder}
      (hrest : Rearranged rest rest') :
      Rearranged ((name, .file content) :: rest) ((name, .file content) :: rest')
  | folder {name : String} {entries entries' rest rest' : Folder}
      (hentries : Rearranged entries entries') (hrest : Rearranged rest rest') :
      Rearranged ((name, .folder entries) :: rest) ((name, .folder entries') :: rest')
  | swap (first second : String × Entry) (rest : Folder) :
      Rearranged (first :: second :: rest) (second :: first :: rest)
  | trans {f g h : Folder} (hfg : Rearranged f g) (hgh : Rearranged g h) : Rearranged f h

/-- A way leads to a file, through folders that a walk enters. -/
structure Folder.Leads (folder : Folder) (way : Location) (content : List UInt8) : Prop where
  descend_eq : Entry.descend way (.folder folder) = some (.file content)
  entered : ∀ name ∈ way.dropLast, isSkippedFolder name = false

section Folders

variable {folder rest entries : Folder} {name path p : String} {way : Location}
  {content c : List UInt8} {e : Entry}

theorem isSkippedFolder_eq_false_iff : isSkippedFolder name = false ↔
    name.toList.head? ≠ some '.' ∧ name ∉ ["build", "target", "out", "node_modules"] := by
  have hhidden : name.startsWith "." = true ↔ name.toList.head? = some '.' := by
    rw [String.startsWith_string_iff]
    cases name.toList with
    | nil => simp
    | cons first rest => simp [eq_comm]
  rw [isSkippedFolder, Bool.or_eq_false_iff, ← Bool.not_eq_true, hhidden, ← Bool.not_eq_true,
    List.contains_iff_mem]

/-- The folder around another one is hidden. -/
theorem isName_of_entered (hname : Path.IsName name ∨ name = "..")
    (hentered : isSkippedFolder name = false) : Path.IsName name := by
  refine hname.resolve_right ?_
  rintro rfl
  exact (isSkippedFolder_eq_false_iff.mp hentered).1 rfl

theorem descend_cons (n : String) (names : Location) :
    Entry.descend (n :: names) (.folder ((name, e) :: rest)) =
      if n = name then Entry.descend names e else Entry.descend (n :: names) (.folder rest) := by
  rw [descend_folder_cons, descend_folder_cons, lookup_cons_eq]
  split
  · rfl
  · rfl

theorem Folder.Leads.exists_cons (h : Folder.Leads folder way content) :
    ∃ n names, way = n :: names ∧ n ∈ folder.map Prod.fst := by
  obtain ⟨hdescend, -⟩ := h
  cases way with
  | nil => cases hdescend
  | cons n names =>
    rw [descend_folder_cons] at hdescend
    obtain ⟨e, hlookup, -⟩ := Option.bind_eq_some_iff.mp hdescend
    obtain ⟨front, behind, rfl, -⟩ := List.lookup_eq_some_iff.mp hlookup
    exact ⟨n, names, rfl, by simp⟩

theorem not_leads_nil : ¬ Folder.Leads [] way content := by
  intro h
  obtain ⟨n, names, -, hn⟩ := h.exists_cons
  cases hn

/-- A way that starts in the rest of a folder. -/
theorem leads_rest (hnew : name ∉ rest.map Prod.fst) (h : Folder.Leads rest way content) :
    Folder.Leads ((name, e) :: rest) way content := by
  obtain ⟨n, names, rfl, hn⟩ := h.exists_cons
  have hne : n ≠ name := by
    rintro rfl
    exact hnew hn
  exact ⟨by rw [descend_cons, if_neg hne, h.descend_eq], h.entered⟩

/-- The ways through a folder that has a file first. -/
theorem leads_file_iff (hnew : name ∉ rest.map Prod.fst) :
    Folder.Leads ((name, .file c) :: rest) way content ↔
      way = [name] ∧ content = c ∨ Folder.Leads rest way content := by
  constructor
  · intro h
    obtain ⟨n, names, rfl, -⟩ := h.exists_cons
    have hdescend := h.descend_eq
    rw [descend_cons] at hdescend
    split at hdescend
    · rename_i hn
      subst hn
      cases names with
      | nil =>
        cases hdescend
        exact Or.inl ⟨rfl, rfl⟩
      | cons n' names => cases hdescend
    · exact Or.inr ⟨hdescend, h.entered⟩
  · rintro (⟨rfl, rfl⟩ | h)
    · exact ⟨by rw [descend_cons, if_pos rfl]; rfl, by simp⟩
    · exact leads_rest hnew h

/-- The ways through a folder that has another folder first. -/
theorem leads_folder_iff (hnew : name ∉ rest.map Prod.fst) :
    Folder.Leads ((name, .folder entries) :: rest) way content ↔
      (isSkippedFolder name = false ∧ ∃ names, way = name :: names ∧
        Folder.Leads entries names content) ∨ Folder.Leads rest way content := by
  constructor
  · intro h
    obtain ⟨n, names, rfl, -⟩ := h.exists_cons
    have hdescend := h.descend_eq
    rw [descend_cons] at hdescend
    split at hdescend
    · rename_i hn
      subst hn
      -- the way goes on, as it ends at a file
      obtain ⟨n', names, rfl⟩ : ∃ n' names', names = n' :: names' := by
        cases names with
        | nil => cases hdescend
        | cons n' names => exact ⟨n', names, rfl⟩
      exact Or.inl ⟨h.entered n (by simp), n' :: names, rfl, hdescend,
        fun name hname => h.entered name (by simp [hname])⟩
    · exact Or.inr ⟨hdescend, h.entered⟩
  · rintro (⟨hname, names, rfl, h⟩ | h)
    · obtain ⟨n, names, rfl, -⟩ := h.exists_cons
      refine ⟨by rw [descend_cons, if_pos rfl, h.descend_eq], ?_⟩
      rw [List.dropLast_cons_of_ne_nil (by simp), List.forall_mem_cons]
      exact ⟨hname, h.entered⟩
    · exact leads_rest hnew h

/-- The names on a way of a walk stand for themselves: the folder around another one is hidden. -/
theorem Folder.Leads.isName (hfolder : Folder.WellFormed folder)
    (h : Folder.Leads folder way content) : ∀ name ∈ way, Path.IsName name := by
  induction hfolder generalizing way with
  | nil => exact absurd h not_leads_nil
  | file hname hnew _ ih =>
    rcases (leads_file_iff hnew).mp h with ⟨rfl, -⟩ | hrest
    · simpa using hname
    · exact ih hrest
  | folder hname hnew _ _ ihentries ihrest =>
    rcases (leads_folder_iff hnew).mp h with ⟨hentered, names, rfl, hnames⟩ | hrest
    · exact List.forall_mem_cons.mpr ⟨isName_of_entered hname hentered, ihentries hnames⟩
    · exact ihrest hrest

/-- **The files below a folder** are those at the end of a way through folders that are entered,
each under the names of its way. -/
theorem mem_filesBelow_iff (hfolder : Folder.WellFormed folder) :
    (p, content) ∈ filesBelow path folder ↔
      ∃ way, Folder.Leads folder way content ∧ p = way.foldl Path.join path := by
  induction hfolder generalizing path with
  | nil =>
    simp only [filesBelow, List.not_mem_nil, false_iff, not_exists, not_and]
    exact fun way h => absurd h not_leads_nil
  | file _ hnew _ ih =>
    simp only [filesBelow, List.mem_cons, ih, leads_file_iff hnew, Prod.mk.injEq]
    constructor
    · rintro (⟨rfl, rfl⟩ | ⟨way, h, rfl⟩)
      · exact ⟨_, Or.inl ⟨rfl, rfl⟩, rfl⟩
      · exact ⟨way, Or.inr h, rfl⟩
    · rintro ⟨way, ⟨rfl, rfl⟩ | h, rfl⟩
      · exact Or.inl ⟨rfl, rfl⟩
      · exact Or.inr ⟨way, h, rfl⟩
  | @folder name entries rest _ hnew _ _ ihentries ihrest =>
    have hentries : (p, content) ∈ (if isSkippedFolder name then [] else
        filesBelow (Path.join path name) entries) ↔ isSkippedFolder name = false ∧
          ∃ names, Folder.Leads entries names content ∧
            p = names.foldl Path.join (Path.join path name) := by
      split
      · rename_i hskipped
        simp [hskipped]
      · rename_i hentered
        rw [ihentries]
        simp [hentered]
    simp only [filesBelow, List.mem_append, hentries, ihrest, leads_folder_iff hnew]
    constructor
    · rintro (⟨hentered, names, h, rfl⟩ | ⟨way, h, rfl⟩)
      · exact ⟨name :: names, Or.inl ⟨hentered, names, rfl, h⟩, rfl⟩
      · exact ⟨way, Or.inr h, rfl⟩
    · rintro ⟨way, ⟨hentered, names, rfl, h⟩ | h, rfl⟩
      · exact Or.inl ⟨hentered, names, h, rfl⟩
      · exact Or.inr ⟨way, h, rfl⟩

/-- The components of a file's path tell the way to it. -/
theorem components_of_mem_filesBelow (hfolder : Folder.WellFormed folder) (hpath : path ≠ "")
    {f : String × List UInt8} (h : f ∈ filesBelow path folder) :
    ∃ n behind, Path.components f.1 = Path.components path ++ .normal n :: behind ∧
      n ∈ folder.map Prod.fst := by
  obtain ⟨way, hleads, hf⟩ := (mem_filesBelow_iff hfolder).mp h
  obtain ⟨n, names, rfl, hn⟩ := hleads.exists_cons
  rw [hf, Path.components_foldl_join hpath (hleads.isName hfolder)]
  exact ⟨n, _, rfl, hn⟩

/-- A path with another name than those of a folder is no path below it. -/
theorem components_ne_of_mem (hrest : Folder.WellFormed rest) (hnew : name ∉ rest.map Prod.fst)
    (hpath : path ≠ "") {g : String × List UInt8} (hg : g ∈ filesBelow path rest)
    (behind : List Path.Component) :
    Path.components path ++ .normal name :: behind ≠ Path.components g.1 := by
  intro heq
  obtain ⟨n, behind', hcomponents, hn⟩ := components_of_mem_filesBelow hrest hpath hg
  rw [hcomponents, List.append_cancel_left_eq, List.cons.injEq, Path.Component.normal.injEq] at heq
  exact hnew (heq.1 ▸ hn)

/-- **No two files below a folder have paths with the same components.** -/
theorem pairwise_filesBelow (hfolder : Folder.WellFormed folder) (hpath : path ≠ "") :
    (filesBelow path folder).Pairwise fun f g => Path.components f.1 ≠ Path.components g.1 := by
  induction hfolder generalizing path with
  | nil =>
    rw [filesBelow]
    exact .nil
  | file hname hnew hrest ih =>
    rw [filesBelow]
    refine List.pairwise_cons.mpr ⟨fun g hg => ?_, ih hpath⟩
    rw [Path.components_join hpath hname]
    exact components_ne_of_mem hrest hnew hpath hg []
  | folder hname hnew hentries hrest ihentries ihrest =>
    rw [filesBelow]
    split
    · exact ihrest hpath
    · rename_i hentered
      replace hname := isName_of_entered hname (Bool.not_eq_true _ ▸ hentered)
      have hjoin : Path.join path _ ≠ "" := Path.join_ne_empty hname
      refine List.pairwise_append.mpr ⟨ihentries hjoin, ihrest hpath, fun f hf g hg => ?_⟩
      obtain ⟨n, behind, hf, -⟩ := components_of_mem_filesBelow hentries hjoin hf
      rw [hf, Path.components_join hpath hname, List.append_assoc]
      exact components_ne_of_mem hrest hnew hpath hg _

/-- The files below a folder are those of its first entry and those of the rest. -/
theorem filesBelow_cons (path : String) (first : String × Entry) (rest : Folder) :
    filesBelow path (first :: rest) = filesBelow path [first] ++ filesBelow path rest := by
  obtain ⟨name, entry⟩ := first
  cases entry with
  | file content => simp [filesBelow]
  | folder entries => simp [filesBelow]

/-- The files below a folder do not depend on how entries are listed. -/
theorem Folder.Rearranged.perm {f g : Folder} (h : Folder.Rearranged f g) (path : String) :
    (filesBelow path f).Perm (filesBelow path g) := by
  induction h generalizing path with
  | nil => exact .refl _
  | file _ ih =>
    rw [filesBelow, filesBelow]
    exact (ih path).cons _
  | folder _ _ ihentries ihrest =>
    rw [filesBelow, filesBelow]
    refine List.Perm.append ?_ (ihrest path)
    split
    · exact .refl _
    · exact ihentries _
  | swap first second rest =>
    have hpair : ∀ a b, filesBelow path (a :: b :: rest) =
        filesBelow path [a] ++ filesBelow path [b] ++ filesBelow path rest := by
      intro a b
      rw [filesBelow_cons, filesBelow_cons path b rest, List.append_assoc]
    rw [hpair, hpair]
    exact List.perm_append_comm.append_right _
  | trans _ _ ihf ihg => exact (ihf path).trans (ihg path)

end Folders

/-! ### Files that are taken -/

/-- A way leads to a file that a walk is to take: no folder on the way is hidden or one of build
products, the extension is asked for, the path is not excluded, and the content is a text. -/
structure Wanted (s : Selection) (root : String) (folder : Folder) (way : Location)
    (text : String) : Prop where
  descend_eq : Entry.descend way (.folder folder) = some (.file (encode text.toList))
  entered : ∀ name ∈ way.dropLast,
    name.toList.head? ≠ some '.' ∧ name ∉ ["build", "target", "out", "node_modules"]
  extension_mem : ∃ ext ∈ s.extensions, Path.HasExtension (way.getLastD "") ext
  not_excluded : s.excluded (way.foldl Path.join root) = false

/-- The source file at the end of a way: its path is walked name by name, and it is reported under
the last name. -/
def SourceFile.behind (root : String) (way : Location) (text : String) : SourceFile :=
  ⟨way.foldl Path.join root, way.getLastD "", text⟩

section Files

variable {s : Selection} {root text : String} {folder folder' : Folder} {way : Location}
  {content : List UInt8}

/-- The file at the end of a way has the last name of the way. -/
theorem fileName?_of_leads (hroot : root ≠ "") (hfolder : Folder.WellFormed folder)
    (h : Folder.Leads folder way content) :
    Path.fileName? (way.foldl Path.join root) = some (way.getLastD "") := by
  have hcomponents := Path.components_foldl_join hroot (h.isName hfolder)
  obtain ⟨front, last, rfl⟩ : ∃ front last, way = front ++ [last] := by
    obtain ⟨n, names, rfl, -⟩ := h.exists_cons
    exact List.eq_nil_or_concat' _ |>.resolve_left (by simp)
  rw [List.map_append, ← List.append_assoc] at hcomponents
  rw [Path.fileName?_of_components hcomponents]
  simp

theorem ofContent?_eq_some_iff {f : String × List UInt8} {file : SourceFile} :
    SourceFile.ofContent? f = some file ↔
      ∃ text : String, f.2 = encode text.toList ∧ SourceFile.at f.1 text = file := by
  simp only [SourceFile.ofContent?, Option.map_eq_some_iff, decode?_eq_some_iff]
  constructor
  · rintro ⟨cs, hcs, rfl⟩
    exact ⟨String.ofList cs, by rw [hcs, String.toList_ofList], rfl⟩
  · rintro ⟨text, htext, rfl⟩
    exact ⟨text.toList, htext, by rw [String.ofList_toList]⟩

/-- A path is taken by the extension of its name unless it is excluded. -/
theorem Selection.wants_iff {path name : String} (hname : Path.fileName? path = some name) :
    s.wants path = true ↔
      (∃ ext ∈ s.extensions, Path.HasExtension name ext) ∧ s.excluded path = false := by
  rw [wants, Bool.and_eq_true, List.contains_iff_mem, Bool.not_eq_true']
  simp only [← Path.getD_extension?_eq_iff hname, exists_eq_right']

/-- What is wanted is what the walk comes to and the selection takes. -/
theorem wanted_iff (hroot : root ≠ "") (hfolder : Folder.WellFormed folder) :
    Wanted s root folder way text ↔
      Folder.Leads folder way (encode text.toList) ∧ s.wants (way.foldl Path.join root) = true := by
  constructor
  · rintro ⟨hdescend, hentered, hextension, hexcluded⟩
    have hleads : Folder.Leads folder way (encode text.toList) :=
      ⟨hdescend, fun name hname => isSkippedFolder_eq_false_iff.mpr (hentered name hname)⟩
    have hname := fileName?_of_leads hroot hfolder hleads
    exact ⟨hleads, (Selection.wants_iff hname).mpr ⟨hextension, hexcluded⟩⟩
  · rintro ⟨hleads, hwants⟩
    have hname := fileName?_of_leads hroot hfolder hleads
    obtain ⟨hextension, hexcluded⟩ := (Selection.wants_iff hname).mp hwants
    exact ⟨hleads.descend_eq,
      fun name hname => isSkippedFolder_eq_false_iff.mp (hleads.entered name hname),
      hextension, hexcluded⟩

/-- **A walk takes the wanted files and no others.** -/
theorem mem_files_iff (hroot : root ≠ "") (hfolder : Folder.WellFormed folder) {file : SourceFile} :
    file ∈ (selectedFiles s root folder).filterMap SourceFile.ofContent? ↔
      ∃ way text, Wanted s root folder way text ∧ file = .behind root way text := by
  have hat : ∀ {way content text}, Folder.Leads folder way content →
      SourceFile.at (way.foldl Path.join root) text = .behind root way text := by
    intro way content text hleads
    rw [SourceFile.at, Path.displayName, fileName?_of_leads hroot hfolder hleads]
    rfl
  simp only [List.mem_filterMap, ofContent?_eq_some_iff, selectedFiles, List.mem_mergeSort,
    List.mem_filter, wanted_iff hroot hfolder]
  constructor
  · rintro ⟨⟨path, content⟩, ⟨hmem, hwants⟩, text, rfl, rfl⟩
    obtain ⟨way, hleads, rfl⟩ := (mem_filesBelow_iff hfolder).mp hmem
    exact ⟨way, text, ⟨hleads, hwants⟩, hat hleads⟩
  · rintro ⟨way, text, ⟨hleads, hwants⟩, rfl⟩
    exact ⟨(way.foldl Path.join root, encode text.toList),
      ⟨(mem_filesBelow_iff hfolder).mpr ⟨way, hleads, rfl⟩, hwants⟩, text, rfl, hat hleads⟩

/-- A source file tells the way to it. -/
theorem Wanted.unique {way' : Location} {text' : String} (hroot : root ≠ "")
    (hfolder : Folder.WellFormed folder) (h : Wanted s root folder way text)
    (h' : Wanted s root folder way' text')
    (heq : SourceFile.behind root way text = .behind root way' text') :
    way = way' ∧ text = text' := by
  have hnames := ((wanted_iff hroot hfolder).mp h).1.isName hfolder
  have hnames' := ((wanted_iff hroot hfolder).mp h').1.isName hfolder
  obtain ⟨hpath, -, htext⟩ := SourceFile.mk.injEq .. ▸ heq
  have hcomponents := congrArg Path.components hpath
  rw [Path.components_foldl_join hroot hnames, Path.components_foldl_join hroot hnames',
    List.append_cancel_left_eq] at hcomponents
  refine ⟨List.map_injective_iff.mpr (fun a b hab => ?_) hcomponents, htext⟩
  exact Path.Component.normal.inj hab

/-! ### The order of files -/

instance : Std.TransCmp fun f g : String × List UInt8 => Path.compare f.1 g.1 where
  eq_swap {f g} := Std.OrientedCmp.eq_swap (a := f.1) (b := g.1)
  isLE_trans {f g h} := Std.TransCmp.isLE_trans (a := f.1) (b := g.1) (c := h.1)

/-- The files to be sorted have no ties. -/
theorem pairwise_wanted (hroot : root ≠ "") (hfolder : Folder.WellFormed folder) :
    ((filesBelow root folder).filter fun f => s.wants f.1).Pairwise
      fun f g => Path.compare f.1 g.1 ≠ .eq := by
  refine ((pairwise_filesBelow hfolder hroot).filter _).imp fun {f g} hne => ?_
  rwa [ne_eq, Path.compare_eq_eq_iff]

/-- **Files come in the strict order of their paths.** -/
theorem pairwise_files (hroot : root ≠ "") (hfolder : Folder.WellFormed folder) :
    ((selectedFiles s root folder).filterMap SourceFile.ofContent?).Pairwise
      fun f g => Path.Before f.path g.path := by
  refine (pairwise_mergeSort_lt (pairwise_wanted hroot hfolder)).filterMap _ ?_
  intro f g hlt file hfile file' hfile'
  obtain ⟨text, -, rfl⟩ := ofContent?_eq_some_iff.mp hfile
  obtain ⟨text', -, rfl⟩ := ofContent?_eq_some_iff.mp hfile'
  exact Path.compare_eq_lt_iff.mp hlt

/-- **The order in which entries are listed does not matter.** -/
theorem selectedFiles_eq_of_rearranged (hroot : root ≠ "") (hfolder : Folder.WellFormed folder)
    (h : Folder.Rearranged folder folder') :
    selectedFiles s root folder' = selectedFiles s root folder := by
  have hperm := ((h.perm root).filter fun f => s.wants f.1)
  have hpairwise := pairwise_wanted (s := s) hroot hfolder
  refine mergeSort_eq_of_mem_iff ?_ hpairwise fun f => hperm.symm.mem_iff
  exact hperm.pairwise hpairwise fun hne heq => hne (Std.OrientedCmp.eq_symm heq)

end Files

/-! ### What a system denies -/

section Denial

variable {a : Access} {fs : List (String × List UInt8)} {files : List SourceFile}

/-- **Files are read** if none of them is denied, and then all that are texts. -/
theorem readFiles_eq_ok_iff :
    readFiles a fs = .ok files ↔
      (∀ f ∈ fs, a.reading f.1 = none) ∧ files = fs.filterMap SourceFile.ofContent? := by
  induction fs generalizing files with
  | nil => simp [readFiles, eq_comm]
  | cons f fs ih =>
    have hfirst : (f :: fs).filterMap SourceFile.ofContent? =
        (SourceFile.ofContent? f).toList ++ fs.filterMap SourceFile.ofContent? := by
      cases hfile : SourceFile.ofContent? f <;> simp [hfile]
    have hrest : (readFiles a fs).map ((SourceFile.ofContent? f).toList ++ ·) = .ok files ↔
        ∃ rest, readFiles a fs = .ok rest ∧ files = (SourceFile.ofContent? f).toList ++ rest := by
      cases readFiles a fs <;> simp [Except.map, eq_comm]
    rw [readFiles, List.forall_mem_cons, hfirst]
    cases hdenial : a.reading f.1 with
    | some e => simp
    | none =>
      rw [hrest]
      constructor
      · rintro ⟨rest, hread, rfl⟩
        obtain ⟨hall, rfl⟩ := ih.mp hread
        exact ⟨⟨rfl, hall⟩, rfl⟩
      · rintro ⟨⟨-, hall⟩, hfiles⟩
        exact ⟨_, ih.mpr ⟨hall, rfl⟩, hfiles⟩

theorem readFiles_full : readFiles .full fs = .ok (fs.filterMap SourceFile.ofContent?) :=
  readFiles_eq_ok_iff.mpr ⟨fun f _ => Access.reading_full f.1, rfl⟩

theorem unlisted?_full (path : String) (folder : Folder) : unlisted? .full path folder = none := by
  fun_induction unlisted? .full path folder with
  | case1 => rfl
  | case2 path name content rest ih => exact ih
  | case3 path name entries rest below inside hinside hrest =>
    have hnone : inside = none := by simp [inside, hinside]
    rw [hnone, hrest]
    rfl

end Denial

namespace FileTree

variable {t : FileTree} {s : Selection} {root : String} {l : Location} {folder : Folder}

theorem sources_of_locate (h : t.locate root = .ok (l, .folder folder)) :
    t.sources s root = .ok ((selectedFiles s root folder).filterMap SourceFile.ofContent?) := by
  simp only [sources, sourcesWith, h, unlisted?_full, readFiles_full, Access.listing_full,
    Option.map_none, Option.or_none]

/-- **What a system denies can only end a walk.** A walk that comes to its end has found the same
files as one to which nothing is denied. -/
theorem sources_of_sourcesWith {a : Access} {files : List SourceFile}
    (h : t.sourcesWith a s root = .ok files) : t.sources s root = .ok files := by
  unfold sourcesWith at h
  split at h
  · cases h
  · rename_i l content hlocate
    rw [sources, sourcesWith, hlocate, (readFiles_eq_ok_iff.mp h).2]
    exact readFiles_full
  · rename_i l entries hlocate
    split at h
    · cases h
    · rw [sources_of_locate hlocate, (readFiles_eq_ok_iff.mp h).2]

theorem ne_empty_of_locate {place : Location × Entry} (h : t.locate root = .ok place) :
    root ≠ "" := by
  rintro rfl
  cases h

/-- **A walk takes every wanted file once and no other, in the order of their paths.** Under a path
that leads to a folder, each wanted file comes exactly once, each file that comes is the one at the
end of exactly one way and carries the text of that file, and paths increase strictly, component by
component. All this is the same for every tree whose folder under the path differs only in the order
in which entries are listed. -/
theorem sources_exact {t : FileTree} {s : Selection} {root : String} {l : Location}
    {folder : Folder} (hroot : t.locate root = .ok (l, .folder folder))
    (hfolder : Folder.WellFormed folder) :
    ∃ files, t.sources s root = .ok files ∧
      (∀ way text, Wanted s root folder way text → files.count (.behind root way text) = 1) ∧
      (∀ f ∈ files, ∃! w : Location × String,
        Wanted s root folder w.1 w.2 ∧ f = .behind root w.1 w.2) ∧
      files.Pairwise (fun f g => Path.Before f.path g.path) ∧
      ∀ (t' : FileTree) l' folder', t'.locate root = .ok (l', .folder folder') →
        Folder.Rearranged folder folder' → t'.sources s root = .ok files := by
  have hne := ne_empty_of_locate hroot
  have hordered := pairwise_files (s := s) hne hfolder
  refine ⟨_, sources_of_locate hroot, fun way text hwanted => ?_, fun f hf => ?_, hordered, ?_⟩
  · have hnodup : ((selectedFiles s root folder).filterMap SourceFile.ofContent?).Nodup := by
      refine hordered.imp fun {f g} hbefore heq => ?_
      rw [heq, ← Path.compare_eq_lt_iff] at hbefore
      exact absurd (Path.compare_eq_eq_iff.mpr rfl) (by rw [hbefore]; decide)
    exact List.count_eq_one_of_mem hnodup ((mem_files_iff hne hfolder).mpr ⟨way, text, hwanted, rfl⟩)
  · obtain ⟨way, text, hwanted, rfl⟩ := (mem_files_iff hne hfolder).mp hf
    refine ⟨(way, text), ⟨hwanted, rfl⟩, fun ⟨way', text'⟩ ⟨hwanted', heq⟩ => ?_⟩
    obtain ⟨rfl, rfl⟩ := hwanted.unique hne hfolder hwanted' heq
    rfl
  · intro t' l' folder' hroot' hrearranged
    rw [sources_of_locate hroot', selectedFiles_eq_of_rearranged hne hfolder hrearranged]

/-- A folder and a file whose names start alike, listed in two ways; one of the files is no text. -/
theorem sources_exact_rearranged :
    ∃ files, sources ⟨[("a.kt", .file [121]), ("a", .folder [("X.kt", .file [120]),
        ("b.kt", .file [255])])], []⟩ ⟨["kt"], fun _ => false⟩ "." = .ok files ∧
      files.count (.behind "." ["a", "X.kt"] "x") = 1 ∧
      sources ⟨[("a", .folder [("b.kt", .file [255]), ("X.kt", .file [120])]),
        ("a.kt", .file [121])], []⟩ ⟨["kt"], fun _ => false⟩ "." = .ok files := by
  have hname : ∀ name ∈ ["a", "a.kt", "b.kt", "X.kt"], Path.IsName name := by
    intro name hname
    have hplain : name ≠ "" ∧ name ≠ "." ∧ name ≠ ".." ∧ '/' ∉ name.toList := by
      revert name
      decide
    exact ⟨hplain.1, hplain.2.1, hplain.2.2.1, hplain.2.2.2⟩
  have hinner : Folder.WellFormed [("X.kt", .file [120]), ("b.kt", .file [255])] :=
    .file (hname _ (by simp)) (by simp) (.file (hname _ (by simp)) (by simp) .nil)
  have hfolder : Folder.WellFormed [("a.kt", .file [121]),
      ("a", .folder [("X.kt", .file [120]), ("b.kt", .file [255])])] :=
    .file (hname _ (by simp)) (by simp) (.folder (Or.inl (hname _ (by simp))) (by simp) hinner .nil)
  have hroot : FileTree.locate ⟨[("a.kt", .file [121]), ("a", .folder [("X.kt", .file [120]),
      ("b.kt", .file [255])])], []⟩ "." = .ok ([], .folder [("a.kt", .file [121]),
        ("a", .folder [("X.kt", .file [120]), ("b.kt", .file [255])])]) := rfl
  obtain ⟨files, hfiles, hcount, -, -, hsame⟩ := sources_exact (s := ⟨["kt"], fun _ => false⟩) hroot hfolder
  refine ⟨files, hfiles, hcount _ _ ?_, hsame _ [] _ rfl ?_⟩
  · exact ⟨rfl, by decide, ⟨"kt", by decide, Or.inl ⟨"X", by decide, by decide, by decide⟩⟩, by simp⟩
  · exact .trans (.swap _ _ _) (.folder (.swap _ _ _) (.file .nil))

end FileTree

end Telemetry
