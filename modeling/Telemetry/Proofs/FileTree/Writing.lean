import Mathlib.Data.List.Basic
import Mathlib.Tactic.SplitIfs
import Telemetry.FileTree.Basic
import Telemetry.Proofs.Path

/-!
What a written file changes in a tree.

An operation on paths sees of an entry whether it is a folder or what it holds as a file, its `View`.
Writing a file puts an entry at one location, below a folder that is there and in place of no
folder. `DifferAt l t t'` says that two trees agree on all views but the one at `l`, where neither
has a folder.

* `descend_putAt_self`, `view_descend_putAt` — an entry that is put at a location is found there,
  and every other location has the view that it had.
* `DifferAt.foldlM_step` — no path leads through the location where two trees differ.
* `write_frame` — after a write, every path shows what it showed before, or it leads to the file
  that was written; and the path of the file does.
-/

namespace Telemetry

/-- What is seen of an entry from outside. -/
inductive View where
  | file (content : List UInt8)
  | folder
  deriving DecidableEq, Repr

/-- The view of an entry. -/
def Entry.view : Entry → View
  | .file content => .file content
  | .folder _ => .folder

/-! ### Entries of a folder -/

section Folders

variable {f entries : Folder} {name : String} {e : Entry} {l parent : Location}

theorem lookup_cons_eq (f : Folder) (name : String) (e : Entry) (n : String) :
    List.lookup n ((name, e) :: f) = if n = name then some e else f.lookup n := by
  rw [List.lookup_cons]
  by_cases hn : n = name
  · simp [hn]
  · rw [beq_eq_false_iff_ne.mpr hn, if_neg hn]

theorem lookup_eq_none_of_not_any (h : ¬ f.any (·.1 == name) = true) : f.lookup name = none := by
  refine List.lookup_eq_none_iff.mpr fun p hp => bne_iff_ne.mpr ?_
  rintro rfl
  exact h (List.any_eq_true.mpr ⟨p, hp, beq_self_eq_true _⟩)

/-- Putting an entry under one of several names, in place of what is there. -/
theorem lookup_replace (f : Folder) (name : String) (e : Entry) (n : String) :
    List.lookup n (f.map fun p => if p.1 == name then (name, e) else p) =
      if n = name ∧ f.any (·.1 == name) = true then some e else f.lookup n := by
  induction f with
  | nil => simp
  | cons p f ih =>
    obtain ⟨m, e'⟩ := p
    rw [List.map_cons, List.any_cons, lookup_cons_eq]
    by_cases hm : m = name
    · subst hm
      rw [beq_self_eq_true, if_pos rfl, lookup_cons_eq, ih]
      by_cases hn : n = m
      · simp [hn]
      · simp [hn]
    · rw [beq_eq_false_iff_ne.mpr hm, if_neg Bool.false_ne_true, lookup_cons_eq, ih, Bool.false_or]
      by_cases hn : n = m
      · subst hn
        simp [hm]
      · simp [hn]

/-- **A folder with an entry put under a name** has it there, and nothing else has changed. -/
theorem lookup_put (f : Folder) (name : String) (e : Entry) (n : String) :
    (f.put name e).lookup n = if n = name then some e else f.lookup n := by
  unfold Folder.put
  split
  · rename_i hthere
    rw [lookup_replace]
    simp only [hthere, and_true]
  · rename_i hnew
    rw [List.lookup_append, lookup_cons_eq, List.lookup_nil]
    split_ifs with hn
    · rw [hn, lookup_eq_none_of_not_any hnew, Option.none_or]
    · rw [Option.or_none]

theorem descend_folder_cons (names : Location) :
    Entry.descend (name :: names) (.folder f) = (f.lookup name).bind (Entry.descend names) := rfl

theorem putAt_cons (hl : l ≠ []) :
    Folder.putAt e (name :: l) f =
      match f.lookup name with
      | some (.folder entries) => f.put name (.folder (Folder.putAt e l entries))
      | _ => f := by
  cases l with
  | nil => exact absurd rfl hl
  | cons n l => rfl

/-- An entry that is put below a folder is found there. -/
theorem descend_putAt_self (hparent : Entry.descend parent (.folder f) = some (.folder entries)) :
    Entry.descend (parent ++ [name]) (.folder (Folder.putAt e (parent ++ [name]) f)) = some e := by
  induction parent generalizing f with
  | nil =>
    have hput : Folder.putAt e [name] f = f.put name e := rfl
    rw [List.nil_append, hput, descend_folder_cons, lookup_put, if_pos rfl]
    rfl
  | cons n parent ih =>
    rw [descend_folder_cons] at hparent
    obtain ⟨e', hlookup, hdescend⟩ := Option.bind_eq_some_iff.mp hparent
    cases e' with
    | file content => cases parent <;> cases hdescend
    | folder inner =>
      rw [List.cons_append, putAt_cons (by simp), hlookup]
      simp only [descend_folder_cons, lookup_put, if_true, Option.bind_some]
      exact ih hdescend

/-- **Every other location has the view that it had**, when a file is put in place of no folder. -/
theorem view_descend_putAt {content : List UInt8} (hl : l ≠ parent ++ [name])
    (hplace : ∀ entries, Entry.descend (parent ++ [name]) (.folder f) ≠ some (.folder entries)) :
    (Entry.descend l (.folder (Folder.putAt (.file content) (parent ++ [name]) f))).map Entry.view =
      (Entry.descend l (.folder f)).map Entry.view := by
  induction parent generalizing f l with
  | nil =>
    have hput : Folder.putAt (.file content) [name] f = f.put name (.file content) := rfl
    rw [List.nil_append] at hl hplace ⊢
    rw [hput]
    cases l with
    | nil => rfl
    | cons n l =>
      rw [descend_folder_cons, descend_folder_cons, lookup_put]
      split
      · -- below the file there is nothing, and before there was no folder to hold anything
        rename_i hn
        subst hn
        obtain ⟨n', l, rfl⟩ := List.exists_cons_of_ne_nil (show l ≠ [] by rintro rfl; exact hl rfl)
        cases hlookup : f.lookup n with
        | none => rfl
        | some e =>
          cases e with
          | file content' => rfl
          | folder entries => exact absurd (by rw [descend_folder_cons, hlookup]; rfl) (hplace entries)
      · rfl
  | cons p parent ih =>
    rw [List.cons_append] at hl hplace ⊢
    rw [putAt_cons (by simp)]
    split
    · rename_i entries hlookup
      cases l with
      | nil => rfl
      | cons n l =>
        rw [descend_folder_cons, descend_folder_cons, lookup_put]
        split
        · rename_i hn
          subst hn
          rw [descend_folder_cons, hlookup] at hplace
          rw [hlookup, Option.bind_some, Option.bind_some]
          exact ih (fun heq => hl (by rw [heq])) hplace
        · rfl
    · rfl

end Folders

namespace FileTree

/-! ### Locations of a tree -/

/-- The view of what stands at a location. -/
def viewAt? (t : FileTree) (l : Location) : Option View :=
  (t.entryAt? l).map Entry.view

section Locations

variable {t t' : FileTree} {l l' parent : Location} {name : String}

theorem viewAt?_eq_folder_iff :
    t.viewAt? l = some .folder ↔ ∃ entries, t.entryAt? l = some (.folder entries) := by
  unfold viewAt?
  cases t.entryAt? l with
  | none => simp
  | some e => cases e <;> simp [Entry.view]

/-- A file that is put below a folder is found there. -/
theorem entryAt?_put_self {entries : Folder} {e : Entry}
    (hparent : t.entryAt? parent = some (.folder entries)) :
    (t.put (parent ++ [name]) e).entryAt? (parent ++ [name]) = some e := by
  unfold entryAt? put
  cases parent with
  | nil =>
    have hroot : ∀ f : Folder, Entry.descend [] (.folder f) = some (.folder f) := fun f => rfl
    split
    · exact descend_putAt_self (hroot _)
    · exact descend_putAt_self (hroot _)
  | cons n parent =>
    have hside : isElsewhere (n :: parent ++ [name]) = isElsewhere (n :: parent) := rfl
    rw [entryAt?, ← hside] at hparent
    split
    · rename_i helse
      rw [if_pos helse] at hparent
      exact descend_putAt_self hparent
    · rename_i helse
      rw [if_neg helse] at hparent
      exact descend_putAt_self hparent

/-- **Every other location has the view that it had**, when a file is put in place of no folder. -/
theorem viewAt?_put_of_ne {content : List UInt8} (hl : l ≠ parent ++ [name])
    (hplace : t.viewAt? (parent ++ [name]) ≠ some .folder) :
    (t.put (parent ++ [name]) (.file content)).viewAt? l = t.viewAt? l := by
  rw [ne_eq, viewAt?_eq_folder_iff, not_exists] at hplace
  simp only [viewAt?, put]
  by_cases hside : isElsewhere (parent ++ [name]) = true
  · simp only [entryAt?, hside, if_true] at hplace ⊢
    split
    · exact view_descend_putAt hl hplace
    · rfl
  · simp only [entryAt?, hside, Bool.false_eq_true, if_false] at hplace ⊢
    split
    · rfl
    · exact view_descend_putAt hl hplace

/-- A step looks at the view of the place where it starts. -/
theorem step_congr (h : t.viewAt? l = t'.viewAt? l) : t.step l name = t'.step l name := by
  unfold viewAt? at h
  unfold step
  cases he : t.entryAt? l with
  | none =>
    rw [he] at h
    rw [Option.map_eq_none_iff.mp h.symm]
  | some e =>
    rw [he] at h
    obtain ⟨e', he', hview⟩ := Option.map_eq_some_iff.mp h.symm
    rw [he']
    cases e with
    | file content =>
      cases e' with
      | file content' => rfl
      | folder entries' => cases hview
    | folder entries =>
      cases e' with
      | file content' => cases hview
      | folder entries' => rfl

/-- A step starts from a folder. -/
theorem viewAt?_of_step (h : t.step l name = .ok l') : t.viewAt? l = some .folder := by
  unfold step at h
  unfold viewAt?
  split at h
  · cases h
  · cases h
  · rename_i entries he
    rw [he]
    rfl

/-- Two trees have the same views but at one location, where neither has a folder. -/
structure DifferAt (l : Location) (t t' : FileTree) : Prop where
  viewAt?_eq : ∀ l', l' ≠ l → t.viewAt? l' = t'.viewAt? l'
  left : t.viewAt? l ≠ some .folder
  right : t'.viewAt? l ≠ some .folder

theorem DifferAt.symm (h : DifferAt l t t') : DifferAt l t' t :=
  ⟨fun l' hl' => (h.viewAt?_eq l' hl').symm, h.right, h.left⟩

/-- **No path leads through the location where two trees differ.** -/
theorem DifferAt.foldlM_step (h : DifferAt l t t') {names : List String} {start : Location}
    (hwalk : names.foldlM t.step start = .ok l') : names.foldlM t'.step start = .ok l' := by
  induction names generalizing start with
  | nil => exact hwalk
  | cons name names ih =>
    rw [List.foldlM_cons] at hwalk ⊢
    cases hstep : t.step start name with
    | error e =>
      rw [hstep] at hwalk
      cases hwalk
    | ok next =>
      have hstart : start ≠ l := by
        rintro rfl
        exact h.left (viewAt?_of_step hstep)
      rw [hstep] at hwalk
      rw [← step_congr (h.viewAt?_eq start hstart), hstep]
      exact ih hwalk

end Locations

/-! ### Paths -/

/-- The location that the steps of a path lead to. -/
def walk (t : FileTree) (path : String) : Except FileError Location :=
  (startOf path).2.foldlM t.step (startOf path).1

/-- What a path shows: the view of what it leads to, if it leads anywhere. -/
def look? (t : FileTree) (path : String) : Option View :=
  (t.locate path).toOption.map fun place => place.2.view

section Paths

variable {t t' : FileTree} {l : Location} {e : Entry} {path p last : String}
  {parents : List String}

theorem locate_eq_ok_iff : t.locate path = .ok (l, e) ↔
    pathError? path = none ∧ t.walk path = .ok l ∧ t.entryAt? l = some e := by
  unfold locate walk
  cases pathError? path with
  | some error => simp
  | none =>
    simp only [true_and]
    cases (startOf path).2.foldlM t.step (startOf path).1 with
    | error error => simp
    | ok l' =>
      simp only [Except.ok.injEq]
      constructor
      · intro h
        split at h
        · rename_i e' he'
          cases h
          exact ⟨rfl, he'⟩
        · cases h
      · rintro ⟨rfl, he⟩
        rw [he]

theorem look?_eq_some_iff {v : View} : t.look? path = some v ↔
    pathError? path = none ∧ ∃ l, t.walk path = .ok l ∧ t.viewAt? l = some v := by
  unfold look? viewAt?
  constructor
  · intro h
    obtain ⟨⟨l, e⟩, hplace, hview⟩ := Option.map_eq_some_iff.mp h
    cases hlocate : t.locate path with
    | error error => rw [hlocate] at hplace; cases hplace
    | ok place =>
      rw [hlocate] at hplace
      cases hplace
      obtain ⟨herror, hwalk, he⟩ := locate_eq_ok_iff.mp hlocate
      exact ⟨herror, l, hwalk, by rw [he, ← hview]; rfl⟩
  · rintro ⟨herror, l, hwalk, hview⟩
    obtain ⟨e, he, rfl⟩ := Option.map_eq_some_iff.mp hview
    rw [locate_eq_ok_iff.mpr ⟨herror, hwalk, he⟩]
    rfl

/-- A path that does not end with a slash ends with a step. -/
theorem exists_last_step (hpath : path ≠ "") (hslash : path.endsWith "/" = false) :
    ∃ parents last, (startOf path).2 = parents ++ [last] ∧ last ≠ "" := by
  obtain ⟨front, last, hsegments, hlast⟩ := Path.exists_last_segment hpath hslash
  unfold startOf
  rw [hsegments]
  cases front with
  | nil => exact ⟨[], last, by simp [hlast], hlast⟩
  | cons first front =>
    by_cases hfirst : first = ""
    · subst hfirst
      exact ⟨front, last, rfl, hlast⟩
    · exact ⟨first :: front, last, by simp [hfirst], hlast⟩

theorem splitLast_concat (hlast : last ≠ "") :
    splitLast (parents ++ [last]) = (parents, some last) := by
  simp [splitLast, hlast]

theorem parentOf_eq_ok_iff {start : Location} {names : List String} :
    t.parentOf start names = .ok l ↔
      names.foldlM t.step start = .ok l ∧ t.viewAt? l = some .folder := by
  unfold parentOf
  cases names.foldlM t.step start with
  | error error => simp
  | ok l' =>
    simp only [Except.ok.injEq]
    constructor
    · intro h
      have hfolder := viewAt?_of_step h
      unfold step at h
      split at h
      · cases h
      · cases h
      · rw [if_pos (by decide)] at h
        cases h
        exact ⟨rfl, hfolder⟩
    · rintro ⟨rfl, hfolder⟩
      obtain ⟨entries, hentries⟩ := viewAt?_eq_folder_iff.mp hfolder
      simp [step, hentries]

/-- A step under a proper name leads to the place of that name. -/
theorem eq_of_step {l' : Location} (h : t.step l last = .ok l') (hempty : last ≠ "")
    (hcurrent : last ≠ ".") (hparent : last ≠ "..") : l' = l ++ [last] := by
  unfold step at h
  split at h
  · cases h
  · cases h
  · simp only [hempty, hcurrent, hparent, decide_false, Bool.or_self, Bool.false_eq_true, if_false] at h
    split at h
    · cases h
    · exact (Except.ok.inj h).symm

/-- **Where a file is written**: behind the steps of its path, below a folder, and where there is no
folder. -/
theorem of_fileLocation (h : t.fileLocation path = .ok l) :
    pathError? path = none ∧ t.viewAt? l ≠ some .folder ∧
      ∃ parents last parent, (startOf path).2 = parents ++ [last] ∧
        parents.foldlM t.step (startOf path).1 = .ok parent ∧ t.viewAt? parent = some .folder ∧
        t.step parent last = .ok l ∧ l = parent ++ [last] := by
  unfold fileLocation at h
  cases herror : pathError? path with
  | some error => simp [herror] at h
  | none =>
    simp only [herror] at h
    by_cases hslash : path.endsWith "/" = true
    · -- every branch that is left fails
      simp only [hslash, Bool.true_or, if_true] at h
      split at h
      · cases h
      · split at h
        · cases h
        · cases h
    · have hpath : path ≠ "" := by
        rintro rfl
        cases herror
      obtain ⟨parents, last, hsteps, hlast⟩ := exists_last_step hpath (Bool.not_eq_true _ ▸ hslash)
      simp only [hsteps, splitLast_concat hlast] at h
      cases hparent : t.parentOf (startOf path).1 parents with
      | error error => simp [hparent] at h
      | ok parent =>
        obtain ⟨hwalk, hfolder⟩ := parentOf_eq_ok_iff.mp hparent
        simp only [hparent] at h
        split at h
        · cases h
        · rename_i hnames
          simp only [Bool.or_eq_true, decide_eq_true_eq, not_or] at hnames
          cases hstep : t.step parent last with
          | error error => simp [hstep] at h
          | ok l' =>
            simp only [hstep] at h
            split at h
            · cases h
            · rename_i hplace
              cases h
              refine ⟨rfl, ?_, parents, last, parent, hsteps, hwalk, hfolder, hstep,
                eq_of_step hstep hlast hnames.1.2 hnames.2⟩
              rw [ne_eq, viewAt?_eq_folder_iff]
              rintro ⟨entries, hentries⟩
              exact hplace entries hentries

theorem DifferAt.walk_iff {l' : Location} (h : DifferAt l t t') :
    t.walk p = .ok l' ↔ t'.walk p = .ok l' :=
  ⟨h.foldlM_step, h.symm.foldlM_step⟩

/-- Where two trees differ at one location, a path shows the same in both unless it leads there. -/
theorem DifferAt.look?_eq (h : DifferAt l t t') :
    t'.look? p = t.look? p ∨ pathError? p = none ∧ t'.walk p = .ok l := by
  by_cases hplace : pathError? p = none ∧ t'.walk p = .ok l
  · exact Or.inr hplace
  · refine Or.inl (Option.ext fun v => ?_)
    rw [look?_eq_some_iff, look?_eq_some_iff]
    refine and_congr_right fun herror => exists_congr fun l' => ?_
    rw [h.walk_iff]
    refine and_congr_right fun hwalk => ?_
    rw [h.viewAt?_eq l']
    rintro rfl
    exact hplace ⟨herror, hwalk⟩

/-- Writing a file changes one location. -/
theorem differAt_put (content : List UInt8) (h : t.fileLocation path = .ok l) :
    DifferAt l t (t.put l (.file content)) := by
  obtain ⟨-, hplace, -, last, parent, -, -, hparent, -, rfl⟩ := of_fileLocation h
  refine ⟨fun l' hl' => (viewAt?_put_of_ne hl' hplace).symm, hplace, ?_⟩
  obtain ⟨entries, hentries⟩ := viewAt?_eq_folder_iff.mp hparent
  rw [viewAt?, entryAt?_put_self hentries]
  exact fun hview => by cases hview

/-- A file that is written is found under its path. -/
theorem locate_put (content : List UInt8) (h : t.fileLocation path = .ok l) :
    (t.put l (.file content)).locate path = .ok (l, .file content) := by
  have hdiffer := differAt_put content h
  obtain ⟨herror, hplace, parents, last, parent, hsteps, hparents, hparent, hstep, rfl⟩ :=
    of_fileLocation h
  obtain ⟨entries, hentries⟩ := viewAt?_eq_folder_iff.mp hparent
  refine locate_eq_ok_iff.mpr ⟨herror, ?_, entryAt?_put_self hentries⟩
  rw [← hdiffer.walk_iff, walk, hsteps, List.foldlM_append, hparents]
  simp only [List.foldlM_cons, List.foldlM_nil, bind_pure]
  exact hstep

/-- **What a write changes.** The path of the file leads to the file, and every other path shows
what it showed before, unless it leads to the same file. -/
theorem write_frame {content : List UInt8} (h : t.write path content = .ok t') :
    ∃ l, t'.locate path = .ok (l, .file content) ∧
      ∀ p, t'.look? p = t.look? p ∨ t'.locate p = .ok (l, .file content) := by
  obtain ⟨l, hl, rfl⟩ : ∃ l, t.fileLocation path = .ok l ∧ t.put l (.file content) = t' := by
    unfold write at h
    cases hl : t.fileLocation path with
    | error error => rw [hl] at h; cases h
    | ok l => rw [hl] at h; exact ⟨l, rfl, Except.ok.inj h⟩
  have hwritten := locate_put content hl
  obtain ⟨-, -, hentry⟩ := locate_eq_ok_iff.mp hwritten
  refine ⟨l, hwritten, fun p => (differAt_put content hl).look?_eq.imp_right fun ⟨herror, hwalk⟩ => ?_⟩
  exact locate_eq_ok_iff.mpr ⟨herror, hwalk, hentry⟩

end Paths

end FileTree

end Telemetry
