import Telemetry.Report.Csv

/-!
The report as comma-separated values can be read back.

`read` is a reader of the format in its own right and knows nothing of the writer. It is a machine
with four places in a field. Outside quotes a comma ends a field and a newline a record; inside
quotes both are text, and a quote is written twice. A quote inside a bare field, text behind a
closing quote, a bare carriage return and a quote that is never closed are refused.

* `foldlM_escape` — a field that is written, quoted or not, is read back, whatever its characters.
* `foldlM_record` — a written record is read as one record, and the reader is at the start of a line
  again behind it, so no field can shift a later record.
* `read_render` — the report on a catalogue is read as the header and the rows.
-/

namespace Telemetry.Report.Csv

/-- Where a reader stands in a field. -/
inductive Place where
  /-- In front of the field. -/
  | start
  /-- In a field without quotes. -/
  | bare
  /-- Behind the quote that opens the field. -/
  | quoted
  /-- Behind a quote in a quoted field: it ends the field, or the next one makes it a pair. -/
  | closed
  deriving DecidableEq, Repr

/-- The records read so far, the fields read so far of the current one, and the characters of the
current field. -/
structure Reader where
  records : List (List String)
  fields : List String
  field : List Char
  place : Place
  deriving DecidableEq, Repr

namespace Reader

/-- Ends the current field. -/
def endField (r : Reader) : Reader :=
  { r with fields := r.fields ++ [String.ofList r.field], field := [], place := .start }

/-- Ends the current field and with it the current record. -/
def endRecord (r : Reader) : Reader :=
  { r.endField with records := r.records ++ [r.endField.fields], fields := [] }

/-- Adds a character to the current field. -/
def push (r : Reader) (c : Char) (place : Place) : Reader :=
  { r with field := r.field ++ [c], place }

/-- Reads one character. A comma and a newline count outside quotes only, a quote stands in a quoted
field only, where it is doubled, and so does a carriage return. -/
def step (r : Reader) (c : Char) : Option Reader :=
  match r.place with
  | .quoted => if c = '"' then some { r with place := .closed } else some (r.push c .quoted)
  | .closed =>
    if c = '"' then some (r.push c .quoted)
    else if c = ',' then some r.endField
    else if c = '\n' then some r.endRecord
    else none
  | .start =>
    if c = '"' then some { r with place := .quoted }
    else if c = ',' then some r.endField
    else if c = '\n' then some r.endRecord
    else if c = '\r' then none
    else some (r.push c .bare)
  | .bare =>
    if c = ',' then some r.endField
    else if c = '\n' then some r.endRecord
    else if c = '"' || c = '\r' then none
    else some (r.push c .bare)

/-- The records at the end of the text. The last one may lack its newline, but no quote may be left
open. -/
def finish (r : Reader) : Option (List (List String)) :=
  match r.place with
  | .quoted => none
  | .start => some (if r.fields = [] then r.records else r.endRecord.records)
  | .bare | .closed => some r.endRecord.records

end Reader

/-- The records of a text. -/
def read (text : String) : Option (List (List String)) :=
  (text.toList.foldlM Reader.step ⟨[], [], [], .start⟩).bind Reader.finish

/-! ### One field -/

theorem isSpecial_eq_false_iff {c : Char} :
    isSpecial c = false ↔ c ≠ ',' ∧ c ≠ '"' ∧ c ≠ '\n' ∧ c ≠ '\r' := by
  simp [isSpecial, and_assoc]

section Field

variable (records : List (List String)) (fields : List String)

/-- Inside quotes every character is read as it is, a pair of quotes as one. -/
theorem foldlM_doubleQuotes (field read : List Char) :
    (doubleQuotes field).foldlM Reader.step ⟨records, fields, read, .quoted⟩ =
      some ⟨records, fields, read ++ field, .quoted⟩ := by
  induction field generalizing read with
  | nil => simp [doubleQuotes]
  | cons c field ih =>
    by_cases hc : c = '"'
    · subst hc
      have hpair := ih (read ++ ['"'])
      rw [List.append_assoc] at hpair
      simpa [doubleQuotes, Reader.step, Reader.push] using hpair
    · have hnext := ih (read ++ [c])
      rw [List.append_assoc] at hnext
      simpa [doubleQuotes, hc, Reader.step, Reader.push] using hnext

/-- Outside quotes every character is read as it is that needs none. -/
theorem foldlM_bare (field read : List Char) (hfield : ∀ c ∈ field, isSpecial c = false) :
    field.foldlM Reader.step ⟨records, fields, read, .bare⟩ =
      some ⟨records, fields, read ++ field, .bare⟩ := by
  induction field generalizing read with
  | nil => simp
  | cons c field ih =>
    obtain ⟨hcomma, hquote, hnewline, hreturn⟩ :=
      isSpecial_eq_false_iff.mp (hfield c List.mem_cons_self)
    have hnext := ih (read ++ [c]) fun d hd => hfield d (List.mem_cons_of_mem _ hd)
    rw [List.append_assoc] at hnext
    simpa [Reader.step, Reader.push, hcomma, hquote, hnewline, hreturn] using hnext

/-- **A written field is read back**, and the reader is at its end, where a comma ends it and a
newline ends the record. -/
theorem foldlM_escape (field : List Char) :
    ∃ place ≠ Place.quoted,
      (escape field).foldlM Reader.step ⟨records, fields, [], .start⟩ =
        some ⟨records, fields, field, place⟩ := by
  unfold escape
  split
  · refine ⟨.closed, by decide, ?_⟩
    calc ('"' :: doubleQuotes field ++ ['"']).foldlM Reader.step ⟨records, fields, [], .start⟩
        = (doubleQuotes field ++ ['"']).foldlM Reader.step ⟨records, fields, [], .quoted⟩ := rfl
      _ = ['"'].foldlM Reader.step ⟨records, fields, field, .quoted⟩ := by
          rw [List.foldlM_append, foldlM_doubleQuotes]
          rfl
      _ = some ⟨records, fields, field, .closed⟩ := rfl
  · rename_i hplain
    have hfield : ∀ c ∈ field, isSpecial c = false := by simpa using hplain
    cases field with
    | nil => exact ⟨.start, by decide, rfl⟩
    | cons c field =>
      -- the first character takes the reader into the field
      obtain ⟨hcomma, hquote, hnewline, hreturn⟩ :=
        isSpecial_eq_false_iff.mp (hfield c List.mem_cons_self)
      refine ⟨.bare, by decide, ?_⟩
      have hrest := foldlM_bare records fields field [c] fun d hd =>
        hfield d (List.mem_cons_of_mem _ hd)
      simpa [Reader.step, Reader.push, hcomma, hquote, hnewline, hreturn] using hrest

theorem step_comma {field : List Char} {place : Place} (h : place ≠ .quoted) :
    Reader.step ⟨records, fields, field, place⟩ ',' =
      some ⟨records, fields ++ [String.ofList field], [], .start⟩ := by
  cases place with
  | quoted => exact absurd rfl h
  | start | bare | closed => rfl

theorem step_newline {field : List Char} {place : Place} (h : place ≠ .quoted) :
    Reader.step ⟨records, fields, field, place⟩ '\n' =
      some ⟨records ++ [fields ++ [String.ofList field]], [], [], .start⟩ := by
  cases place with
  | quoted => exact absurd rfl h
  | start | bare | closed => rfl

/-! ### One record -/

/-- **A written record is read back as one record.** -/
theorem foldlM_record (fs : List String) (hfs : fs ≠ []) :
    (record fs).foldlM Reader.step ⟨records, fields, [], .start⟩ =
      some ⟨records ++ [fields ++ fs], [], [], .start⟩ := by
  induction fs generalizing fields with
  | nil => exact absurd rfl hfs
  | cons f fs ih =>
    obtain ⟨place, hplace, hfield⟩ := foldlM_escape records fields f.toList
    cases fs with
    | nil =>
      simp only [record, List.map_cons, List.map_nil, List.intercalate_singleton,
        List.foldlM_append, hfield, Option.bind_eq_bind, Option.bind_some, List.foldlM_cons,
        List.foldlM_nil, step_newline records fields hplace, String.ofList_toList, Option.pure_def]
    | cons g fs =>
      have hrest := ih (fields ++ [f]) (by simp)
      rw [List.append_assoc] at hrest
      simp only [record, List.map_cons, List.intercalate_cons_cons, List.append_assoc,
        List.foldlM_append, hfield, Option.bind_eq_bind, Option.bind_some, List.foldlM_cons,
        List.foldlM_nil, step_comma records fields hplace, String.ofList_toList,
        Option.pure_def] at hrest ⊢
      exact hrest

end Field

/-! ### The report -/

theorem foldlM_records (records rs : List (List String)) (hrs : ∀ r ∈ rs, r ≠ []) :
    (rs.flatMap record).foldlM Reader.step ⟨records, [], [], .start⟩ =
      some ⟨records ++ rs, [], [], .start⟩ := by
  induction rs generalizing records with
  | nil => simp
  | cons r rs ih =>
    have hrest := ih (records ++ [r]) fun s hs => hrs s (List.mem_cons_of_mem _ hs)
    rw [List.append_assoc] at hrest
    rw [List.flatMap_cons, List.foldlM_append,
      foldlM_record records [] r (hrs r List.mem_cons_self)]
    exact hrest

/-- The report on a catalogue without entries still has its header. -/
theorem render_ne_empty (c : Catalog) : render c ≠ "" := by
  have hheader : record header ≠ [] := by decide
  intro h
  have htext := congrArg String.toList h
  rw [render, String.toList_ofList, List.flatMap_cons] at htext
  exact hheader (List.append_eq_nil_iff.mp htext).1

/-- **The report can be read back without loss.** It is read as the names of the six columns and, in
order, one record for each row: its category, name, kind, severity, value type and source file. -/
theorem read_render (c : Catalog) :
    read (render c) = some
      (["category", "name", "type", "severity", "value_type", "source_file"] ::
        c.rows.map fun r =>
          [match r.category with
            | .meter => "meter"
            | .event => "event",
            r.name, r.kind, r.severity, r.valueType, r.sourceFile]) := by
  have hfields : fields = fun r =>
      [match r.category with
        | .meter => "meter"
        | .event => "event",
        r.name, r.kind, r.severity, r.valueType, r.sourceFile] := rfl
  have hne : ∀ r ∈ header :: c.rows.map fields, r ≠ [] := by
    intro r hr
    rcases List.mem_cons.mp hr with rfl | hr
    · exact List.cons_ne_nil _ _
    · obtain ⟨row, -, rfl⟩ := List.mem_map.mp hr
      exact List.cons_ne_nil _ _
  rw [read, render, String.toList_ofList, foldlM_records [] _ hne, ← hfields]
  rfl

end Telemetry.Report.Csv
