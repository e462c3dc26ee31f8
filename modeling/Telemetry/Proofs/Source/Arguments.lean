import Telemetry.Proofs.Source.Agreement
import Telemetry.Proofs.Source.Characters

/-!
Argument lists, joined and split again.

* `splitTopLevel_eq_singleton_iff` — a text is its own only part exactly if it is not empty, has no
  blanks around it and is balanced.
* `splitTopLevel_intercalate` — trimmed and balanced texts, joined by commas, are split into
  themselves.
* `isArgument_of_mem_arguments` — the arguments of a call are trimmed and balanced, whatever
  brackets, strings, comments and blanks the call is written with.
* `arguments_roundTrip` — so joining and splitting lose nothing, in either order.
-/

namespace Telemetry.Source

open Telemetry.Text

/-! ### Blanks around an argument -/

/-- The characters that mean something to a reader of arguments. -/
def marks : List Char :=
  ['"', '\'', '\\', '/', '*', '(', ')', '[', ']', '\x7b', '\x7d', ',']

/-- A byte that means nothing to a reader of arguments. -/
def Neutral (b : UInt8) : Prop :=
  b ∉ marks.map byte

instance (b : UInt8) : Decidable (Neutral b) :=
  inferInstanceAs (Decidable (b ∉ marks.map byte))

/-- The bytes of blanks mean nothing. -/
theorem neutral_of_blanks {cs : List Char} (h : ∀ c ∈ cs, isBlank c = true) {b : UInt8}
    (hb : b ∈ encode cs) : Neutral b := by
  have hmarks : (marks.all fun d => d.toNat < 128 ∧ isBlank d = false) = true := by decide
  intro hmark
  obtain ⟨d, hd, rfl⟩ := List.mem_map.mp hmark
  obtain ⟨k, hk⟩ := List.getElem?_of_mem hb
  obtain ⟨hascii, hblank⟩ := of_decide_eq_true (List.all_eq_true.mp hmarks d hd)
  rw [h d (mem_of_getElem?_encode hascii hk)] at hblank
  cases hblank

section Blanks

variable {b : UInt8} {bs : List UInt8} {slash : Bool} {depth : Nat} {s s' : Scan}

theorem step_neutral_code (hb : Neutral b) :
    Scan.step ⟨.code slash, depth⟩ b = some ⟨.code false, depth⟩ := by
  simp only [Neutral, marks, List.map_cons, List.map_nil, List.mem_cons, List.not_mem_nil, or_false,
    not_or] at hb
  simp [Scan.step, Lexeme.part, hb]

/-- A string is opened by one of the two quotes. -/
def Scan.Quoted (s : Scan) : Prop :=
  ∀ quote escaped, s.place = .string quote escaped → quote = byte '"' ∨ quote = byte '\''

theorem quoted_step (hs : s.Quoted) (h : s.step b = some s') : s'.Quoted := by
  obtain ⟨place, depth⟩ := s
  cases place with
  | code slash =>
    by_cases hquote : b = byte '"' ∨ b = byte '\''
    · rw [step_quote hquote] at h
      cases h
      rintro _ _ ⟨⟩
      exact hquote
    · obtain ⟨depth', rfl, -⟩ := step_code h hquote
      rintro _ _ ⟨⟩
  | string quote escaped =>
    have hquote := hs quote escaped rfl
    cases escaped with
    | true =>
      cases h
      rintro _ _ ⟨⟩
      exact hquote
    | false =>
      simp only [Scan.step] at h
      split_ifs at h <;> cases h
      · rintro _ _ ⟨⟩
        exact hquote
      · rintro _ _ ⟨⟩
      · rintro _ _ ⟨⟩
        exact hquote

theorem quoted_foldlM (hs : s.Quoted) (h : bs.foldlM Scan.step s = some s') : s'.Quoted := by
  induction bs generalizing s with
  | nil =>
    cases h
    exact hs
  | cons b bs ih =>
    rw [List.foldlM_cons] at h
    obtain ⟨s₁, hstep, hrest⟩ := Option.bind_eq_some_iff.mp h
    exact ih (quoted_step hs hstep) hrest

theorem step_neutral_string {quote : UInt8} {escaped : Bool}
    (hquote : quote = byte '"' ∨ quote = byte '\'') (hb : Neutral b) :
    Scan.step ⟨.string quote escaped, depth⟩ b = some ⟨.string quote false, depth⟩ := by
  have hne : b ≠ quote := by
    rintro rfl
    rcases hquote with rfl | rfl <;> exact absurd hb (by decide)
  have hescape : b ≠ byte '\\' := by
    rintro rfl
    exact absurd hb (by decide)
  cases escaped <;> simp [Scan.step, hne, hescape]

theorem foldlM_neutral_code (hbs : ∀ b ∈ bs, Neutral b) :
    bs.foldlM Scan.step ⟨.code false, depth⟩ = some ⟨.code false, depth⟩ := by
  induction bs with
  | nil => rfl
  | cons b bs ih =>
    rw [List.foldlM_cons, step_neutral_code (hbs b List.mem_cons_self)]
    exact ih fun b hb => hbs b (List.mem_cons_of_mem _ hb)

/-- Bytes that mean nothing and end in code started in code, at the same depth. -/
theorem code_of_foldlM_neutral (hs : s.Quoted) (hbs : ∀ b ∈ bs, Neutral b)
    (h : bs.foldlM Scan.step s = some ⟨.code slash, depth⟩) :
    ∃ slash, s = ⟨.code slash, depth⟩ := by
  induction bs generalizing s with
  | nil =>
    cases h
    exact ⟨slash, rfl⟩
  | cons b bs ih =>
    rw [List.foldlM_cons] at h
    obtain ⟨s₁, hstep, hrest⟩ := Option.bind_eq_some_iff.mp h
    obtain ⟨slash₁, rfl⟩ := ih (quoted_step hs hstep)
      (fun b hb => hbs b (List.mem_cons_of_mem _ hb)) hrest
    have hb := hbs b List.mem_cons_self
    obtain ⟨place, depth₁⟩ := s
    cases place with
    | code slash₂ =>
      rw [step_neutral_code hb] at hstep
      cases hstep
      exact ⟨slash₂, rfl⟩
    | string quote escaped =>
      rw [step_neutral_string (hs quote escaped rfl) hb] at hstep
      cases hstep

/-- **Trimming keeps a text balanced.** -/
theorem balanced_trim {cs : List Char} (h : Balanced (encode cs)) :
    Balanced (encode (trim cs)) := by
  obtain ⟨⟨front, back, hfront, hback, hcs⟩, -⟩ := trim_eq_iff.mp (rfl : trim cs = _)
  obtain ⟨slash, h⟩ := h
  rw [hcs, encode_append, encode_append, List.foldlM_append,
    foldlM_neutral_code fun b hb => neutral_of_blanks hfront hb] at h
  simp only [Option.bind_eq_bind, Option.bind_some, List.foldlM_append] at h
  obtain ⟨s, hmiddle, hend⟩ := Option.bind_eq_some_iff.mp h
  have hquoted : s.Quoted := quoted_foldlM (by rintro _ _ ⟨⟩) hmiddle
  obtain ⟨slash', rfl⟩ :=
    code_of_foldlM_neutral hquoted (fun b hb => neutral_of_blanks hback hb) hend
  exact ⟨slash', hmiddle⟩

end Blanks

/-! ### Splitting -/

/-- A text that can stand as an argument: no blanks around it, and balanced. -/
structure IsArgument (x : List Char) : Prop where
  trimmed : trim x = x
  balanced : Balanced (encode x)

theorem isArgument_nil : IsArgument [] :=
  ⟨rfl, balanced_nil⟩

theorem rawArguments_finish (offset : Nat) (bs : List UInt8) :
    rawArguments 0 (lexemesFrom .code offset (byte ')' :: bs)) = some [[]] := by
  cases bs with
  | nil => rfl
  | cons b bs => rfl

theorem rawArguments_separator {offset : Nat} {bs : List UInt8} {raws : List (List UInt8)}
    (h : rawArguments 0 (lexemesFrom .code (offset + 1) bs) = some raws) :
    rawArguments 0 (lexemesFrom .code offset (byte ',' :: bs)) = some ([] :: raws) := by
  cases bs with
  | nil => cases h
  | cons b bs =>
    change (rawArguments 0 (lexemesFrom .code (offset + 1) (b :: bs))).map ([] :: ·) = _
    rw [h]
    rfl

/-- What is read behind a parenthesis, whatever stands in front of it. -/
theorem arguments_append (front rest : List UInt8) :
    arguments (front ++ byte '(' :: rest) front.length =
      match rawArguments 0 (lexemesFrom .code (front.length + 1) rest) with
      | some raw => dropLoneEmpty (raw.map argumentText)
      | none => [] := by
  have hopening : (front ++ byte '(' :: rest)[front.length]? = some (byte '(') := by simp
  have hread : arguments (front ++ byte '(' :: rest) front.length =
      match rawArguments 0 (lexemesAt (front ++ byte '(' :: rest) (front.length + 1)) with
      | some raw => dropLoneEmpty (raw.map argumentText)
      | none => [] := if_pos hopening
  rw [lexemesAt_append] at hread
  exact hread

/-- What `splitTopLevel` reads. -/
theorem splitTopLevel_eq (cs : List Char) :
    splitTopLevel cs =
      match rawArguments 0 (lexemesFrom .code 1 (encode cs ++ [byte ')'])) with
      | some raw => dropLoneEmpty (raw.map argumentText)
      | none => [] := by
  have hencode : encode ('(' :: cs ++ [')']) = byte '(' :: (encode cs ++ [byte ')']) := by
    rw [List.cons_append, encode_cons, encode_append]
    rfl
  rw [splitTopLevel, hencode]
  exact arguments_append [] _

theorem dropLoneEmpty_of_ne {args : List (List Char)} (h : args ≠ [[]]) :
    dropLoneEmpty args = args :=
  if_neg h

theorem dropLoneEmpty_ne (args : List (List Char)) : dropLoneEmpty args ≠ [[]] := by
  unfold dropLoneEmpty
  split
  · simp
  · assumption

theorem mem_of_mem_dropLoneEmpty {args : List (List Char)} {x : List Char}
    (h : x ∈ dropLoneEmpty args) : x ∈ args := by
  unfold dropLoneEmpty at h
  split at h
  · cases h
  · exact h

theorem trim_eq_self_of_byteSize_le {cs : List Char} (h : byteSize cs ≤ byteSize (trim cs)) :
    trim cs = cs := by
  obtain ⟨⟨front, back, -, -, hcs⟩, -⟩ := trim_eq_iff.mp (rfl : trim cs = _)
  have hsize := congrArg byteSize hcs
  rw [byteSize_append, byteSize_append] at hsize
  have hfront : front = [] := byteSize_eq_zero_iff.mp (by omega)
  have hback : back = [] := byteSize_eq_zero_iff.mp (by omega)
  rw [hfront, hback, List.nil_append, List.append_nil] at hcs
  exact hcs.symm

/-- **A text is its own only part** exactly if it is an argument and not empty. -/
theorem splitTopLevel_eq_singleton_iff {x : List Char} :
    splitTopLevel x = [x] ↔ x ≠ [] ∧ IsArgument x := by
  rw [splitTopLevel_eq]
  constructor
  · intro h
    split at h
    · rename_i raws hraws
      have hne : x ≠ [] := by
        rintro rfl
        exact dropLoneEmpty_ne _ h
      have hmap : raws.map argumentText = [x] := by
        unfold dropLoneEmpty at h
        split at h
        · cases h
        · exact h
      obtain ⟨raw, rfl, htext⟩ := List.map_eq_singleton_iff.mp hmap
      have hlength :=
        length_lt_of_mem_rawArguments (lexes_lexemesFrom _ _ _) hraws List.mem_cons_self
      have hbytes : encode x ++ [byte ')'] = encode (x ++ [')']) := by
        rw [encode_append]
        rfl
      rw [hbytes] at hraws
      obtain ⟨hbalanced, ds, rfl⟩ := balanced_of_mem_rawArguments hraws List.mem_cons_self
      rw [argumentText_encode] at htext
      -- the argument is no longer than the text, so trimming drops nothing of it
      have hle : byteSize ds ≤ byteSize (trim ds) := by
        rw [htext]
        rw [List.length_append, length_encode, length_encode, List.length_singleton] at hlength
        exact Nat.le_of_lt_succ hlength
      have hself : trim ds = ds := trim_eq_self_of_byteSize_le hle
      rw [hself] at htext
      subst htext
      exact ⟨hne, hself, hbalanced⟩
    · cases h
  · rintro ⟨hne, htrimmed, hbalanced⟩
    have hraws := rawArguments_balanced hbalanced (mild_cons (by decide) (by decide) [])
      (rawArguments_finish (1 + (encode x).length) [])
    rw [hraws]
    simp only [List.append_nil, List.map_cons, List.map_nil, argumentText_encode, htrimmed]
    exact dropLoneEmpty_of_ne (by simpa using hne)

/-! ### Joining -/

/-- **Balanced bytes, joined by commas, are read as they are**, whatever follows the parenthesis. -/
theorem rawArguments_join (offset : Nat) {r : List UInt8} {rs : List (List UInt8)}
    (post : List UInt8) (hr : Balanced r) (hrs : ∀ r' ∈ rs, Balanced r') :
    rawArguments 0 (lexemesFrom .code offset
        (r ++ (rs.flatMap (byte ',' :: ·) ++ byte ')' :: post))) = some (r :: rs) := by
  induction rs generalizing offset r with
  | nil =>
    have hraws := rawArguments_balanced hr (mild_cons (by decide) (by decide) _)
      (rawArguments_finish (offset + r.length) post)
    simpa using hraws
  | cons r' rs ih =>
    have hrest := ih (offset + r.length + 1) (hrs r' List.mem_cons_self)
      fun r'' hr'' => hrs r'' (List.mem_cons_of_mem _ hr'')
    rw [List.flatMap_cons, List.cons_append, List.cons_append, List.append_assoc,
      rawArguments_balanced hr (mild_cons (by decide) (by decide) _)
        (rawArguments_separator hrest), List.append_nil]

theorem encode_intercalate (x : List Char) (xs : List (List Char)) :
    encode ([',', ' '].intercalate (x :: xs)) =
      encode x ++ xs.flatMap fun x => encode (',' :: ' ' :: x) := by
  induction xs generalizing x with
  | nil => simp
  | cons y xs ih =>
    rw [List.intercalate_cons_cons, encode_append, encode_append, ih, List.flatMap_cons,
      List.append_assoc, ← List.append_assoc (encode [',', ' ']), ← encode_append]
    rfl

/-- **Arguments joined by commas are split into themselves.** -/
theorem splitTopLevel_intercalate {xs : List (List Char)} (hxs : ∀ x ∈ xs, IsArgument x)
    (hne : xs ≠ [[]]) : splitTopLevel ([',', ' '].intercalate xs) = xs := by
  cases xs with
  | nil => rfl
  | cons x xs =>
    -- a blank in front of each text but the first
    have hspaced : ∀ r ∈ xs.map fun y => encode (' ' :: y), Balanced r := by
      intro r hr
      obtain ⟨y, hy, rfl⟩ := List.mem_map.mp hr
      exact (hxs y (List.mem_cons_of_mem _ hy)).balanced
    have hraws : rawArguments 0 (lexemesFrom .code 1
        (encode x ++ (xs.flatMap (fun y => encode (',' :: ' ' :: y)) ++ [byte ')']))) =
          some (encode x :: xs.map fun y => encode (' ' :: y)) := by
      have hjoin := rawArguments_join 1 [] (hxs x List.mem_cons_self).balanced hspaced
      rw [List.flatMap_map] at hjoin
      exact hjoin
    rw [splitTopLevel_eq, encode_intercalate, List.append_assoc, hraws]
    have hspace : ∀ y ∈ xs, argumentText (encode (' ' :: y)) = y := by
      intro y hy
      obtain ⟨htrimmed, -⟩ := hxs y (List.mem_cons_of_mem _ hy)
      obtain ⟨-, hhead, hlast⟩ := trim_eq_iff.mp htrimmed
      rw [argumentText_encode]
      exact trim_eq_iff.mpr ⟨⟨[' '], [], List.forall_mem_singleton.mpr rfl, by simp, by simp⟩,
        hhead, hlast⟩
    have htexts : (xs.map fun y => encode (' ' :: y)).map argumentText = xs := by
      rw [List.map_map]
      exact (List.map_congr_left hspace).trans (List.map_id xs)
    simp only [List.map_cons, htexts, argumentText_encode, (hxs x List.mem_cons_self).trimmed]
    exact dropLoneEmpty_of_ne hne

/-! ### The arguments of a call -/

/-- An argument of a call is balanced, also with the blanks that stand around it. -/
theorem exists_balanced_of_mem_arguments {text : List Char} {opening : Nat} {x : List Char}
    (hx : x ∈ arguments (encode text) opening) : ∃ ds, Balanced (encode ds) ∧ x = trim ds := by
  unfold arguments at hx
  split at hx
  · rename_i hopening
    obtain ⟨_, post, -, hbehind⟩ := exists_behind (by decide) hopening
    split at hx
    · rename_i raws hraws
      rw [hbehind] at hraws
      obtain ⟨raw, hraw, rfl⟩ := List.mem_map.mp (mem_of_mem_dropLoneEmpty hx)
      obtain ⟨hbalanced, ds, rfl⟩ := balanced_of_mem_rawArguments hraws hraw
      exact ⟨ds, hbalanced, argumentText_encode ds⟩
    · cases hx
  · cases hx

/-- **The arguments of a call can stand as arguments**, whatever the call is written with. -/
theorem isArgument_of_mem_arguments {text : List Char} {opening : Nat} {x : List Char}
    (hx : x ∈ arguments (encode text) opening) : IsArgument x := by
  obtain ⟨ds, hbalanced, rfl⟩ := exists_balanced_of_mem_arguments hx
  exact ⟨trim_trim ds, balanced_trim hbalanced⟩

theorem arguments_ne (bs : List UInt8) (opening : Nat) : arguments bs opening ≠ [[]] := by
  unfold arguments
  split
  · split
    · exact dropLoneEmpty_ne _
    · simp
  · simp

/-- **Argument lists round-trip through splitting, in both directions.** A list of texts each of
which is empty or its own only part, other than the list of one empty text, is what its joined text
is split into. Each argument of a call is empty or its own only part, and no call has an empty text
for its only argument; so the arguments of a call are recovered from their joined text. -/
theorem arguments_roundTrip :
    (∀ xs : List (List Char), (∀ x ∈ xs, x = [] ∨ splitTopLevel x = [x]) → xs ≠ [[]] →
      splitTopLevel ([',', ' '].intercalate xs) = xs) ∧
    ∀ (text : List Char) (opening : Nat),
      (∀ x ∈ arguments (encode text) opening, x ≠ [] → splitTopLevel x = [x]) ∧
      arguments (encode text) opening ≠ [[]] ∧
      splitTopLevel ([',', ' '].intercalate (arguments (encode text) opening)) =
        arguments (encode text) opening := by
  refine ⟨fun xs hxs hne => splitTopLevel_intercalate (fun x hx => ?_) hne, fun text opening =>
    ⟨fun x hx hne => ?_, arguments_ne _ _, ?_⟩⟩
  · rcases hxs x hx with rfl | hself
    · exact isArgument_nil
    · exact (splitTopLevel_eq_singleton_iff.mp hself).2
  · exact splitTopLevel_eq_singleton_iff.mpr ⟨hne, isArgument_of_mem_arguments hx⟩
  · exact splitTopLevel_intercalate (fun x hx => isArgument_of_mem_arguments hx) (arguments_ne _ _)

theorem arguments_roundTrip_commented :
    arguments (encode "f( a /* , */ [1, 2] ,, \"x, )\")".toList) 1 =
      ["a  [1, 2]".toList, [], "\"x, )\"".toList] ∧
    splitTopLevel "a  [1, 2], , \"x, )\"".toList =
      ["a  [1, 2]".toList, [], "\"x, )\"".toList] ∧
    splitTopLevel ([',', ' '].intercalate [[], "g(h, i)".toList]) = [[], "g(h, i)".toList] := by
  have hcall : arguments (encode "f( a /* , */ [1, 2] ,, \"x, )\")".toList) 1 =
      ["a  [1, 2]".toList, [], "\"x, )\"".toList] := by decide +kernel
  obtain ⟨hjoin, hsplit⟩ := arguments_roundTrip
  obtain ⟨-, -, hback⟩ := hsplit "f( a /* , */ [1, 2] ,, \"x, )\")".toList 1
  rw [hcall] at hback
  exact ⟨hcall, hback, hjoin _ (by decide +kernel) (by decide +kernel)⟩

end Telemetry.Source
