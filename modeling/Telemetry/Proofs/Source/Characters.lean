import Telemetry.Proofs.Source.Balance
import Telemetry.Proofs.Text.Decoding

/-!
Argument lists are read byte by byte, and no character is broken by it.

The bytes of an argument are kept lexeme by lexeme, and a lexeme may end inside a character: each
byte of code is a lexeme of its own, and the backslash in a string takes one byte along, which may
be the first of several. But an argument is finished only at a comma or a parenthesis of code, and
comments begin and end with ASCII bytes. These are characters of their own wherever they stand, so
the text divides there.

* `finishedArguments` — the raw arguments that are turned into texts, also those of a list that is
  never closed; the arguments are made of them (`arguments_eq_finished`).
* `Mode.Pending` — what is kept, and what is still to be read, make whole characters of the source;
  `Mode.Pending.of_comment` passes over a comment.
* `exists_texts_of_finished` — so finished arguments are texts, and their characters are characters
  of the source, in order; `exists_texts` and `flatten_arguments_sublist` say it of a call.
* `balanced_of_mem_rawArguments` — the raw arguments in a text are balanced texts.
* `finishedArguments_unbroken` — reading them as UTF-8 never fails and puts in no `U+FFFD`.
-/

namespace Telemetry.Source

open Telemetry.Text

/-! ### Finished arguments -/

/-- The raw arguments that are finished while a list is read, `kept` being the bytes of the first
one so far: each at the comma behind it, and the last one at the closing parenthesis. -/
def finished : (depth : Nat) → (kept : List UInt8) → List Lexeme → List (List UInt8)
  | _, _, [] => []
  | depth, kept, l :: ls =>
    match l.part depth with
    | .keep depth' => finished depth' (kept ++ l.bytes) ls
    | .drop => finished depth kept ls
    | .separator => kept :: finished depth [] ls
    | .finish => [kept]

/-- The raw arguments that are finished behind a parenthesis at offset `opening`, whether the list
is closed in the end or not. -/
def finishedArguments (bs : List UInt8) (opening : Nat) : List (List UInt8) :=
  if bs[opening]? = some (byte '(') then finished 0 [] (lexemesAt bs (opening + 1)) else []

/-- **A list that is closed** has all its raw arguments finished. -/
theorem finished_of_rawArguments {depth : Nat} {ls : List Lexeme} {r : List UInt8}
    {rs : List (List UInt8)} (h : rawArguments depth ls = some (r :: rs)) (kept : List UInt8) :
    finished depth kept ls = (kept ++ r) :: rs := by
  induction ls generalizing depth kept r rs with
  | nil => cases h
  | cons l ls ih =>
    rw [rawArguments] at h
    rw [finished]
    cases hpart : l.part depth with
    | keep depth' =>
      rw [hpart] at h
      obtain ⟨r', rs', hraws, hextend⟩ := exists_of_map_rawArguments h
      obtain ⟨rfl, rfl⟩ := List.cons.inj hextend
      rw [← List.append_assoc]
      exact ih hraws _
    | drop =>
      rw [hpart] at h
      exact ih h kept
    | separator =>
      rw [hpart] at h
      obtain ⟨r', rs', hraws, hcons⟩ := exists_of_map_rawArguments h
      obtain ⟨rfl, rfl⟩ := List.cons.inj hcons
      rw [List.append_nil]
      exact congrArg (kept :: ·) (ih hraws [])
    | finish =>
      rw [hpart] at h
      cases h
      rw [List.append_nil]

/-- **The arguments of a call are made of the finished ones**, provided that the list is closed. -/
theorem arguments_eq_finished (bs : List UInt8) (opening : Nat) :
    arguments bs opening =
      if (rawArguments 0 (lexemesAt bs (opening + 1))).isSome then
        dropLoneEmpty ((finishedArguments bs opening).map argumentText)
      else [] := by
  unfold arguments finishedArguments
  split
  · cases hraws : rawArguments 0 (lexemesAt bs (opening + 1)) with
    | none => rfl
    | some raws =>
      cases raws with
      | nil => exact absurd hraws rawArguments_ne_nil
      | cons r rs => rw [finished_of_rawArguments hraws []]; rfl
  · simp [dropLoneEmpty]

example : finishedArguments (encode "f(ä, ß".toList) 1 = [encode "ä".toList] ∧
    arguments (encode "f(ä, ß".toList) 1 = [] := by decide +kernel

/-! ### The invariant -/

section Pending

variable {mode next : Mode} {l : Lexeme} {kept bs rest : List UInt8} {source : List Char}

/-- What is kept of an argument and what is still to be read, `kept` and `bs`, have the characters
of `source`. Inside a comment `kept` has whole characters by itself, and `bs` ends others. -/
structure Mode.Pending (mode : Mode) (kept bs : List UInt8) (source : List Char) : Prop where
  outside : ¬ mode.IsComment → kept ++ bs = encode source
  inside : mode.IsComment → ∃ front dropped back,
    kept = encode front ∧ dropped ++ bs = encode back ∧ source = front ++ back

theorem pending_of_encode (hmode : ¬ mode.IsComment) (h : kept ++ bs = encode source) :
    mode.Pending kept bs source :=
  ⟨fun _ => h, fun hcomment => absurd hcomment hmode⟩

/-- The last byte of a lexeme that closes a comment is an ASCII byte. -/
theorem Reads.closes_ascii (h : Reads mode l rest next) (hnext : ¬ next.IsComment)
    (hcomment : l.kind = .comment) :
    ∃ front c, c.toNat < 128 ∧ l.bytes = front ++ [byte c] := by
  rcases h.closes hnext hcomment with hbytes | ⟨b, hbytes⟩
  · exact ⟨[], '\n', by decide, hbytes⟩
  · exact ⟨[b], '/', by decide, hbytes⟩

/-- **Dropping a comment breaks no character**: it begins and ends with ASCII bytes. -/
theorem Mode.Pending.of_comment (hreads : Reads mode l rest next) (hkind : l.kind = .comment)
    (h : mode.Pending kept (l.bytes ++ rest) source) :
    ∃ source', next.Pending kept rest source' ∧ source'.Sublist source := by
  obtain ⟨front, dropped, back, hkept, hdropped, rfl⟩ : ∃ front dropped back,
      kept = encode front ∧ dropped ++ (l.bytes ++ rest) = encode back ∧
        source = front ++ back := by
    by_cases hmode : mode.IsComment
    · exact h.inside hmode
    · have hall := h.outside hmode
      obtain ⟨tail, htail⟩ := List.head?_eq_some_iff.mp (hreads.opens hmode hkind)
      rw [htail, List.cons_append] at hall ⊢
      obtain ⟨front, back, rfl, hfront, hback⟩ := exists_append_of_ascii (by decide) hall
      exact ⟨front, [], '/' :: back, hfront, by rw [hback]; rfl, rfl⟩
  by_cases hnext : next.IsComment
  · refine ⟨front ++ back, ⟨fun houtside => absurd hnext houtside, fun _ => ?_⟩, List.Sublist.refl _⟩
    exact ⟨front, dropped ++ l.bytes, back, hkept, by rwa [List.append_assoc], rfl⟩
  · obtain ⟨bytes, c, hc, hbytes⟩ := hreads.closes_ascii hnext hkind
    rw [hbytes, List.append_assoc, List.singleton_append, ← List.append_assoc] at hdropped
    obtain ⟨pre, post, rfl, -, hpost⟩ := exists_append_of_ascii hc hdropped
    refine ⟨front ++ post, pending_of_encode hnext (by rw [hkept, hpost, encode_append]), ?_⟩
    exact ((List.sublist_cons_self c post).trans (List.sublist_append_right pre _)).append_left front

/-- **The arguments that are finished are texts**, and their characters are characters of the
source, in order. -/
theorem exists_texts_of_finished {offset : Nat} {ls : List Lexeme} (depth : Nat)
    (hpass : Lexes mode offset bs ls) (hpending : mode.Pending kept bs source) :
    ∃ texts : List (List Char),
      finished depth kept ls = texts.map encode ∧ texts.flatten.Sublist source := by
  induction hpass generalizing depth kept source with
  | nil => exact ⟨[], rfl, List.nil_sublist _⟩
  | @cons mode next l rest ls hreads _ ih =>
    have houtside : l.kind ≠ .comment → ¬ mode.IsComment ∧ ¬ next.IsComment := fun hkind =>
      ⟨fun hmode => hkind (hreads.kind_of_isComment hmode), hreads.not_isComment_next hkind⟩
    rcases part_cases depth (fun hkind => (hreads.of_code hkind).2.2) with
      ⟨hkind, hpart⟩ | ⟨depth', hkind, hpart⟩ | ⟨hkind, hbytes, -, hpart⟩ |
      ⟨hkind, hbytes, -, hpart⟩ <;> simp only [finished, hpart]
    · obtain ⟨source', hpending', hdropped⟩ := hpending.of_comment hreads hkind
      obtain ⟨texts, htexts, hsublist⟩ := ih depth hpending'
      exact ⟨texts, htexts, hsublist.trans hdropped⟩
    · obtain ⟨hmode, hnext⟩ := houtside hkind
      have hall := hpending.outside hmode
      rw [← List.append_assoc] at hall
      exact ih depth' (pending_of_encode hnext hall)
    · -- the comma divides the source
      obtain ⟨hmode, hnext⟩ := houtside (by simp [hkind])
      have hall := hpending.outside hmode
      rw [hbytes, List.singleton_append] at hall
      obtain ⟨front, back, rfl, rfl, hback⟩ := exists_append_of_ascii (by decide) hall
      have hpending' : next.Pending [] rest back := pending_of_encode hnext hback
      obtain ⟨texts, htexts, hsublist⟩ := ih depth hpending'
      refine ⟨front :: texts, by rw [htexts, List.map_cons], ?_⟩
      rw [List.flatten_cons]
      exact (hsublist.trans (List.sublist_cons_self ',' back)).append_left front
    · obtain ⟨hmode, -⟩ := houtside (by simp [hkind])
      have hall := hpending.outside hmode
      rw [hbytes, List.singleton_append] at hall
      obtain ⟨front, back, rfl, rfl, -⟩ := exists_append_of_ascii (by decide) hall
      exact ⟨[front], rfl, by simp⟩

end Pending

/-! ### The arguments of a call -/

/-- A pass that starts behind a byte is a pass over what stands there. -/
theorem lexemesAt_append (front rest : List UInt8) (b : UInt8) :
    lexemesAt (front ++ b :: rest) (front.length + 1) =
      lexemesFrom .code (front.length + 1) rest := by
  rw [lexemesAt, List.append_cons, List.drop_left' (by simp)]

/-- A pass that starts behind an ASCII character of a text is a pass over what stands there. -/
theorem exists_behind {text : List Char} {k : Nat} {c : Char} (hc : c.toNat < 128)
    (h : (encode text)[k]? = some (byte c)) :
    ∃ pre post, text = pre ++ c :: post ∧
      lexemesAt (encode text) (k + 1) = lexemesFrom .code (k + 1) (encode post) := by
  obtain ⟨pre, post, rfl, rfl⟩ := spelledAt_of_ascii hc h
  refine ⟨pre, post, rfl, ?_⟩
  rw [List.singleton_append, encode_append, encode_cons_of_ascii hc, ← length_encode,
    lexemesAt_append]

/-- **The finished arguments of a call are texts**, and their characters are characters of the
source, in order. -/
theorem exists_texts (text : List Char) (opening : Nat) :
    ∃ texts : List (List Char),
      finishedArguments (encode text) opening = texts.map encode ∧ texts.flatten.Sublist text := by
  unfold finishedArguments
  split
  · rename_i hopening
    obtain ⟨pre, post, rfl, hbehind⟩ := exists_behind (by decide) hopening
    have hpass := lexes_lexemesFrom .code (opening + 1) (encode post)
    have hpending : Mode.Pending .code [] (encode post) post := pending_of_encode id rfl
    obtain ⟨texts, htexts, hsublist⟩ := exists_texts_of_finished 0 hpass hpending
    refine ⟨texts, by rw [hbehind, htexts], hsublist.trans ?_⟩
    exact (List.sublist_cons_self '(' post).trans (List.sublist_append_right pre _)
  · exact ⟨[], rfl, List.nil_sublist _⟩

theorem argumentText_encode (cs : List Char) : argumentText (encode cs) = trim cs := by
  rw [argumentText, decode_encode]

theorem flatten_dropLoneEmpty (args : List (List Char)) :
    (dropLoneEmpty args).flatten = args.flatten := by
  unfold dropLoneEmpty
  split
  · rename_i hargs
    rw [hargs]
    rfl
  · rfl

/-- Trimming drops characters and adds none. -/
theorem flatten_map_trim_sublist (texts : List (List Char)) :
    (texts.map trim).flatten.Sublist texts.flatten := by
  induction texts with
  | nil => exact List.Sublist.refl _
  | cons cs texts ih =>
    rw [List.map_cons, List.flatten_cons, List.flatten_cons]
    exact (isInfix_trim cs).sublist.append ih

/-- **The arguments of a call are cut out of the text**: their characters are characters of it, in
order. -/
theorem flatten_arguments_sublist (text : List Char) (opening : Nat) :
    (arguments (encode text) opening).flatten.Sublist text := by
  obtain ⟨texts, htexts, hsublist⟩ := exists_texts text opening
  have htrimmed : (texts.map encode).map argumentText = texts.map trim := by
    rw [List.map_map]
    exact List.map_congr_left fun cs _ => argumentText_encode cs
  rw [arguments_eq_finished, htexts, htrimmed]
  split
  · rw [flatten_dropLoneEmpty]
    exact (flatten_map_trim_sublist texts).trans hsublist
  · exact List.nil_sublist _

theorem sublist_of_mem_arguments {text : List Char} {opening : Nat} {x : List Char}
    (hx : x ∈ arguments (encode text) opening) : x.Sublist text :=
  (List.sublist_flatten_of_mem hx).trans (flatten_arguments_sublist text opening)

/-- **The raw arguments in a text are balanced texts.** -/
theorem balanced_of_mem_rawArguments {offset : Nat} {cs : List Char} {raws : List (List UInt8)}
    (h : rawArguments 0 (lexemesFrom .code offset (encode cs)) = some raws) {raw : List UInt8}
    (hraw : raw ∈ raws) : Balanced raw ∧ ∃ ds, raw = encode ds := by
  have hpass := lexes_lexemesFrom .code offset (encode cs)
  have hpending : Mode.Pending .code [] (encode cs) cs := pending_of_encode id rfl
  cases raws with
  | nil => cases hraw
  | cons r rs =>
    obtain ⟨hfirst, hothers⟩ := scan_of_rawArguments hpass h
    obtain ⟨texts, htexts, -⟩ := exists_texts_of_finished 0 hpass hpending
    rw [finished_of_rawArguments h, List.nil_append] at htexts
    obtain ⟨ds, -, hds⟩ := List.mem_map.mp (htexts ▸ hraw)
    refine ⟨?_, ds, hds.symm⟩
    rcases List.mem_cons.mp hraw with rfl | hraw
    · exact hfirst
    · exact hothers raw hraw

/-- **Reading arguments byte by byte breaks no character.** Wherever the parenthesis stands, and
whether the list is closed or not, each argument that is finished is valid UTF-8: the lenient
reading of it is the strict one, and its bytes are the bytes of what is read. What is read are
characters of the source, in order. The arguments are what is read, without the blanks around it,
so a `U+FFFD` in them is one of the source. -/
theorem finishedArguments_unbroken (text : List Char) (opening : Nat) :
    (∀ raw ∈ finishedArguments (encode text) opening,
      raw.toByteArray.IsValidUTF8 ∧ decode? raw = some (decode raw) ∧
        encode (decode raw) = raw) ∧
    ((finishedArguments (encode text) opening).flatMap decode).Sublist text ∧
    (arguments (encode text) opening =
      if (rawArguments 0 (lexemesAt (encode text) (opening + 1))).isSome then
        dropLoneEmpty ((finishedArguments (encode text) opening).map argumentText)
      else []) ∧
    (arguments (encode text) opening).flatten.count '\uFFFD' ≤ text.count '\uFFFD' := by
  obtain ⟨texts, htexts, hsublist⟩ := exists_texts text opening
  refine ⟨fun raw hraw => ?_, ?_, arguments_eq_finished _ _,
    (flatten_arguments_sublist text opening).count_le _⟩
  · obtain ⟨cs, -, rfl⟩ := List.mem_map.mp (htexts ▸ hraw)
    rw [decode_encode]
    exact ⟨isText_iff_isValidUTF8.mp (isText_encode cs), decode?_eq_some_iff.mpr rfl, rfl⟩
  · have hread : (texts.map encode).flatMap decode = texts.flatten := by
      rw [List.flatMap_map, List.flatten_eq_flatMap]
      exact congrArg (texts.flatMap ·) (funext decode_encode)
    rwa [htexts, hread]

/-- A backslash in front of a character of two bytes, comments between such characters, and a
`U+FFFD` that is one of the source. -/
theorem finishedArguments_unbroken_escaped :
    finishedArguments (encode "f(\"\\ä\", ö/* ü */ß// é\n, \uFFFD)".toList) 1 =
      [encode "\"\\ä\"".toList, encode " öß".toList, encode " \uFFFD".toList] ∧
    decode? (encode " öß".toList) = some (decode (encode " öß".toList)) ∧
    (arguments (encode "f(\"\\ä\", ö/* ü */ß// é\n, \uFFFD)".toList) 1).flatten.count '\uFFFD' ≤
      1 := by
  have hfinished : finishedArguments (encode "f(\"\\ä\", ö/* ü */ß// é\n, \uFFFD)".toList) 1 =
      [encode "\"\\ä\"".toList, encode " öß".toList, encode " \uFFFD".toList] := by
    decide +kernel
  obtain ⟨hvalid, -, -, hcount⟩ :=
    finishedArguments_unbroken "f(\"\\ä\", ö/* ü */ß// é\n, \uFFFD)".toList 1
  rw [hfinished] at hvalid
  obtain ⟨-, hstrict, -⟩ := hvalid (encode " öß".toList) (by simp)
  exact ⟨hfinished, hstrict, hcount⟩

end Telemetry.Source
