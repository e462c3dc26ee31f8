import Telemetry.Proofs.Source.Arguments

/-!
The arguments of a call depend on its own text alone, and not on the comments in it.

`closingParenthesis` gives the offset at which an argument list is closed, and `erased` what stands
between the two parentheses once the comments are gone.

* `exists_closing` — a list is read up to its closing parenthesis and no further, and without its
  comments it is its raw arguments, joined by commas.
* `Lexes.of_front`, `rawArguments_offset` — the raw arguments are settled by the bytes up to that
  parenthesis, whatever follows these and wherever they stand; `exists_inside` says the same of a
  text and of the arguments in it.
* `arguments_erasure` — so a call has the same arguments when its comments are erased, and when
  the text around it is replaced. Dropping a comment joins its neighbours, but the arguments are
  balanced without it, so they are read as they were.
-/

namespace Telemetry.Source

open Telemetry.Text

/-- The offset of the parenthesis that closes an argument list, `depth` brackets being open so
far. -/
def closingParenthesis : (depth : Nat) → List Lexeme → Option Nat
  | _, [] => none
  | depth, l :: ls =>
    match l.part depth with
    | .keep depth' => closingParenthesis depth' ls
    | .drop => closingParenthesis depth ls
    | .separator => closingParenthesis depth ls
    | .finish => some l.start

/-- The bytes of the lexemes between two parentheses that belong to no comment. -/
def erased (bs : List UInt8) (opening closing : Nat) : List UInt8 :=
  ((lexemesAt bs (opening + 1)).filter fun l =>
    l.start < closing && l.kind ≠ .comment).flatMap Lexeme.bytes

/-! ### Up to the closing parenthesis -/

section Closing

variable {mode : Mode} {offset depth : Nat} {bs r : List UInt8} {rs : List (List UInt8)}
  {ls : List Lexeme}

/-- A list that is closed has arguments. -/
theorem exists_rawArguments {c : Nat} (h : closingParenthesis depth ls = some c) :
    ∃ r rs, rawArguments depth ls = some (r :: rs) := by
  have hsome : ∃ raws, rawArguments depth ls = some raws := by
    fun_induction closingParenthesis depth ls with
    | case1 => cases h
    | case2 depth l ls depth' hpart ih =>
      obtain ⟨raws, hraws⟩ := ih h
      exact ⟨extendFirst l.bytes raws, by simp [rawArguments, hpart, hraws]⟩
    | case3 depth l ls hpart ih =>
      obtain ⟨raws, hraws⟩ := ih h
      exact ⟨raws, by simp [rawArguments, hpart, hraws]⟩
    | case4 depth l ls hpart ih =>
      obtain ⟨raws, hraws⟩ := ih h
      exact ⟨[] :: raws, by simp [rawArguments, hpart, hraws]⟩
    | case5 depth l ls hpart => exact ⟨[[]], by simp [rawArguments, hpart]⟩
  obtain ⟨raws, hraws⟩ := hsome
  cases raws with
  | nil => exact absurd hraws rawArguments_ne_nil
  | cons r rs => exact ⟨r, rs, hraws⟩

/-- **A list is read up to its closing parenthesis and no further**, and what is not a comment in
front of it are the raw arguments, joined by commas. -/
theorem exists_closing (hpass : Lexes mode offset bs ls)
    (h : rawArguments depth ls = some (r :: rs)) :
    ∃ before l after, ls = before ++ l :: after ∧ l.kind = .code ∧ l.bytes = [byte ')'] ∧
      (before.filter (·.kind ≠ .comment)).flatMap Lexeme.bytes =
        r ++ rs.flatMap (byte ',' :: ·) ∧
      ∀ after', closingParenthesis depth (before ++ l :: after') = some l.start ∧
        rawArguments depth (before ++ l :: after') = some (r :: rs) := by
  induction hpass generalizing depth r rs with
  | nil => cases h
  | @cons _ _ first _ ls hreads _ ih =>
    rcases rawArguments_cons_cases (fun hkind => (hreads.of_code hkind).2.2) h with
      ⟨hkind, hrest⟩ | ⟨depth', r', hkind, hpart, rfl, hrest⟩ |
      ⟨r', rs', hkind, hbytes, rfl, rfl, rfl, hrest⟩ | ⟨hkind, hbytes, rfl, rfl, rfl⟩
    · obtain ⟨before, l, after, rfl, hl, hbytes, hjoin, hlist⟩ := ih hrest
      have hpart : first.part depth = .drop := part_of_comment hkind
      refine ⟨first :: before, l, after, rfl, hl, hbytes, ?_, fun after' => ?_⟩
      · simpa [hkind] using hjoin
      · simpa [closingParenthesis, rawArguments, hpart] using hlist after'
    · obtain ⟨before, l, after, rfl, hl, hbytes, hjoin, hlist⟩ := ih hrest
      refine ⟨first :: before, l, after, rfl, hl, hbytes, ?_, fun after' => ⟨?_, ?_⟩⟩
      · rw [List.filter_cons_of_pos (by simpa using hkind), List.flatMap_cons, hjoin,
          List.append_assoc]
      · simpa [closingParenthesis, hpart] using (hlist after').1
      · exact rawArguments_keep hpart (hlist after').2
    · obtain ⟨before, l, after, rfl, hl, hbytes', hjoin, hlist⟩ := ih hrest
      have hpart : first.part 0 = .separator := (part_of_code 0 hkind hbytes).trans rfl
      refine ⟨first :: before, l, after, rfl, hl, hbytes', ?_, fun after' => ?_⟩
      · rw [List.filter_cons_of_pos (by simp [hkind]), List.flatMap_cons, hjoin, hbytes]
        simp
      · simpa [closingParenthesis, rawArguments, hpart] using hlist after'
    · have hpart : first.part 0 = .finish := (part_of_code 0 hkind hbytes).trans rfl
      refine ⟨[], first, ls, rfl, hkind, hbytes, rfl, fun after' => ?_⟩
      simp [closingParenthesis, rawArguments, hpart]

end Closing

/-! ### Other surroundings -/

section Front

variable {mode next : Mode} {offset : Nat} {bs : List UInt8} {l : Lexeme}
  {before after : List Lexeme}

/-- A step looks no further than the byte behind its lexeme. -/
theorem Reads.of_head? {rest rest' : List UInt8} (h : Reads mode l rest next)
    (hhead : rest'.head? = rest.head?) : Reads mode l rest' next := by
  cases h with
  | @single b hbytes hkind hsingle =>
    rw [← hhead] at hkind hsingle ⊢
    refine .single hbytes hkind (hsingle.imp_right ?_)
    rintro rfl
    exact List.head?_eq_none_iff.mp hhead
  | pair hbytes hkind hpair => exact .pair hbytes hkind hpair

/-- **A pass up to a parenthesis of code does not depend on what follows.** -/
theorem Lexes.of_front (h : Lexes mode offset bs (before ++ l :: after)) (hkind : l.kind = .code)
    (hbytes : l.bytes = [byte ')']) (rest : List UInt8) :
    Lexes mode offset (before.flatMap Lexeme.bytes ++ (byte ')' :: rest))
      (before ++ l :: lexemesFrom .code l.stop rest) := by
  induction before generalizing mode offset bs with
  | nil =>
    cases h with
    | cons hreads _ =>
      obtain ⟨rfl, -, -⟩ := hreads.of_code hkind
      have hparenthesis : Reads .code l rest .code :=
        @Reads.single .code l rest (byte ')') hbytes hkind (Or.inl rfl)
      have hpass := Lexes.cons hparenthesis (lexes_lexemesFrom .code l.stop rest)
      rwa [hbytes] at hpass
  | cons first before ih =>
    cases h with
    | cons hreads hrest =>
      obtain ⟨_, _, rest', hbs, -, -, -⟩ := hrest.split
      -- at least the parenthesis stands between the lexeme and what follows
      have hhead : (before.flatMap Lexeme.bytes ++ byte ')' :: rest).head? =
          (before.flatMap Lexeme.bytes ++ (l.bytes ++ rest')).head? := by
        rw [hbytes, List.head?_append, List.head?_append]
        rfl
      have hpass := Lexes.cons (hreads.of_head? (hbs ▸ hhead)) (ih hrest)
      rwa [← List.append_assoc, ← List.flatMap_cons] at hpass

theorem rawArguments_cons_congr {l l' : Lexeme} {ls ls' : List Lexeme} (depth : Nat)
    (hkind : l.kind = l'.kind) (hbytes : l.bytes = l'.bytes)
    (h : ∀ depth, rawArguments depth ls = rawArguments depth ls') :
    rawArguments depth (l :: ls) = rawArguments depth (l' :: ls') := by
  have hpart : l.part depth = l'.part depth := by rw [Lexeme.part, Lexeme.part, hkind, hbytes]
  simp only [rawArguments, hpart, hbytes, h]

/-- The raw arguments do not depend on where the list stands. -/
theorem rawArguments_offset (depth : Nat) (mode : Mode) (offset offset' : Nat) (bs : List UInt8) :
    rawArguments depth (lexemesFrom mode offset bs) =
      rawArguments depth (lexemesFrom mode offset' bs) := by
  fun_induction lexemesFrom mode offset bs generalizing depth offset' with
  | case1 => rfl
  | case2 mode offset b => exact rawArguments_cons_congr depth rfl rfl fun _ => rfl
  | case3 mode offset b ahead bs step hpair ih =>
    rw [lexemesFrom, if_pos hpair]
    exact rawArguments_cons_congr depth rfl rfl fun depth => ih depth _
  | case4 mode offset b ahead bs step hpair ih =>
    rw [lexemesFrom, if_neg hpair]
    exact rawArguments_cons_congr depth rfl rfl fun depth => ih depth _

/-- The lexemes in front of one that is read by a pass, and only these, start before it. -/
theorem Lexes.filter_start_lt (h : Lexes mode offset bs (before ++ l :: after))
    (p : Lexeme → Bool) :
    ((before ++ l :: after).filter fun l' => l'.start < l.start && p l') = before.filter p := by
  have hordered := List.pairwise_append.mp h.pairwise
  have hbefore : (before.filter fun l' => l'.start < l.start && p l') = before.filter p := by
    refine List.filter_congr fun l' hl' => ?_
    have hwithin := h.within (List.mem_append_left _ hl')
    have hstop := hordered.2.2 l' hl' l List.mem_cons_self
    rw [decide_eq_true (by omega), Bool.true_and]
  have hbehind : ((l :: after).filter fun l' => l'.start < l.start && p l') = [] := by
    refine List.filter_eq_nil_iff.mpr fun l' hl' => ?_
    have hstart : l.start ≤ l'.start := by
      rcases List.mem_cons.mp hl' with rfl | hl'
      · exact Nat.le_refl _
      · have hstop := (List.pairwise_cons.mp hordered.2.1).1 l' hl'
        have hwithin := h.within (l := l) (by simp)
        omega
    rw [decide_eq_false (by omega), Bool.false_and]
    exact Bool.false_ne_true
  rw [List.filter_append, hbefore, hbehind, List.append_nil]

end Front

/-- **A list that is closed**: its text divides at the closing parenthesis, what is left of it
without comments are its raw arguments, joined by commas, and it has these arguments wherever its
text stands and whatever follows. -/
theorem exists_middle {front tail : List UInt8} {closing : Nat}
    (h : closingParenthesis 0 (lexemesAt (front ++ byte '(' :: tail) (front.length + 1)) =
      some closing) :
    ∃ middle rest r rs, tail = middle ++ byte ')' :: rest ∧
      closing = front.length + 1 + middle.length ∧
      erased (front ++ byte '(' :: tail) front.length closing = r ++ rs.flatMap (byte ',' :: ·) ∧
      ∀ offset rest', rawArguments 0 (lexemesFrom .code offset (middle ++ byte ')' :: rest')) =
        some (r :: rs) := by
  rw [lexemesAt_append] at h
  obtain ⟨r, rs, hraws⟩ := exists_rawArguments h
  have hpass := lexes_lexemesFrom .code (front.length + 1) tail
  obtain ⟨before, l, after, hsplit, hkind, hbytes, hjoin, hlist⟩ := exists_closing hpass hraws
  obtain rfl : l.start = closing := Option.some.inj ((hlist after).1.symm.trans (hsplit ▸ h))
  rw [hsplit] at hpass
  obtain ⟨_, _, rest, htail, hstart, -, -⟩ := hpass.split
  refine ⟨before.flatMap Lexeme.bytes, rest, r, rs, ?_, hstart, ?_, fun offset rest' => ?_⟩
  · rw [htail, hbytes, List.singleton_append]
  · rw [erased, lexemesAt_append, hsplit, hpass.filter_start_lt, hjoin]
  · rw [rawArguments_offset 0 .code offset (front.length + 1),
      ← (hpass.of_front hkind hbytes rest').eq_lexemesFrom]
    exact (hlist _).2

/-- **Where a list is closed** does not depend on what follows. -/
theorem closingParenthesis_of_front {front middle rest : List UInt8}
    (h : closingParenthesis 0 (lexemesAt (front ++ byte '(' :: (middle ++ byte ')' :: rest))
      (front.length + 1)) = some (front.length + 1 + middle.length)) (rest' : List UInt8) :
    closingParenthesis 0 (lexemesAt (front ++ byte '(' :: (middle ++ byte ')' :: rest'))
      (front.length + 1)) = some (front.length + 1 + middle.length) := by
  rw [lexemesAt_append] at h ⊢
  obtain ⟨r, rs, hraws⟩ := exists_rawArguments h
  have hpass := lexes_lexemesFrom .code (front.length + 1) (middle ++ byte ')' :: rest)
  obtain ⟨before, l, after, hsplit, hkind, hbytes, -, hlist⟩ := exists_closing hpass hraws
  have hl : l.start = front.length + 1 + middle.length :=
    Option.some.inj ((hlist after).1.symm.trans (hsplit ▸ h))
  rw [hsplit] at hpass
  obtain ⟨_, _, _, hdivided, hstart, -, -⟩ := hpass.split
  obtain ⟨rfl, -⟩ := List.append_inj hdivided (by omega)
  rw [← (hpass.of_front hkind hbytes rest').eq_lexemesFrom, ← hl]
  exact (hlist _).1

/-! ### Calls -/

/-- The arguments of a call whose list is read as `raws`. -/
theorem arguments_of_rawArguments (pre : List Char) {inside post : List Char}
    {raws : List (List UInt8)}
    (h : ∀ offset, rawArguments 0
      (lexemesFrom .code offset (encode inside ++ byte ')' :: encode post)) = some raws) :
    arguments (encode (pre ++ '(' :: (inside ++ ')' :: post))) (byteSize pre) =
      dropLoneEmpty (raws.map argumentText) := by
  have hencode : encode (pre ++ '(' :: (inside ++ ')' :: post)) =
      encode pre ++ byte '(' :: (encode inside ++ byte ')' :: encode post) := by
    rw [encode_append, encode_cons_of_ascii (by decide), encode_append,
      encode_cons_of_ascii (by decide)]
  rw [hencode, ← length_encode, arguments_append, h]

/-- The arguments of a call do not depend on what stands in front of its parenthesis. -/
theorem arguments_behind (pre pre' tail : List Char) :
    arguments (encode (pre ++ '(' :: tail)) (byteSize pre) =
      arguments (encode (pre' ++ '(' :: tail)) (byteSize pre') := by
  rw [encode_append, encode_append, encode_cons_of_ascii (by decide), ← length_encode,
    ← length_encode, arguments_append, arguments_append,
    rawArguments_offset 0 .code _ ((encode pre').length + 1)]

/-- A list that is never closed has no arguments. -/
theorem arguments_of_unclosed {bs : List UInt8} {opening : Nat}
    (h : closingParenthesis 0 (lexemesAt bs (opening + 1)) = none) : arguments bs opening = [] := by
  unfold arguments
  split
  · cases hraws : rawArguments 0 (lexemesAt bs (opening + 1)) with
    | none => rfl
    | some raws =>
      cases raws with
      | nil => exact absurd hraws rawArguments_ne_nil
      | cons r rs =>
        obtain ⟨before, l, after, hsplit, -, -, -, hlist⟩ :=
          exists_closing (lexes_lexemesFrom _ _ _) hraws
        have hclosing := (hlist after).1
        rw [← hsplit] at hclosing
        cases h.symm.trans hclosing
  · rfl

/-- **A list that is closed in a text**: the text divides at the closing parenthesis, the list is
closed there whatever follows, and it has the same arguments wherever it stands. -/
theorem exists_inside {head tail : List Char} {closing : Nat}
    (h : closingParenthesis 0 (lexemesAt (encode (head ++ '(' :: tail)) (byteSize head + 1)) =
      some closing) :
    ∃ inside behind, tail = inside ++ ')' :: behind ∧
      closing = byteSize head + 1 + byteSize inside ∧
      (∀ post, closingParenthesis 0 (lexemesAt (encode (head ++ '(' :: (inside ++ ')' :: post)))
        (byteSize head + 1)) = some closing) ∧
      ∀ pre post, arguments (encode (pre ++ '(' :: (inside ++ ')' :: post))) (byteSize pre) =
        arguments (encode (head ++ '(' :: tail)) (byteSize head) := by
  have hencode : ∀ cs, encode (head ++ '(' :: cs) = encode head ++ byte '(' :: encode cs := by
    intro cs
    rw [encode_append, encode_cons_of_ascii (by decide)]
  rw [hencode, ← length_encode] at h
  obtain ⟨middle, rest, r, rs, htail, hclosing, -, hraws⟩ := exists_middle h
  obtain ⟨inside, behind, rfl, rfl, rfl⟩ := exists_append_of_ascii (by decide) htail.symm
  have hinside : ∀ post,
      encode (inside ++ ')' :: post) = encode inside ++ byte ')' :: encode post := by
    intro post
    rw [encode_append, encode_cons_of_ascii (by decide)]
  have hsame : ∀ pre post, arguments (encode (pre ++ '(' :: (inside ++ ')' :: post)))
      (byteSize pre) = dropLoneEmpty ((r :: rs).map argumentText) := by
    intro pre post
    exact arguments_of_rawArguments pre fun offset => hraws offset (encode post)
  refine ⟨inside, behind, rfl, ?_, fun post => ?_, fun pre post => ?_⟩
  · rw [hclosing, length_encode, length_encode]
  · rw [hclosing, htail] at h
    rw [hencode, hinside, ← length_encode, hclosing]
    exact closingParenthesis_of_front h (encode post)
  · rw [hsame, hsame]

theorem isText_join {r : List UInt8} {rs : List (List UInt8)} (hr : IsText r)
    (hrs : ∀ r' ∈ rs, IsText r') : IsText (r ++ rs.flatMap (byte ',' :: ·)) := by
  induction rs generalizing r with
  | nil => simpa using hr
  | cons r' rs ih =>
    have hcomma : IsText (byte ',' :: r') := by
      obtain ⟨cs, rfl⟩ := hrs r' List.mem_cons_self
      exact ⟨',' :: cs, rfl⟩
    rw [List.flatMap_cons]
    exact hr.append (ih hcomma fun r'' hr'' => hrs r'' (List.mem_cons_of_mem _ hr''))

/-- **A call's arguments depend on its own text without comments, and on nothing else.** Where a
list is closed, what stands between its parentheses is a text again once the comments are erased;
put between parentheses anywhere, it has the arguments of the call. So has the text of the call as
it stands, comments included. -/
theorem arguments_erasure {text : List Char} {opening closing : Nat}
    (hopening : (encode text)[opening]? = some (byte '('))
    (hclosing : closingParenthesis 0 (lexemesAt (encode text) (opening + 1)) = some closing) :
    (∃ inside, encode inside = erased (encode text) opening closing ∧ ∀ pre post : List Char,
      arguments (encode (pre ++ '(' :: (inside ++ ')' :: post))) (byteSize pre) =
        arguments (encode text) opening) ∧
    ∀ pre post : List Char,
      arguments (encode (pre ++ (slice text opening (closing + 1) ++ post))) (byteSize pre) =
        arguments (encode text) opening := by
  obtain ⟨front, tail, rfl, rfl⟩ := spelledAt_of_ascii (by decide) hopening
  rw [List.singleton_append] at hclosing ⊢
  have hencode : encode (front ++ '(' :: tail) = encode front ++ byte '(' :: encode tail := by
    rw [encode_append, encode_cons_of_ascii (by decide)]
  rw [hencode, ← length_encode] at hclosing
  obtain ⟨middle, rest, r, rs, htail, hclose, herased, hraws⟩ := exists_middle hclosing
  have hdivided : IsText middle ∧ IsText rest :=
    isText_of_ascii (c := ')') (by decide) (htail ▸ isText_encode tail)
  obtain ⟨⟨inside, rfl⟩, behind, rfl⟩ := hdivided
  obtain rfl : tail = inside ++ ')' :: behind := by
    rw [← decode_encode tail, htail, ← decode_encode (inside ++ ')' :: behind), encode_append,
      encode_cons_of_ascii (by decide)]
  have harguments :=
    arguments_of_rawArguments front fun offset => hraws offset (encode behind)
  have hbalanced : ∀ raw ∈ r :: rs, Balanced raw ∧ IsText raw := by
    intro raw hraw
    exact balanced_of_mem_rawArguments (htail ▸ hraws 0 (encode behind)) hraw
  rw [harguments]
  constructor
  · obtain ⟨cs, hcs⟩ : IsText (r ++ rs.flatMap (byte ',' :: ·)) :=
      isText_join (hbalanced r List.mem_cons_self).2
        fun r' hr' => (hbalanced r' (List.mem_cons_of_mem _ hr')).2
    refine ⟨cs, ?_, fun pre post => arguments_of_rawArguments pre fun offset => ?_⟩
    · rw [hencode, ← length_encode, herased, hcs]
    · rw [← hcs, List.append_assoc]
      exact rawArguments_join offset _ (hbalanced r List.mem_cons_self).1
        fun r' hr' => (hbalanced r' (List.mem_cons_of_mem _ hr')).1
  · intro pre post
    have hslice : slice (front ++ '(' :: (inside ++ ')' :: behind)) (byteSize front) (closing + 1) =
        '(' :: (inside ++ [')']) := by
      have hmiddle := slice_append front ('(' :: (inside ++ [')'])) behind
      have hsize : byteSize front + byteSize ('(' :: (inside ++ [')'])) = closing + 1 := by
        rw [byteSize_cons, byteSize_concat_of_ascii (by decide), utf8Size_of_ascii (by decide),
          hclose, length_encode, length_encode]
        omega
      rw [hsize] at hmiddle
      simpa using hmiddle
    rw [hslice, List.cons_append, List.append_assoc]
    exact arguments_of_rawArguments pre fun offset => hraws offset _

/-- A comma in one comment, a parenthesis in another, and a slash that is left between blanks. -/
theorem arguments_erasure_commented :
    arguments (encode "g(a ,  1 / 2) + h()".toList) 1 =
      arguments (encode "f(a /* , */, // )\n 1 / 2)".toList) 1 := by
  have hopening : (encode "f(a /* , */, // )\n 1 / 2)".toList)[1]? = some (byte '(') := by
    decide +kernel
  have hclosing : closingParenthesis 0 (lexemesAt (encode "f(a /* , */, // )\n 1 / 2)".toList) 2) =
      some 24 := by
    decide +kernel
  obtain ⟨⟨inside, hinside, hanywhere⟩, -⟩ := arguments_erasure hopening hclosing
  obtain rfl : inside = "a ,  1 / 2".toList := by
    rw [← decode_encode inside, hinside]
    decide +kernel
  exact hanywhere "g".toList " + h()".toList

end Telemetry.Source
