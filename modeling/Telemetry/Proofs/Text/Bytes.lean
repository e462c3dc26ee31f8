import Telemetry.Proofs.Text.Reading
import Telemetry.Text.Slice
import Telemetry.Text.Utf8

/-!
Characters and their bytes. A text is searched by characters and addressed by bytes; the lemmas
here go from one view to the other.

* `encode_append_inj` — UTF-8 is a prefix code: the bytes of a text determine its characters, and
  the bytes of a part of it the part.
* `SpelledAt` — a phrase stands in a text at a byte offset; `spelledAt_iff` says so by the bytes
  alone, since the first byte of a character is no other byte of a character.
* `slice_append` — a slice between two character boundaries is what stands between them.
-/

namespace Telemetry.Text

/-! ### Sizes -/

@[simp] theorem byteSize_nil : byteSize [] = 0 := rfl

private theorem foldl_utf8Size (n : Nat) (cs : List Char) :
    cs.foldl (fun n c => n + c.utf8Size) n = n + byteSize cs := by
  induction cs generalizing n with
  | nil => rfl
  | cons c cs ih =>
    rw [byteSize, List.foldl_cons, List.foldl_cons, ih, ih]
    omega

@[simp] theorem byteSize_cons (c : Char) (cs : List Char) :
    byteSize (c :: cs) = c.utf8Size + byteSize cs := by
  rw [byteSize, List.foldl_cons, foldl_utf8Size, Nat.zero_add]

@[simp] theorem byteSize_append (cs ds : List Char) :
    byteSize (cs ++ ds) = byteSize cs + byteSize ds := by
  induction cs with
  | nil => simp
  | cons c cs ih =>
    rw [List.cons_append, byteSize_cons, byteSize_cons, ih]
    omega

theorem byteSize_eq_zero_iff {cs : List Char} : byteSize cs = 0 ↔ cs = [] := by
  cases cs with
  | nil => simp
  | cons c cs =>
    have := c.utf8Size_pos
    simp only [byteSize_cons, reduceCtorEq, iff_false]
    omega

theorem byteSize_pos {cs : List Char} (h : cs ≠ []) : 0 < byteSize cs :=
  Nat.pos_of_ne_zero fun hzero => h (byteSize_eq_zero_iff.mp hzero)

/-- A part of a text, taken from it in order, is no larger. -/
theorem byteSize_le_of_sublist {cs ds : List Char} (h : cs.Sublist ds) :
    byteSize cs ≤ byteSize ds := by
  induction h with
  | slnil => exact Nat.le_refl _
  | cons c _ ih =>
    rw [byteSize_cons]
    omega
  | cons_cons c _ ih =>
    rw [byteSize_cons, byteSize_cons]
    omega

theorem byteSize_trim_le (cs : List Char) : byteSize (trim cs) ≤ byteSize cs :=
  byteSize_le_of_sublist (isInfix_trim cs).sublist

@[simp] theorem utf8ByteSize_ofList (cs : List Char) :
    (String.ofList cs).utf8ByteSize = byteSize cs := by
  induction cs with
  | nil => rfl
  | cons c cs ih =>
    have hcons : String.ofList (c :: cs) = String.singleton c ++ String.ofList cs :=
      String.toList_injective (by simp)
    rw [hcons, String.utf8ByteSize_append, ih, byteSize_cons, String.utf8ByteSize_singleton]

/-- The bytes of a string are those of its characters. -/
@[simp] theorem byteSize_toList (s : String) : byteSize s.toList = s.utf8ByteSize := by
  rw [← utf8ByteSize_ofList, String.ofList_toList]

@[simp] theorem encode_nil : encode [] = [] := rfl

theorem encode_cons (c : Char) (cs : List Char) :
    encode (c :: cs) = String.utf8EncodeChar c ++ encode cs := rfl

@[simp] theorem encode_append (cs ds : List Char) :
    encode (cs ++ ds) = encode cs ++ encode ds :=
  List.flatMap_append

@[simp] theorem length_encode (cs : List Char) : (encode cs).length = byteSize cs := by
  induction cs with
  | nil => rfl
  | cons c cs ih =>
    rw [encode_cons, List.length_append, String.length_utf8EncodeChar, ih, byteSize_cons]

/-- An ASCII character is its own byte. -/
theorem utf8EncodeChar_of_ascii {c : Char} (h : c.toNat < 128) :
    String.utf8EncodeChar c = [byte c] := by
  have hsize : c.utf8Size = 1 := by
    rw [Char.utf8Size_eq_one_iff, UInt32.le_iff_toNat_le]
    show c.toNat ≤ 127
    omega
  exact String.utf8EncodeChar_eq_singleton hsize

theorem encode_cons_of_ascii {c : Char} (h : c.toNat < 128) (cs : List Char) :
    encode (c :: cs) = byte c :: encode cs := by
  rw [encode_cons, utf8EncodeChar_of_ascii h, List.singleton_append]

theorem utf8Size_of_ascii {c : Char} (h : c.toNat < 128) : c.utf8Size = 1 := by
  rw [← String.length_utf8EncodeChar, utf8EncodeChar_of_ascii h, List.length_singleton]

theorem byteSize_concat_of_ascii {c : Char} (h : c.toNat < 128) (cs : List Char) :
    byteSize (cs ++ [c]) = byteSize cs + 1 := by
  rw [byteSize_append, byteSize_cons, byteSize_nil, utf8Size_of_ascii h]

/-! ### A prefix code -/

/-- The bytes of a character end where they end. -/
theorem utf8EncodeChar_append_inj {c d : Char} {as bs : List UInt8}
    (h : String.utf8EncodeChar c ++ as = String.utf8EncodeChar d ++ bs) : c = d ∧ as = bs := by
  have hdecode : ∀ (c : Char) (as : List UInt8),
      ByteArray.utf8DecodeChar? (String.utf8EncodeChar c ++ as).toByteArray 0 = some c := by
    intro c as
    rw [List.toByteArray_append]
    exact ByteArray.utf8DecodeChar?_utf8EncodeChar_append
  have hchar : c = d := Option.some.inj (by rw [← hdecode c as, h, hdecode d bs])
  subst hchar
  exact ⟨rfl, List.append_cancel_left h⟩

/-- **UTF-8 is a prefix code**: bytes that start with the bytes of a text belong to a text that
starts with it. -/
theorem encode_append_inj {cs ds : List Char} {bs : List UInt8}
    (h : encode ds = encode cs ++ bs) : ∃ es, ds = cs ++ es ∧ bs = encode es := by
  induction cs generalizing ds with
  | nil => exact ⟨ds, rfl, h.symm⟩
  | cons c cs ih =>
    cases ds with
    | nil =>
      have hlen := congrArg List.length h
      have := c.utf8Size_pos
      simp [encode_cons] at hlen
      omega
    | cons d ds =>
      rw [encode_cons, encode_cons, List.append_assoc] at h
      obtain ⟨rfl, htail⟩ := utf8EncodeChar_append_inj h
      obtain ⟨es, rfl, hbs⟩ := ih htail
      exact ⟨es, rfl, hbs⟩

/-- A byte that can start a character does start one. -/
theorem exists_boundary {cs : List Char} {k : Nat} {b : UInt8} (hk : (encode cs)[k]? = some b)
    (hb : b.IsUTF8FirstByte) : ∃ pre post, cs = pre ++ post ∧ byteSize pre = k := by
  induction cs generalizing k with
  | nil => simp at hk
  | cons c cs ih =>
    rw [encode_cons] at hk
    by_cases hlt : k < (String.utf8EncodeChar c).length
    · rw [List.getElem?_append_left hlt, List.getElem?_eq_getElem hlt] at hk
      cases hk
      exact ⟨[], c :: cs, rfl, (UInt8.isUTF8FirstByte_getElem_utf8EncodeChar.mp hb).symm⟩
    · rw [List.getElem?_append_right (by omega)] at hk
      obtain ⟨pre, post, rfl, hsize⟩ := ih hk
      rw [String.length_utf8EncodeChar] at hlt hsize
      exact ⟨c :: pre, post, rfl, by rw [byteSize_cons, hsize]; omega⟩

/-! ### Phrases at an offset -/

/-- The phrase `xs` stands in the text `cs` at the byte offset `k`. -/
def SpelledAt (cs : List Char) (k : Nat) (xs : List Char) : Prop :=
  ∃ pre post, cs = pre ++ (xs ++ post) ∧ byteSize pre = k

/-- **Where a phrase stands is a matter of its bytes.** -/
theorem spelledAt_iff {cs xs : List Char} {k : Nat} (hxs : xs ≠ []) :
    SpelledAt cs k xs ↔ encode xs <+: (encode cs).drop k := by
  constructor
  · rintro ⟨pre, post, rfl, rfl⟩
    rw [encode_append, encode_append, ← length_encode, List.drop_left]
    exact List.prefix_append _ _
  · rintro ⟨bs, hbs⟩
    obtain ⟨x, xs, rfl⟩ := List.exists_cons_of_ne_nil hxs
    have hpos : 0 < (String.utf8EncodeChar x).length := by simp [x.utf8Size_pos]
    have hfirst : ((encode cs).drop k)[0]? = some (String.utf8EncodeChar x)[0] := by
      rw [← hbs, encode_cons, List.append_assoc, List.getElem?_append_left hpos]
      exact List.getElem?_eq_getElem hpos
    rw [List.getElem?_drop, Nat.add_zero] at hfirst
    obtain ⟨pre, post, rfl, rfl⟩ :=
      exists_boundary hfirst UInt8.isUTF8FirstByte_getElem_zero_utf8EncodeChar
    rw [encode_append, ← length_encode, List.drop_left] at hbs
    obtain ⟨rest, rfl, -⟩ := encode_append_inj hbs.symm
    exact ⟨pre, rest, rfl, rfl⟩

/-- The bytes of a phrase are those of the text at its offset. -/
theorem getElem?_of_spelledAt {cs xs : List Char} {k j : Nat} (h : SpelledAt cs k xs)
    (hj : j < byteSize xs) : (encode cs)[k + j]? = (encode xs)[j]? := by
  obtain ⟨pre, post, rfl, rfl⟩ := h
  rw [encode_append, encode_append, ← length_encode,
    List.getElem?_append_right (Nat.le_add_right _ _), Nat.add_sub_cancel_left,
    List.getElem?_append_left (by rwa [length_encode])]

/-- An ASCII byte is the character that it encodes. -/
theorem spelledAt_of_ascii {cs : List Char} {k : Nat} {c : Char} (hc : c.toNat < 128)
    (h : (encode cs)[k]? = some (byte c)) : SpelledAt cs k [c] := by
  rw [spelledAt_iff (by simp), encode_cons, encode_nil, List.append_nil,
    utf8EncodeChar_of_ascii hc]
  obtain ⟨hk, hbyte⟩ := List.getElem?_eq_some_iff.mp h
  rw [List.drop_eq_getElem_cons hk, hbyte]
  exact ⟨_, rfl⟩

/-- Of two ways to divide a text, the one with the smaller front divides the front of the other. -/
theorem exists_append_of_byteSize_le {pre pre' post post' : List Char}
    (h : pre ++ post = pre' ++ post') (hle : byteSize pre ≤ byteSize pre') :
    ∃ mid, pre' = pre ++ mid ∧ post = mid ++ post' := by
  rcases List.append_eq_append_iff.mp h with ⟨mid, hpre, hpost⟩ | ⟨mid, hpre, hpost⟩
  · exact ⟨mid, hpre, hpost⟩
  · have hmid : mid = [] := byteSize_eq_zero_iff.mp (by
      rw [hpre, byteSize_append] at hle
      omega)
    subst hmid
    exact ⟨[], by simpa using hpre.symm, by simpa using hpost.symm⟩

/-- A text divides at a byte offset in one way. -/
theorem append_inj_of_byteSize {pre pre' post post' : List Char}
    (h : pre ++ post = pre' ++ post') (hsize : byteSize pre = byteSize pre') :
    pre = pre' ∧ post = post' := by
  obtain ⟨mid, rfl, rfl⟩ := exists_append_of_byteSize_le h (Nat.le_of_eq hsize)
  have hmid : mid = [] := byteSize_eq_zero_iff.mp (by
    rw [byteSize_append] at hsize
    omega)
  subst hmid
  simp

/-- A phrase stands at an offset exactly if its parts stand there one behind the other. -/
theorem spelledAt_append_iff {cs xs ys : List Char} {k : Nat} :
    SpelledAt cs k (xs ++ ys) ↔ SpelledAt cs k xs ∧ SpelledAt cs (k + byteSize xs) ys := by
  constructor
  · rintro ⟨pre, post, rfl, rfl⟩
    exact ⟨⟨pre, ys ++ post, by simp, rfl⟩, pre ++ xs, post, by simp, byteSize_append _ _⟩
  · rintro ⟨⟨pre, post, rfl, rfl⟩, pre', post', hsplit, hsize⟩
    rw [← List.append_assoc] at hsplit
    obtain ⟨-, rfl⟩ := append_inj_of_byteSize hsplit (by rw [byteSize_append, hsize])
    exact ⟨pre, post', by simp, rfl⟩

theorem spelledAt_le {cs xs : List Char} {k : Nat} (h : SpelledAt cs k xs) :
    k + byteSize xs ≤ byteSize cs := by
  obtain ⟨pre, post, rfl, rfl⟩ := h
  rw [byteSize_append, byteSize_append]
  omega

theorem spelledAt_lt {cs xs : List Char} {k : Nat} (h : SpelledAt cs k xs) (hxs : xs ≠ []) :
    k < byteSize cs := by
  have hpos := byteSize_pos hxs
  have hle := spelledAt_le h
  omega

/-! ### Slices -/

theorem dropBytes_append (pre post : List Char) :
    dropBytes (byteSize pre) (pre ++ post) = post := by
  induction pre with
  | nil =>
    cases post with
    | nil => rfl
    | cons c post => rfl
  | cons c pre ih =>
    obtain ⟨n, hn⟩ : ∃ n, byteSize (c :: pre) = n + 1 :=
      Nat.exists_eq_succ_of_ne_zero (Nat.ne_of_gt (byteSize_pos (by simp)))
    rw [hn, List.cons_append, dropBytes, ← hn, byteSize_cons, Nat.add_sub_cancel_left, ih]

theorem takeBytes_append_eq (n : Nat) (pre post : List Char) :
    takeBytes n (pre ++ post) =
      if byteSize pre ≤ n then pre ++ takeBytes (n - byteSize pre) post else takeBytes n pre := by
  induction pre generalizing n with
  | nil => simp
  | cons c pre ih =>
    rw [List.cons_append, takeBytes, ih, takeBytes, byteSize_cons]
    by_cases hc : c.utf8Size ≤ n
    · by_cases hpre : byteSize pre ≤ n - c.utf8Size
      · rw [if_pos hc, if_pos hpre, if_pos (by omega), Nat.sub_add_eq, List.cons_append]
      · rw [if_pos hc, if_neg hpre, if_neg (by omega), if_pos hc]
    · rw [if_neg hc, if_neg (by omega), if_neg hc]

theorem takeBytes_zero (cs : List Char) : takeBytes 0 cs = [] := by
  cases cs with
  | nil => rfl
  | cons c cs =>
    have := c.utf8Size_pos
    rw [takeBytes, if_neg (by omega)]

theorem takeBytes_append (pre post : List Char) : takeBytes (byteSize pre) (pre ++ post) = pre := by
  rw [takeBytes_append_eq, if_pos (Nat.le_refl _), Nat.sub_self, takeBytes_zero, List.append_nil]

theorem takeBytes_of_byteSize_le {n : Nat} {cs : List Char} (h : byteSize cs ≤ n) :
    takeBytes n cs = cs := by
  have hwhole := takeBytes_append_eq n cs []
  rw [List.append_nil, if_pos h] at hwhole
  rw [hwhole, takeBytes, List.append_nil]

/-- **The front of a text up to a number of bytes** ends where the next character does not fit. -/
theorem takeBytes_longest (n : Nat) (cs : List Char) :
    ∃ rest, cs = takeBytes n cs ++ rest ∧ byteSize (takeBytes n cs) ≤ n ∧
      ∀ c ∈ rest.head?, n < byteSize (takeBytes n cs) + c.utf8Size := by
  induction cs generalizing n with
  | nil => exact ⟨[], rfl, Nat.zero_le _, by simp⟩
  | cons c cs ih =>
    by_cases hc : c.utf8Size ≤ n
    · obtain ⟨rest, hcs, hfits, hnext⟩ := ih (n - c.utf8Size)
      rw [takeBytes, if_pos hc]
      refine ⟨rest, by rw [List.cons_append, ← hcs], ?_, fun d hd => ?_⟩
      · rw [byteSize_cons]
        omega
      · have := hnext d hd
        rw [byteSize_cons]
        omega
    · rw [takeBytes, if_neg hc]
      refine ⟨c :: cs, rfl, Nat.zero_le _, ?_⟩
      rintro _ ⟨⟩
      rw [byteSize_nil]
      omega

/-- **A slice between two character boundaries** is what stands between them. -/
theorem slice_append (pre mid post : List Char) :
    slice (pre ++ (mid ++ post)) (byteSize pre) (byteSize pre + byteSize mid) = mid := by
  rw [slice, dropBytes_append, Nat.add_sub_cancel_left, takeBytes_append]

theorem takeBytes_takeBytes {m n : Nat} (h : m ≤ n) (cs : List Char) :
    takeBytes m (takeBytes n cs) = takeBytes m cs := by
  induction cs generalizing m n with
  | nil => rfl
  | cons c cs ih =>
    by_cases hm : c.utf8Size ≤ m
    · simp only [takeBytes, if_pos hm, if_pos (hm.trans h), ih (Nat.sub_le_sub_right h _)]
    · by_cases hn : c.utf8Size ≤ n
      · simp only [takeBytes, if_neg hm, if_pos hn]
      · simp only [takeBytes, if_neg hm, if_neg hn]

/-- The front of a slice is a slice. -/
theorem takeBytes_slice {start k stop : Nat} (h : k ≤ stop) (cs : List Char) :
    takeBytes (k - start) (slice cs start stop) = slice cs start k :=
  takeBytes_takeBytes (Nat.sub_le_sub_right h _) _

end Telemetry.Text
