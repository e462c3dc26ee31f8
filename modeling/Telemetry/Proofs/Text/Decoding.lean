import Mathlib.Tactic.SplitIfs
import Telemetry.Proofs.Text.Bytes

/-!
Reading bytes back as characters.

* `decode_encode` — the bytes of a text are read back as the text.
* `utf8EncodeChar_of_unit` — a well-formed unit is the bytes of its character, so that the strict
  reading accepts the bytes of texts and no others: `decode?_eq_some_iff`.
* `IsText` — bytes that encode a text, which are the valid UTF-8 (`isText_iff_isValidUTF8`);
  `exists_append_of_ascii` divides a text at an ASCII byte.
-/

namespace Telemetry.Text

/-! ### Reading back -/

/-- A byte that continues a character contributes its six bits. -/
theorem trail_cons {n : Nat} (h : n < 64) (more bits used : Nat) (bs : List UInt8) :
    trail (more + 1) bits used (UInt8.ofNat (n + 128) :: bs) =
      trail more (bits * 64 + n) (used + 1) bs := by
  have hmod : (n + 128) % 64 = n := by omega
  have hrange : (decide (0x80 ≤ n + 128) && decide (n + 128 ≤ 0xBF)) = true := by
    simp only [Bool.and_eq_true, decide_eq_true_eq]
    omega
  simp only [trail, UInt8.toNat_ofNat_of_lt' (show n + 128 < 256 by omega), hrange, if_true, hmod]

/-- A leading byte and a second one that it admits. -/
theorem unit_lead {m n : Nat} {lead : Lead} (hm : 0x80 ≤ m ∧ m < 256)
    (hlead : Lead.ofByte? m = some lead) (hn : n < 64)
    (hlow : lead.low ≤ n + 128) (hhigh : n + 128 ≤ lead.high) (rest : List UInt8) :
    unit (UInt8.ofNat m) (UInt8.ofNat (n + 128) :: rest) =
      trail lead.more (lead.bits * 64 + n) 1 rest := by
  have hmod : (n + 128) % 64 = n := by omega
  have hrange : (decide (lead.low ≤ n + 128) && decide (n + 128 ≤ lead.high)) = true := by
    simp only [Bool.and_eq_true, decide_eq_true_eq]
    exact ⟨hlow, hhigh⟩
  simp only [unit, UInt8.toNat_ofNat_of_lt' hm.2, Nat.not_lt.mpr hm.1, if_false, hlead,
    UInt8.toNat_ofNat_of_lt' (show n + 128 < 256 by omega), hrange, if_true, hmod]

section Lead

variable {v : Nat}

/-- The leading byte of a character of two bytes. -/
theorem lead_two (hlow : 128 ≤ v) (hhigh : v ≤ 2047) :
    Lead.ofByte? (v / 64 % 32 + 192) = some ⟨0, v / 64, 0x80, 0xBF⟩ := by
  have hbits : v / 64 % 32 + 192 - 0xC0 = v / 64 := by omega
  have hrange :
      (decide (0xC2 ≤ v / 64 % 32 + 192) && decide (v / 64 % 32 + 192 ≤ 0xDF)) = true := by
    simp only [Bool.and_eq_true, decide_eq_true_eq]
    omega
  simp only [Lead.ofByte?, hrange, if_true, hbits]

/-- The leading byte of a character of three bytes admits its second byte. -/
theorem lead_three (hlow : 2048 ≤ v) (hhigh : v ≤ 65535) (hvalid : v < 0xD800 ∨ 0xDFFF < v) :
    ∃ low high, Lead.ofByte? (v / 4096 % 16 + 224) = some ⟨1, v / 4096, low, high⟩ ∧
      low ≤ v / 64 % 64 + 128 ∧ v / 64 % 64 + 128 ≤ high := by
  have hbits : v / 4096 % 16 = v / 4096 := by omega
  unfold Lead.ofByte?
  simp only [hbits, Bool.and_eq_true, decide_eq_true_eq, beq_iff_eq]
  split_ifs with h₁ h₂ h₃ h₄ h₅ h₆ h₇
  · omega
  · exact ⟨0xA0, 0xBF, by simp; omega, by omega, by omega⟩
  · exact ⟨0x80, 0x9F, by simp; omega, by omega, by omega⟩
  · exact ⟨0x80, 0xBF, by simp, by omega, by omega⟩
  all_goals omega

/-- The leading byte of a character of four bytes admits its second byte. -/
theorem lead_four (hlow : 65536 ≤ v) (hhigh : v < 0x110000) :
    ∃ low high, Lead.ofByte? (v / 262144 % 8 + 240) = some ⟨2, v / 262144, low, high⟩ ∧
      low ≤ v / 4096 % 64 + 128 ∧ v / 4096 % 64 + 128 ≤ high := by
  have hbits : v / 262144 % 8 = v / 262144 := by omega
  unfold Lead.ofByte?
  simp only [hbits, Bool.and_eq_true, decide_eq_true_eq, beq_iff_eq]
  split_ifs with h₁ h₂ h₃ h₄ h₅ h₆ h₇
  any_goals omega
  · exact ⟨0x90, 0xBF, by simp; omega, by omega, by omega⟩
  · exact ⟨0x80, 0xBF, by simp, by omega, by omega⟩
  · exact ⟨0x80, 0x8F, by simp; omega, by omega, by omega⟩

end Lead

/-- **The bytes of a character are one unit**, which is the character. -/
theorem unit_of_utf8EncodeChar {c : Char} {b : UInt8} {bs : List UInt8}
    (h : String.utf8EncodeChar c = b :: bs) (rest : List UInt8) :
    unit b (bs ++ rest) = (some c, bs.length) := by
  have hvalid : c.val.toNat < 0xD800 ∨ 0xDFFF < c.val.toNat ∧ c.val.toNat < 0x110000 := c.valid
  have hchar : ∀ n, n = c.val.toNat → Char.ofNat n = c := fun n hn => hn ▸ Char.ofNat_toNat c
  unfold String.utf8EncodeChar at h
  simp only at h
  split_ifs at h with hone htwo hthree
  · cases h
    have hbyte : (UInt8.ofNat c.val.toNat).toNat = c.val.toNat :=
      UInt8.toNat_ofNat_of_lt' (show c.val.toNat < 256 by omega)
    have hascii : (UInt8.ofNat c.val.toNat).toNat < 0x80 := by omega
    simp only [unit, if_pos hascii, List.length_nil]
    rw [hchar _ hbyte]
  · cases h
    have hlead := lead_two (v := c.val.toNat) (by omega) htwo
    calc unit _ (_ :: rest) = trail 0 (c.val.toNat / 64 * 64 + c.val.toNat % 64) 1 rest :=
          unit_lead (by omega) hlead (by omega) (by simp) (by simp; omega) rest
      _ = (some c, 1) := by rw [trail, hchar _ (by omega)]
  · cases h
    obtain ⟨low, high, hlead, hlow, hhigh⟩ :=
      lead_three (v := c.val.toNat) (by omega) hthree (by omega)
    calc unit _ (_ :: _ :: rest)
        = trail 1 (c.val.toNat / 4096 * 64 + c.val.toNat / 64 % 64) 1 (_ :: rest) :=
          unit_lead (by omega) hlead (by omega) hlow hhigh _
      _ = (some c, 2) := by
          rw [trail_cons (by omega), trail, hchar _ (by omega)]
  · cases h
    obtain ⟨low, high, hlead, hlow, hhigh⟩ := lead_four (v := c.val.toNat) (by omega) (by omega)
    calc unit _ (_ :: _ :: _ :: rest)
        = trail 2 (c.val.toNat / 262144 * 64 + c.val.toNat / 4096 % 64) 1 (_ :: _ :: rest) :=
          unit_lead (by omega) hlead (by omega) hlow hhigh _
      _ = (some c, 3) := by
          rw [trail_cons (by omega), trail_cons (by omega), trail, hchar _ (by omega)]

theorem unitsAfter_append (bs rest : List UInt8) :
    unitsAfter bs.length (bs ++ rest) = unitsAfter 0 rest := by
  induction bs with
  | nil => rfl
  | cons b bs ih => exact ih

/-- The units of the bytes of a text are its characters. -/
theorem unitsAfter_encode (cs : List Char) : unitsAfter 0 (encode cs) = cs.map some := by
  induction cs with
  | nil => rfl
  | cons c cs ih =>
    rw [encode_cons]
    cases hbytes : String.utf8EncodeChar c with
    | nil => exact absurd hbytes (String.utf8EncodeChar_ne_nil)
    | cons b bs =>
      rw [List.cons_append, unitsAfter, unit_of_utf8EncodeChar hbytes, unitsAfter_append, ih,
        List.map_cons]

/-- **The bytes of a text are read back as the text.** -/
theorem decode_encode (cs : List Char) : decode (encode cs) = cs := by
  rw [decode, unitsAfter_encode, List.map_map]
  exact List.map_id cs

/-! ### Strict reading -/

/-- The numbers that a leading byte and the second byte that it admits can have. -/
theorem lead_cases {m s : Nat} {lead : Lead} (h : Lead.ofByte? m = some lead)
    (hlow : lead.low ≤ s) (hhigh : s ≤ lead.high) :
    0x80 ≤ s ∧ s ≤ 0xBF ∧
      ((lead.more = 0 ∧ lead.bits = m - 0xC0 ∧ 0xC2 ≤ m ∧ m ≤ 0xDF) ∨
        (lead.more = 1 ∧ lead.bits = m - 0xE0 ∧ 0xE0 ≤ m ∧ m ≤ 0xEF ∧ (m ≠ 0xE0 ∨ 0xA0 ≤ s) ∧
          (m ≠ 0xED ∨ s ≤ 0x9F)) ∨
        (lead.more = 2 ∧ lead.bits = m - 0xF0 ∧ 0xF0 ≤ m ∧ m ≤ 0xF4 ∧ (m ≠ 0xF0 ∨ 0x90 ≤ s) ∧
          (m ≠ 0xF4 ∨ s ≤ 0x8F))) := by
  unfold Lead.ofByte? at h
  simp only [Bool.and_eq_true, decide_eq_true_eq, beq_iff_eq] at h
  split_ifs at h
  all_goals
    cases h
    dsimp only at hlow hhigh ⊢
    omega

theorem trail_succ_eq_some {more bits used n : Nat} {bs : List UInt8} {c : Char}
    (h : trail (more + 1) bits used bs = (some c, n)) :
    ∃ b rest, bs = b :: rest ∧ 0x80 ≤ b.toNat ∧ b.toNat ≤ 0xBF ∧
      trail more (bits * 64 + b.toNat % 64) (used + 1) rest = (some c, n) := by
  cases bs with
  | nil => cases h
  | cons b rest =>
    rw [trail] at h
    split at h
    · rename_i hrange
      simp only [Bool.and_eq_true, decide_eq_true_eq] at hrange
      exact ⟨b, rest, rfl, hrange.1, hrange.2, h⟩
    · cases h

section Encoding

variable {v : Nat} {b b₁ b₂ b₃ : UInt8}

theorem val_ofNat (h : v.isValidChar) : (Char.ofNat v).val.toNat = v := by
  rw [Char.ofNat, dif_pos h]
  show (UInt32.ofNatLT v _).toNat = v
  rw [UInt32.toNat_ofNatLT]

/-- A byte is told by its number. -/
theorem ofNat_eq_of_toNat {n : Nat} (h : b.toNat = n) : UInt8.ofNat n = b := by
  rw [← h, UInt8.ofNat_toNat]

theorem utf8EncodeChar_ofNat_one (hb : b.toNat < 0x80) :
    String.utf8EncodeChar (Char.ofNat b.toNat) = [b] := by
  simp only [String.utf8EncodeChar, val_ofNat (v := b.toNat) (Or.inl (by omega))]
  rw [if_pos (by omega), UInt8.ofNat_toNat]

theorem utf8EncodeChar_ofNat_two (hlow : 0x80 ≤ v) (hhigh : v < 0x800)
    (hb : b.toNat = v / 64 + 0xC0) (hb₁ : b₁.toNat = v % 64 + 0x80) :
    String.utf8EncodeChar (Char.ofNat v) = [b, b₁] := by
  simp only [String.utf8EncodeChar, val_ofNat (v := v) (Or.inl (by omega))]
  rw [if_neg (by omega), if_pos (by omega), ofNat_eq_of_toNat (b := b) (by omega),
    ofNat_eq_of_toNat hb₁]

theorem utf8EncodeChar_ofNat_three (hlow : 0x800 ≤ v) (hhigh : v < 0x10000)
    (hvalid : v < 0xD800 ∨ 0xDFFF < v) (hb : b.toNat = v / 4096 + 0xE0)
    (hb₁ : b₁.toNat = v / 64 % 64 + 0x80) (hb₂ : b₂.toNat = v % 64 + 0x80) :
    String.utf8EncodeChar (Char.ofNat v) = [b, b₁, b₂] := by
  have hv : v.isValidChar := hvalid.imp_right fun h => ⟨h, by omega⟩
  simp only [String.utf8EncodeChar, val_ofNat hv]
  rw [if_neg (by omega), if_neg (by omega), if_pos (by omega),
    ofNat_eq_of_toNat (b := b) (by omega), ofNat_eq_of_toNat hb₁, ofNat_eq_of_toNat hb₂]

theorem utf8EncodeChar_ofNat_four (hlow : 0x10000 ≤ v) (hhigh : v < 0x110000)
    (hb : b.toNat = v / 262144 + 0xF0) (hb₁ : b₁.toNat = v / 4096 % 64 + 0x80)
    (hb₂ : b₂.toNat = v / 64 % 64 + 0x80) (hb₃ : b₃.toNat = v % 64 + 0x80) :
    String.utf8EncodeChar (Char.ofNat v) = [b, b₁, b₂, b₃] := by
  simp only [String.utf8EncodeChar, val_ofNat (v := v) (Or.inr ⟨by omega, hhigh⟩)]
  rw [if_neg (by omega), if_neg (by omega), if_neg (by omega),
    ofNat_eq_of_toNat (b := b) (by omega), ofNat_eq_of_toNat hb₁, ofNat_eq_of_toNat hb₂,
    ofNat_eq_of_toNat hb₃]

end Encoding

/-- **A well-formed unit is the bytes of its character.** -/
theorem utf8EncodeChar_of_unit {b : UInt8} {bs : List UInt8} {c : Char} {n : Nat}
    (h : unit b bs = (some c, n)) :
    ∃ front rest, bs = front ++ rest ∧ front.length = n ∧ String.utf8EncodeChar c = b :: front := by
  unfold unit at h
  split at h
  · rename_i hascii
    cases h
    exact ⟨[], bs, rfl, rfl, utf8EncodeChar_ofNat_one hascii⟩
  · split at h
    · rename_i lead second rest hlead
      split at h
      · rename_i hrange
        simp only [Bool.and_eq_true, decide_eq_true_eq] at hrange
        obtain ⟨hlow, hhigh, hcases⟩ := lead_cases hlead hrange.1 hrange.2
        rcases hcases with ⟨hmore, hbits, hm⟩ | ⟨hmore, hbits, hm⟩ | ⟨hmore, hbits, hm⟩
        · rw [hmore, hbits] at h
          cases h
          exact ⟨[second], rest, rfl, rfl, utf8EncodeChar_ofNat_two (by omega) (by omega)
            (by omega) (by omega)⟩
        · rw [hmore, hbits] at h
          obtain ⟨b₂, rest, rfl, hlow₂, hhigh₂, h⟩ := trail_succ_eq_some h
          cases h
          exact ⟨[second, b₂], rest, rfl, rfl, utf8EncodeChar_ofNat_three (by omega) (by omega)
            (by omega) (by omega) (by omega) (by omega)⟩
        · rw [hmore, hbits] at h
          obtain ⟨b₂, rest, rfl, hlow₂, hhigh₂, h⟩ := trail_succ_eq_some h
          obtain ⟨b₃, rest, rfl, hlow₃, hhigh₃, h⟩ := trail_succ_eq_some h
          cases h
          exact ⟨[second, b₂, b₃], rest, rfl, rfl, utf8EncodeChar_ofNat_four (by omega) (by omega)
            (by omega) (by omega) (by omega) (by omega)⟩
      · cases h
    · cases h

theorem mapM_id_eq_some_iff {α : Type} {xs : List (Option α)} {ys : List α} :
    xs.mapM id = some ys ↔ xs = ys.map some := by
  induction xs generalizing ys with
  | nil => cases ys <;> simp
  | cons x xs ih =>
    cases x with
    | none => cases ys <;> simp
    | some x =>
      simp only [List.mapM_cons, id, Option.bind_eq_bind, Option.bind_some, Option.bind_eq_some_iff,
        Option.pure_def, Option.some.injEq, ih]
      constructor
      · rintro ⟨zs, rfl, rfl⟩
        rfl
      · intro h
        cases ys with
        | nil => cases h
        | cons y ys =>
          cases h
          exact ⟨ys, rfl, rfl⟩

theorem unitsAfter_eq_map_some {cs : List Char} {bs : List UInt8}
    (h : unitsAfter 0 bs = cs.map some) : bs = encode cs := by
  induction cs generalizing bs with
  | nil =>
    cases bs with
    | nil => rfl
    | cons b bs => cases h
  | cons c cs ih =>
    cases bs with
    | nil => cases h
    | cons b bs =>
      obtain ⟨hunit, hrest⟩ := List.cons.inj h
      obtain ⟨front, rest, rfl, hlength, hbytes⟩ :=
        utf8EncodeChar_of_unit (Prod.ext hunit rfl : unit b bs = (some c, (unit b bs).2))
      rw [← hlength, unitsAfter_append] at hrest
      rw [encode_cons, hbytes, List.cons_append, ih hrest]

/-- **The strict reading accepts exactly the bytes of texts.** -/
theorem decode?_eq_some_iff {bs : List UInt8} {cs : List Char} :
    decode? bs = some cs ↔ bs = encode cs := by
  rw [decode?, mapM_id_eq_some_iff]
  constructor
  · exact unitsAfter_eq_map_some
  · rintro rfl
    exact unitsAfter_encode cs

/-! ### Bytes that encode a text -/

/-- The bytes encode a text. -/
def IsText (bs : List UInt8) : Prop :=
  ∃ cs, bs = encode cs

theorem isText_encode (cs : List Char) : IsText (encode cs) :=
  ⟨cs, rfl⟩

/-- Such bytes are the valid UTF-8. -/
theorem isText_iff_isValidUTF8 {bs : List UInt8} : IsText bs ↔ bs.toByteArray.IsValidUTF8 := by
  constructor
  · rintro ⟨cs, rfl⟩
    exact .intro cs rfl
  · rintro ⟨cs, hcs⟩
    have hdata := congrArg ByteArray.data hcs
    exact ⟨cs, by simpa [List.utf8Encode, encode] using hdata⟩

theorem IsText.append {as bs : List UInt8} (ha : IsText as) (hb : IsText bs) :
    IsText (as ++ bs) := by
  obtain ⟨cs, rfl⟩ := ha
  obtain ⟨ds, rfl⟩ := hb
  exact ⟨cs ++ ds, (encode_append cs ds).symm⟩

/-- **A text divides at an ASCII byte**, which is a character of its own wherever it stands. -/
theorem exists_append_of_ascii {as bs : List UInt8} {c : Char} {cs : List Char}
    (hc : c.toNat < 128) (h : as ++ byte c :: bs = encode cs) :
    ∃ pre post, cs = pre ++ c :: post ∧ as = encode pre ∧ bs = encode post := by
  have hat : (encode cs)[as.length]? = some (byte c) := by
    rw [← h, List.getElem?_append_right (Nat.le_refl _), Nat.sub_self]
    rfl
  obtain ⟨pre, post, rfl, hsize⟩ := spelledAt_of_ascii hc hat
  rw [List.singleton_append, encode_append, encode_cons_of_ascii hc] at h
  obtain ⟨hfront, hback⟩ := List.append_inj h (by rw [length_encode, hsize])
  exact ⟨pre, post, rfl, hfront, (List.cons.inj hback).2⟩

/-- What stands in front of an ASCII byte of a text and what stands behind it are texts. -/
theorem isText_of_ascii {as bs : List UInt8} {c : Char} (hc : c.toNat < 128)
    (h : IsText (as ++ byte c :: bs)) : IsText as ∧ IsText bs := by
  obtain ⟨cs, hcs⟩ := h
  obtain ⟨pre, post, -, hpre, hpost⟩ := exists_append_of_ascii hc hcs
  exact ⟨⟨pre, hpre⟩, ⟨post, hpost⟩⟩

end Telemetry.Text
