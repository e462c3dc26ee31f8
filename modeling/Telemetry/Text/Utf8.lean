/-!
UTF-8. Offsets into a source text count bytes, and strings and comments are recognised byte by
byte, so a text has two views: its characters, and the bytes that encode them. `encode` gives the
bytes of a list of characters. `decode` reads bytes back one unit at a time, where a unit is
either a well-formed sequence or the longest start of one that the next byte breaks off; the
strict reading refuses a malformed unit, the lenient one puts `U+FFFD` in its place.
-/

namespace Telemetry.Text

abbrev byte (c : Char) : UInt8 := c.toUInt8

/-- The bytes that encode a list of characters. -/
def encode (cs : List Char) : List UInt8 :=
  cs.flatMap String.utf8EncodeChar

def byteSize (cs : List Char) : Nat :=
  cs.foldl (fun n c => n + c.utf8Size) 0

/-- What a leading byte announces: how many bytes follow the second one, the bits that it
contributes itself, and the interval that the second byte must lie in. -/
structure Lead where
  more : Nat
  bits : Nat
  low : Nat
  high : Nat

/-- The leading bytes of sequences of two, three and four bytes. The intervals leave out
overlong forms, surrogates and everything above `U+10FFFF`. -/
def Lead.ofByte? (n : Nat) : Option Lead :=
  if 0xC2 ≤ n && n ≤ 0xDF then some ⟨0, n - 0xC0, 0x80, 0xBF⟩
  else if n == 0xE0 then some ⟨1, 0, 0xA0, 0xBF⟩
  else if n == 0xED then some ⟨1, 0xD, 0x80, 0x9F⟩
  else if 0xE1 ≤ n && n ≤ 0xEF then some ⟨1, n - 0xE0, 0x80, 0xBF⟩
  else if n == 0xF0 then some ⟨2, 0, 0x90, 0xBF⟩
  else if 0xF1 ≤ n && n ≤ 0xF3 then some ⟨2, n - 0xF0, 0x80, 0xBF⟩
  else if n == 0xF4 then some ⟨2, 4, 0x80, 0x8F⟩
  else none

/-- Reads the `more` bytes that complete a character whose bits so far are `bits`. The second
component counts the bytes taken, `used` of them before. -/
def trail : (more bits used : Nat) → List UInt8 → Option Char × Nat
  | 0, bits, used, _ => (some (Char.ofNat bits), used)
  | _ + 1, _, used, [] => (none, used)
  | more + 1, bits, used, b :: bs =>
    if 0x80 ≤ b.toNat && b.toNat ≤ 0xBF then
      trail more (bits * 64 + b.toNat % 64) (used + 1) bs
    else (none, used)

/-- Reads the unit that starts with the byte `b`: its character, or nothing when it is
malformed, and how many of the bytes after `b` belong to it. -/
def unit (b : UInt8) (bs : List UInt8) : Option Char × Nat :=
  if b.toNat < 0x80 then (some (Char.ofNat b.toNat), 0)
  else
    match Lead.ofByte? b.toNat, bs with
    | some lead, second :: rest =>
      if lead.low ≤ second.toNat && second.toNat ≤ lead.high then
        trail lead.more (lead.bits * 64 + second.toNat % 64) 1 rest
      else (none, 0)
    | _, _ => (none, 0)

/-- The units of a list of bytes of which the first `skip` belong to a unit already read. -/
def unitsAfter : (skip : Nat) → List UInt8 → List (Option Char)
  | _, [] => []
  | skip + 1, _ :: bs => unitsAfter skip bs
  | 0, b :: bs => (unit b bs).1 :: unitsAfter (unit b bs).2 bs

/-- The characters of a list of bytes, each malformed unit replaced by `U+FFFD`. -/
def decode (bs : List UInt8) : List Char :=
  (unitsAfter 0 bs).map (·.getD '\uFFFD')

/-- The characters of a list of bytes, provided that every unit is well formed. -/
def decode? (bs : List UInt8) : Option (List Char) :=
  (unitsAfter 0 bs).mapM id

end Telemetry.Text
