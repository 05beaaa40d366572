/-!
# UTF-8

Files and percent-encoded URLs hold bytes; texts are what these bytes spell in UTF-8.

## Summary

* `Utf8.scalars` reads bytes as characters. An ill-formed piece, taken as long as it could still
  have begun a character, is read as `none`.
* `Utf8.decode?` accepts well-formed bytes only, and `Utf8.decodeLossy` shows an ill-formed piece
  as U+FFFD.
* `Utf8.encode` writes the bytes of a text.
-/

namespace ImportAtlas.Utf8

/-- How a character goes on after its first byte: the number of bytes to come, and the least and
the greatest value of the next one. -/
structure Lead where
  /-- The number of bytes to come. -/
  more : Nat
  /-- The bits of the code point that the first byte holds. -/
  bits : Nat
  /-- The least value of the second byte. -/
  least : UInt8
  /-- The greatest value of the second byte. -/
  greatest : UInt8

/-- What a first byte above 0x7F announces, if it may begin a character at all. -/
def lead? (b : UInt8) : Option Lead :=
  if 0xC2 ≤ b && b ≤ 0xDF then some ⟨1, b.toNat - 0xC0, 0x80, 0xBF⟩
  else if b == 0xE0 then some ⟨2, 0, 0xA0, 0xBF⟩
  else if b == 0xED then some ⟨2, 0xD, 0x80, 0x9F⟩
  else if 0xE1 ≤ b && b ≤ 0xEF then some ⟨2, b.toNat - 0xE0, 0x80, 0xBF⟩
  else if b == 0xF0 then some ⟨3, 0, 0x90, 0xBF⟩
  else if b == 0xF4 then some ⟨3, 4, 0x80, 0x8F⟩
  else if 0xF1 ≤ b && b ≤ 0xF3 then some ⟨3, b.toNat - 0xF0, 0x80, 0xBF⟩
  else none

/-- Reads the bytes that a first byte announced. The code point is `none` when a byte out of range
comes first; what was read up to it is spent. -/
def following : Nat → UInt8 → UInt8 → Nat → List UInt8 → Option Nat × List UInt8
  | 0, _, _, code, rest => (some code, rest)
  | _ + 1, _, _, _, [] => (none, [])
  | more + 1, least, greatest, code, b :: rest =>
    if least ≤ b && b ≤ greatest then
      following more 0x80 0xBF (code * 64 + (b.toNat - 0x80)) rest
    else (none, b :: rest)

theorem length_following_le (more : Nat) (least greatest : UInt8) (code : Nat)
    (bytes : List UInt8) :
    (following more least greatest code bytes).2.length ≤ bytes.length := by
  fun_induction following more least greatest code bytes <;> simp_all
  omega

/-- The characters that bytes spell, with `none` for each ill-formed piece. -/
def scalars : List UInt8 → List (Option Char)
  | [] => []
  | b :: rest =>
    if b ≤ 0x7F then some (Char.ofNat b.toNat) :: scalars rest
    else match lead? b with
      | none => none :: scalars rest
      | some l =>
        let next := following l.more l.least l.greatest l.bits rest
        next.1.map Char.ofNat :: scalars next.2
termination_by bytes => bytes.length
decreasing_by
  all_goals simp_wf
  have := length_following_le l.more l.least l.greatest l.bits rest
  omega

/-- The text of well-formed bytes. -/
def decode? (bytes : List UInt8) : Option String :=
  ((scalars bytes).mapM id).map String.ofList

/-- The text of bytes, each ill-formed piece shown as U+FFFD. -/
def decodeLossy (bytes : List UInt8) : List Char :=
  (scalars bytes).map (·.getD '\uFFFD')

/-- The bytes of a text. -/
def encode (s : String) : List UInt8 := s.toList.flatMap String.utf8EncodeChar

end ImportAtlas.Utf8
