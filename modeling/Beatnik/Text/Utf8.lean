/-!
# Characters as bytes

UTF-8 writes a character in one to four bytes.  The first byte tells how many there are
(`announcedLength`): as many as it has leading one bits, or one if it has none.
-/

namespace Beatnik.Text.Utf8

/-- The number of bytes that a first byte announces, if it can be a first byte. -/
def announcedLength (first : UInt8) : Option Nat :=
  if first < 0x80 then some 1
  else if first < 0xC0 then none
  else if first < 0xE0 then some 2
  else if first < 0xF0 then some 3
  else if first < 0xF8 then some 4
  else none

def encode (c : Char) : List UInt8 := String.utf8EncodeChar c

/-- The character that the bytes start with. -/
def decode? (bytes : List UInt8) : Option Char := (ByteArray.mk bytes.toArray).utf8DecodeChar? 0

end Beatnik.Text.Utf8
