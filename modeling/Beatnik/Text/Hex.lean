/-!
# Bytes in hexadecimal

A byte is shown as two lower case digits, a list of bytes in brackets with commas between them.
-/

namespace Beatnik.Text

def hexByte (b : UInt8) : List Char :=
  [Nat.digitChar (b.toNat / 16), Nat.digitChar (b.toNat % 16)]

/-- A list of bytes, such as `[c3, 28]`. -/
def hexList (bytes : List UInt8) : String :=
  "[" ++ ", ".intercalate (bytes.map fun b => String.ofList (hexByte b)) ++ "]"

end Beatnik.Text
