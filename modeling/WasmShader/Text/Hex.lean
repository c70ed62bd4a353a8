/-!
# Numbers and columns as text

Hexadecimal digits in lower case, and padding to a width.
-/

namespace WasmShader.Text

/-- The lower-case hexadecimal digit of a number below sixteen. -/
def hexDigit (n : Nat) : Char :=
  if n < 10 then Char.ofNat (48 + n) else Char.ofNat (87 + n)

/-- Pads on the left with `c` to at least `width` characters. -/
def padLeft (width : Nat) (c : Char) (s : String) : String :=
  String.ofList (List.replicate (width - s.length) c) ++ s

def padRight (width : Nat) (c : Char) (s : String) : String :=
  s ++ String.ofList (List.replicate (width - s.length) c)

/-- The hexadecimal digits of a number, most significant first. -/
def hexDigits (n : Nat) : List Char :=
  Nat.toDigits 16 n

/-- A number in hexadecimal with at least `width` digits. -/
def hex (width n : Nat) : String :=
  padLeft width '0' (String.ofList (hexDigits n))

/-- A number in hexadecimal behind `0x`, with at least `width` digits. -/
def hexLiteral (width n : Nat) : String :=
  "0x" ++ hex width n

/-- The value of a hexadecimal digit; other characters count as zero. -/
def hexValue (c : Char) : Nat :=
  let n := c.toLower.toNat
  if c.isDigit then n - 48 else if 97 ≤ n && n ≤ 102 then n - 87 else 0

def ofHex (s : String) : Nat := s.toList.foldl (fun n c => n * 16 + hexValue c) 0

def bytesOfHex (s : String) : List UInt8 := pairs s.toList
where
  pairs : List Char → List UInt8
    | a :: b :: rest => (hexValue a * 16 + hexValue b).toUInt8 :: pairs rest
    | _ => []

def hexOfBytes (bytes : List UInt8) : String := String.join (bytes.map fun b => hex 2 b.toNat)

/-- A list in square brackets, its entries apart by a space. -/
def bracketed (items : List String) : String :=
  "[" ++ " ".intercalate items ++ "]"

/-- The entries of a list apart by a comma and a space. -/
def commaSeparated (items : List String) : String :=
  ", ".intercalate items

end WasmShader.Text
