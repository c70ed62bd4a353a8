/-!
# Text from bytes

Bytes read as UTF-8. A byte that belongs to no well-formed character stands for
the replacement character, one per byte.
-/

namespace WasmShader.Text

/-- A byte inside a character of several bytes, between two bounds. -/
def within (lo hi : UInt8) (b : UInt8) : Bool := lo ≤ b && b ≤ hi

/-- The low six bits of a byte inside a character. -/
def tailBits (b : UInt8) : Nat := b.toNat % 64

/-- The bounds of the byte behind a leading byte of a three-byte character:
neither overlong forms nor surrogates are allowed. -/
def secondOfThree (b : UInt8) : UInt8 × UInt8 :=
  if b = 0xe0 then (0xa0, 0xbf) else if b = 0xed then (0x80, 0x9f) else (0x80, 0xbf)

/-- The bounds of the byte behind a leading byte of a four-byte character. -/
def secondOfFour (b : UInt8) : UInt8 × UInt8 :=
  if b = 0xf0 then (0x90, 0xbf) else if b = 0xf4 then (0x80, 0x8f) else (0x80, 0xbf)

def replacement : Char := Char.ofNat 0xfffd

/-- The character at the front of some bytes and how many further bytes it
takes. -/
def firstChar (b : UInt8) (rest : List UInt8) : Char × Nat :=
  if b < 0x80 then (Char.ofNat b.toNat, 0)
  else if within 0xc2 0xdf b then
    match rest with
    | c :: _ =>
      if within 0x80 0xbf c then (Char.ofNat ((b.toNat % 32) * 64 + tailBits c), 1)
      else (replacement, 0)
    | _ => (replacement, 0)
  else if within 0xe0 0xef b then
    let (lo, hi) := secondOfThree b
    match rest with
    | c :: d :: _ =>
      if within lo hi c && within 0x80 0xbf d then
        (Char.ofNat ((b.toNat % 16) * 4096 + tailBits c * 64 + tailBits d), 2)
      else (replacement, 0)
    | _ => (replacement, 0)
  else if within 0xf0 0xf4 b then
    let (lo, hi) := secondOfFour b
    match rest with
    | c :: d :: e :: _ =>
      if within lo hi c && within 0x80 0xbf d && within 0x80 0xbf e then
        (Char.ofNat ((b.toNat % 8) * 262144 + tailBits c * 4096 + tailBits d * 64 + tailBits e), 3)
      else (replacement, 0)
    | _ => (replacement, 0)
  else (replacement, 0)

/-- The characters of some bytes, the first `skip` of which belong to a character
already read. -/
def charsOfBytes : (skip : Nat) → List UInt8 → List Char
  | _, [] => []
  | skip + 1, _ :: rest => charsOfBytes skip rest
  | 0, b :: rest =>
    let (c, more) := firstChar b rest
    c :: charsOfBytes more rest

def ofBytes (bytes : List UInt8) : String :=
  String.ofList (charsOfBytes 0 bytes)

end WasmShader.Text
