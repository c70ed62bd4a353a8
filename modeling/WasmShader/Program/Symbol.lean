import WasmShader.Text.Utf8

/-!
# Symbols

The names that a module exports functions under. The binary format does not
promise that a name is text, so a symbol is its bytes: two symbols are the same
only if their bytes are, and their order is the order of their bytes. A text
stands for the symbol of its UTF-8 bytes.
-/

namespace WasmShader

/-- The name of a function as a module gives it. -/
structure Symbol where
  bytes : List UInt8
  deriving DecidableEq, Repr, Inhabited

namespace Symbol

/-- The symbol that a text names. -/
def ofText (s : String) : Symbol := ⟨s.toUTF8.toList⟩

instance : Coe String Symbol := ⟨ofText⟩

/-- The symbol as it is shown, with a replacement character for every byte that
belongs to no character. -/
def text (s : Symbol) : String := Text.ofBytes s.bytes

/-- The order of the bytes. -/
def isBefore (a b : Symbol) : Bool := a.bytes ≤ b.bytes

/-- The symbol of a function that is not exported. -/
def numbered (index : Nat) : Symbol := ofText ("f" ++ toString index)

end Symbol

end WasmShader
