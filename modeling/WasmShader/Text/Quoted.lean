import WasmShader.Text.Hex
import WasmShader.Text.Printable

/-!
# Quoted text

A text in double quotes: the quote and the backslash are escaped, control
characters have their short names, and what is not shown as itself is written by
its number, in as few digits as its escape allows.
-/

namespace WasmShader.Text

/-- A character by its short name or its number. -/
def escapeChar (c : Char) : String :=
  match c.toNat with
  | 7 => "\\a"
  | 8 => "\\b"
  | 9 => "\\t"
  | 10 => "\\n"
  | 11 => "\\v"
  | 12 => "\\f"
  | 13 => "\\r"
  | n =>
    if n < 0x20 || n = 0x7f then "\\x" ++ hex 2 n
    else if n < 0x10000 then "\\u" ++ hex 4 n
    else "\\U" ++ hex 8 n

/-- One character as it stands between quotes, where `shown` says which
characters stand for themselves. -/
def quoteChar (shown : Char → Bool) (c : Char) : String :=
  match c with
  | '"' => "\\\""
  | '\\' => "\\\\"
  | c => if shown c then c.toString else escapeChar c

def quote (s : String) : String :=
  "\"" ++ String.join (s.toList.map (quoteChar isPrintable)) ++ "\""

/-- A text in quotes, written with ASCII characters alone. -/
def quoteAscii (s : String) : String :=
  "\"" ++ String.join (s.toList.map (quoteChar fun c => c.val < 0x80 && isPrintable c)) ++ "\""

/-- Whether a text can stand between back quotes, where nothing is escaped: it
is one line, without a back quote, a control character other than the tab, or a
byte order mark. -/
def isRaw (s : String) : Bool :=
  s.toList.all fun c =>
    (0x20 ≤ c.val || c = '\t') && c.val != 0x60 && c.val != 0x7f && c.val != 0xfeff

end WasmShader.Text
