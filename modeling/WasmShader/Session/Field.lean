import WasmShader.Failure
import WasmShader.Text.Blank

/-!
# Fields

A line of text with a cursor in it, and what the keys of a line editor do to
it. The text is held as the characters on either side of the cursor, so every
edit works where the two sides meet: `moveLeft` and its kind keep the text
(`Field.chars`), the erasing ones drop a stretch next to the cursor.
-/

namespace WasmShader.Session

open Text

/-- A line of text with a cursor. -/
structure Field where
  /-- The characters in front of the cursor, the nearest first. -/
  before : List Char := []
  /-- The characters behind the cursor, the nearest first. -/
  after : List Char := []
  deriving DecidableEq, Repr, Inhabited

/-- What a key does to a field. -/
inductive Edit
  | moveLeft
  | moveRight
  | wordLeft
  | wordRight
  | lineStart
  | lineEnd
  | eraseLeft
  | eraseRight
  | eraseWordLeft
  | eraseWordRight
  | eraseToStart
  | eraseToEnd
  /-- A key for a clipboard or for suggestions, of which a field has none. -/
  | unused
  deriving DecidableEq, Repr, Inhabited

def Edit.ofName? : String → Option Edit
  | "left" | "ctrl+b" => some .moveLeft
  | "right" | "ctrl+f" => some .moveRight
  | "alt+left" | "ctrl+left" | "alt+b" => some .wordLeft
  | "alt+right" | "ctrl+right" | "alt+f" => some .wordRight
  | "home" | "ctrl+a" => some .lineStart
  | "end" | "ctrl+e" => some .lineEnd
  | "backspace" | "ctrl+h" => some .eraseLeft
  | "delete" | "ctrl+d" => some .eraseRight
  | "alt+backspace" | "ctrl+w" => some .eraseWordLeft
  | "alt+delete" | "alt+d" => some .eraseWordRight
  | "ctrl+u" => some .eraseToStart
  | "ctrl+k" => some .eraseToEnd
  | "ctrl+v" | "ctrl+n" | "ctrl+p" => some .unused
  | _ => none

namespace Field

def chars (f : Field) : List Char := f.before.reverse ++ f.after

def text (f : Field) : String := String.ofList f.chars

/-- The characters of typed text that a field takes: a tab or a line break is a
space, and other controls are dropped. -/
def accepted (s : String) : List Char :=
  s.toList.filterMap fun c =>
    if c = '\t' || c = '\n' || c = '\r' then some ' '
    else if c.toNat < 0x20 || (0x7f ≤ c.toNat && c.toNat < 0xa0) || c.toNat = 0xfffd then none
    else some c

/-- Puts typed text in front of the cursor. -/
def insert (f : Field) (s : String) : Field :=
  { f with before := (accepted s).reverse ++ f.before }

/-- The stretch next to the cursor up to the far end of a word: blanks, then
what is not blank. -/
def wordPart (cs : List Char) : List Char :=
  cs.takeWhile isBlank ++ (cs.dropWhile isBlank).takeWhile fun c => !isBlank c

/-- What is left of a side of the cursor without that stretch. -/
def wordRest (cs : List Char) : List Char :=
  (cs.dropWhile isBlank).dropWhile fun c => !isBlank c

theorem wordPart_append_wordRest (cs : List Char) : wordPart cs ++ wordRest cs = cs := by
  simp [wordPart, wordRest, List.append_assoc, List.takeWhile_append_dropWhile]

/-- The line in front of the cursor without its last word. A lone blank that
would be left over goes too. -/
def eraseLastWord (before : List Char) : List Char :=
  match wordRest before with
  | [_] => []
  | rest => rest

/-- A field after an edit. Erasing the word behind the cursor takes the next
character whatever it is and looks for the word behind that one, so it breaks
down in front of the last character of the line. -/
def apply (f : Field) : Edit → Except Abort Field
  | .moveLeft =>
    match f.before with
    | [] => .ok f
    | c :: rest => .ok ⟨rest, c :: f.after⟩
  | .moveRight =>
    match f.after with
    | [] => .ok f
    | c :: rest => .ok ⟨c :: f.before, rest⟩
  | .wordLeft => .ok ⟨wordRest f.before, (wordPart f.before).reverse ++ f.after⟩
  | .wordRight => .ok ⟨(wordPart f.after).reverse ++ f.before, wordRest f.after⟩
  | .lineStart => .ok ⟨[], f.chars⟩
  | .lineEnd => .ok ⟨f.chars.reverse, []⟩
  | .eraseLeft => .ok { f with before := f.before.tail }
  | .eraseRight => .ok { f with after := f.after.tail }
  | .eraseWordLeft => .ok { f with before := eraseLastWord f.before }
  | .eraseWordRight =>
    match f.after with
    | [] => .ok f
    | [_] => .error .outOfBounds
    | _ :: rest => .ok { f with after := wordRest rest }
  | .eraseToStart => .ok { f with before := [] }
  | .eraseToEnd => .ok { f with after := [] }
  | .unused => .ok f

end Field

end WasmShader.Session
