import WasmShader.Text.Place
import WasmShader.Text.Quoted

/-!
# Text templates

A template is a text with places that are filled from a list of texts: `%s` and
`%v` take the text as it is, `%q` quotes it, `%x` and `%X` write its bytes in
hexadecimal, `%T` says what kind of thing it is, and `%%` is a percent sign. A
width pads the result and a precision cuts the text before it is written.

A place without a text, a text without a place and a letter that does not apply
to texts are all marked in the result, so filling a template always succeeds.
-/

namespace WasmShader.Text

/-! ## Reading a template -/

/-- A template is a row of characters and places. -/
inductive Piece where
  | char (c : Char)
  | place (p : Place)
deriving Repr, DecidableEq, Inhabited

def pieces (cs : List Char) : List Piece :=
  match cs with
  | [] => []
  | '%' :: rest => .place (readPlace rest).1 :: pieces (readPlace rest).2
  | c :: rest => .char c :: pieces rest
termination_by cs.length
decreasing_by
  · exact Nat.lt_succ_of_le (readPlace_length_le rest)
  · simp

/-! ## Writing one text -/

/-- A text at a place whose width and precision are settled. -/
structure Fit where
  flags : Flags
  width : Nat
  precision : Option Nat
deriving Repr, DecidableEq, Inhabited

/-- Pads to the width: on the left, with zeros if they are asked for, or with
spaces on the right. -/
def Fit.pad (l : Fit) (s : String) : String :=
  if l.flags.left then padRight l.width ' ' s
  else padLeft l.width (if l.flags.zeros then '0' else ' ') s

/-- The part of a list that the precision keeps. -/
def Fit.cut {α : Type} (l : Fit) (items : List α) : List α :=
  match l.precision with
  | none => items
  | some n => items.take n

/-- The part of a text that the precision keeps. -/
def Fit.cutText (l : Fit) (s : String) : String := String.ofList (l.cut s.toList)

/-- The text itself. -/
def Fit.plain (l : Fit) (s : String) : String := l.pad (l.cutText s)

/-- The text in quotes; back quotes are the other form. -/
def Fit.quoted (l : Fit) (s : String) : String :=
  let s := l.cutText s
  l.pad <|
    if l.flags.alternate && isRaw s then "\x60" ++ s ++ "\x60"
    else if l.flags.ascii then quoteAscii s
    else quote s

/-- The bytes of the text in hexadecimal: in one row, or apart by spaces. The
other form puts a base mark in front of each row. -/
def Fit.bytes (l : Fit) (s : String) : String :=
  let mark := if l.flags.alternate then "0x" else ""
  let digits := (l.cut s.toUTF8.toList).map fun b => hex 2 b.toNat
  l.pad <|
    if digits.isEmpty then ""
    else if l.flags.spaced then " ".intercalate (digits.map (mark ++ ·))
    else mark ++ String.join digits

/-- The text as a value: in quotes if the other form is asked for. -/
def Fit.value (l : Fit) (s : String) : String :=
  if l.flags.alternate then
    Fit.quoted { l with flags := { l.flags with alternate := false, ascii := false } } s
  else l.plain s

/-- A text at a place with the given letter. -/
def Fit.write (l : Fit) (letter : Char) (s : String) : String :=
  match letter with
  | 's' => l.plain s
  | 'v' => l.value s
  | 'q' => l.quoted s
  | 'x' => l.bytes s
  | 'X' => (l.bytes s).map Char.toUpper
  | 'T' => l.plain "string"
  | _ =>
    "%!" ++ letter.toString ++ "(string=" ++
      (if letter = 'w' then l.value s else l.plain s) ++ ")"

/-! ## Filling the places -/

/-- How far the list of texts has been used. -/
structure Cursor where
  /-- The text that the next place takes. -/
  next : Nat := 0
  /-- A place has chosen its text by number. -/
  chosen : Bool := false
  /-- The present place chooses its texts rightly. -/
  sound : Bool := true
deriving Repr, DecidableEq, Inhabited

/-- Follows a number in brackets, with `count` texts to choose from. -/
def Cursor.select (count : Nat) (c : Cursor) : Selector → Cursor
  | .next => c
  | .malformed => { c with chosen := true, sound := false }
  | .number n =>
    if 1 ≤ n && n ≤ count then { c with chosen := true, next := n - 1 }
    else { c with chosen := true, sound := false }

/-- Passes over a text that was asked for a number. -/
def Cursor.skip (count : Nat) (c : Cursor) : Cursor :=
  if c.next < count then { c with next := c.next + 1 } else c

/-- Settles the width of a place. A text is no number, so asking for one is
marked; a number in brackets must not stand in front of a fixed width. -/
def Cursor.settleWidth (count : Nat) (p : Place) (c : Cursor) : Cursor × Nat × String :=
  let c := c.select count p.widthText
  match p.width with
  | .none => (c, 0, "")
  | .asked => (c.skip count, 0, "%!(BADWIDTH)")
  | .fixed n => ({ c with sound := c.sound && !p.widthText.isOpen p.width }, n, "")

/-- Settles the precision of a place, by the same rules; a point without a number
cuts off the whole text. -/
def Cursor.settlePrecision (count : Nat) (p : Place) (c : Cursor) :
    Cursor × Option Nat × String :=
  if p.pointed then
    let c := { c with sound := c.sound && !p.widthText.isOpen p.width }
    let c := c.select count p.precisionText
    match p.precision with
    | .none => (c, some 0, "")
    | .asked => (c.skip count, none, "%!(BADPREC)")
    | .fixed n => (c, some n, "")
  else (c, none, "")

def fillPlace (args : List String) (p : Place) (c : Cursor) : String × Cursor :=
  let (c, width, badWidth) := Cursor.settleWidth args.length p { c with sound := true }
  let (c, precision, badPrecision) := c.settlePrecision args.length p
  let c := c.select args.length p.text
  let (filled, c) :=
    match p.letter with
    | none => ("%!(NOVERB)", c)
    | some '%' => ("%", c)
    | some letter =>
      if !c.sound then ("%!" ++ letter.toString ++ "(BADINDEX)", c)
      else match args[c.next]? with
        | none => ("%!" ++ letter.toString ++ "(MISSING)", c)
        | some arg =>
          (Fit.write { flags := p.flags, width, precision } letter arg,
            { c with next := c.next + 1 })
  (badWidth ++ badPrecision ++ filled, c)

/-- The texts that no place took. -/
def leftOver : List String → String
  | [] => ""
  | args => "%!(EXTRA " ++ commaSeparated (args.map ("string=" ++ ·)) ++ ")"

/-- Fills the places from left to right. Texts that are left over are marked,
unless some place chose its text by number. -/
def fill (args : List String) : Cursor → List Piece → String
  | c, [] => if c.chosen then "" else leftOver (args.drop c.next)
  | c, .char ch :: rest => ch.toString ++ fill args c rest
  | c, .place p :: rest =>
    let (filled, c) := fillPlace args p c
    filled ++ fill args c rest

def fillTemplate (template : String) (args : List String) : String :=
  fill args {} (pieces template.toList)

end WasmShader.Text
