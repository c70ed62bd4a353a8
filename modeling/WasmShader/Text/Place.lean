/-!
# Places of a template

A place of a template starts with a percent sign. Flags come first, then a
width, then a precision behind a point, and last the letter that says how the
text is written. A star in the stead of a number asks for the number from the
list of texts. In front of the width, the precision and the letter, a number in
square brackets can say which text is meant.

Reading a place never fails: what is wrong with it is kept, so that it can be
shown where the place is filled. `readPlace_length_le` is what makes reading a
whole template end.
-/

namespace WasmShader.Text

/-- Which text of the list a part of a place means. -/
inductive Selector where
  /-- The next one. -/
  | next
  /-- The one with this number, counted from one. -/
  | number (n : Nat)
  /-- Brackets without a number in them. -/
  | malformed
deriving Repr, DecidableEq, Inhabited

/-- A width or a precision as a place states it. -/
inductive Extent where
  /-- Not stated. -/
  | none
  /-- This many characters. -/
  | fixed (n : Nat)
  /-- As many as the next text says. -/
  | asked
deriving Repr, DecidableEq, Inhabited

/-- The flags of a place. -/
structure Flags where
  /-- Write quoted text in ASCII, from a plus sign. -/
  ascii : Bool := false
  /-- Pad on the right, from a minus sign. -/
  left : Bool := false
  /-- Write the other form of a letter, from a number sign. -/
  alternate : Bool := false
  /-- Keep bytes apart, from a space. -/
  spaced : Bool := false
  /-- Pad with zeros, from a zero. -/
  zeros : Bool := false
deriving Repr, DecidableEq, Inhabited

/-- A place as it is written. -/
structure Place where
  flags : Flags
  /-- Stands in front of the width. -/
  widthText : Selector
  width : Extent
  /-- Whether a point starts a precision. -/
  pointed : Bool
  /-- Stands in front of the precision. -/
  precisionText : Selector
  precision : Extent
  /-- Stands in front of the letter. -/
  text : Selector
  /-- The letter, unless the template ends before it. -/
  letter : Option Char
deriving Repr, DecidableEq, Inhabited

/-- Numbers in a place stop being read behind this one. -/
def extentLimit : Nat := 1000000

/-- The number in front, if there is one. Reading a digit behind a number beyond
the limit gives up the number and the rest of the template. -/
def readExtent : Option Nat → List Char → Option Nat × List Char
  | seen, [] => (seen, [])
  | seen, c :: rest =>
    if c.isDigit then
      if extentLimit < seen.getD 0 then (none, [])
      else readExtent (some (seen.getD 0 * 10 + (c.toNat - 48))) rest
    else (seen, c :: rest)

def readFlags (flags : Flags) : List Char → Flags × List Char
  | '+' :: rest => readFlags { flags with ascii := true } rest
  | '-' :: rest => readFlags { flags with left := true } rest
  | '#' :: rest => readFlags { flags with alternate := true } rest
  | ' ' :: rest => readFlags { flags with spaced := true } rest
  | '0' :: rest => readFlags { flags with zeros := true } rest
  | cs => (flags, cs)

/-- What stands before the first closing bracket and behind it. -/
def splitBracket : List Char → Option (List Char × List Char)
  | [] => none
  | ']' :: rest => some ([], rest)
  | c :: rest => (splitBracket rest).map fun (inside, after) => (c :: inside, after)

/-- The number in brackets in front, if there is an opening bracket. Without a
closing bracket, and where the template ends with empty brackets, only the
opening bracket is passed over. -/
def readSelector : List Char → Selector × List Char
  | '[' :: rest =>
    match splitBracket rest with
    | none => (.malformed, rest)
    | some (inside, after) =>
      if inside.isEmpty && after.isEmpty then (.malformed, rest)
      else match readExtent none inside with
        | (some n, []) => (.number n, after)
        | _ => (.malformed, after)
  | cs => (.next, cs)

/-- A star or a number in front. -/
def readSize : List Char → Extent × List Char
  | '*' :: rest => (.asked, rest)
  | cs =>
    match readExtent none cs with
    | (some n, rest) => (.fixed n, rest)
    | (none, rest) => (.none, rest)

/-- A number in brackets that nothing has used yet. It still stands for the part
that follows, which then has none of its own. -/
def Selector.isOpen (s : Selector) (size : Extent) : Bool :=
  match s, size with
  | .number _, .asked => false
  | .number _, _ => true
  | _, _ => false

/-- The precision: whether there is a point, the text it means, and its size. A
point that ends the template is no precision but a letter. -/
def readPrecision : List Char → (Bool × Selector × Extent) × List Char
  | '.' :: c :: rest =>
    let (selector, cs) := readSelector (c :: rest)
    let (size, cs) := readSize cs
    ((true, selector, size), cs)
  | cs => ((false, .next, .none), cs)

/-- The text that the letter means, if no number in brackets is open. -/
def readText : (isOpen : Bool) → List Char → Selector × List Char
  | true, cs => (.next, cs)
  | false, cs => readSelector cs

/-- A place behind its percent sign. -/
def readPlace (cs : List Char) : Place × List Char :=
  let (flags, cs) := readFlags {} cs
  let (widthText, cs) := readSelector cs
  let (width, cs) := readSize cs
  let ((pointed, precisionText, precision), cs) := readPrecision cs
  let isOpen := if pointed then precisionText.isOpen precision else widthText.isOpen width
  let (text, cs) := readText isOpen cs
  ({ flags, widthText, width, pointed, precisionText, precision, text, letter := cs.head? },
    cs.tail)

/-! ## Reading never adds characters -/

theorem readExtent_length_le (seen : Option Nat) (cs : List Char) :
    (readExtent seen cs).2.length ≤ cs.length := by
  induction cs generalizing seen with
  | nil => simp [readExtent]
  | cons c rest ih =>
    rw [readExtent]
    split
    · split
      · simp
      · exact Nat.le_succ_of_le (ih _)
    · simp

theorem readFlags_length_le (flags : Flags) (cs : List Char) :
    (readFlags flags cs).2.length ≤ cs.length := by
  fun_induction readFlags flags cs with
  | case6 => simp
  | _ => simp only [List.length_cons]; omega

theorem splitBracket_length_lt {cs inside after : List Char}
    (h : splitBracket cs = some (inside, after)) : after.length < cs.length := by
  fun_induction splitBracket cs generalizing inside after with
  | case1 => simp at h
  | case2 rest => simp_all
  | case3 c rest _ ih =>
    obtain ⟨⟨i, a⟩, ha, h⟩ := Option.map_eq_some_iff.1 h
    have := ih ha
    simp_all only [Prod.mk.injEq, List.length_cons]
    omega

theorem readSelector_length_le (cs : List Char) :
    (readSelector cs).2.length ≤ cs.length := by
  fun_cases readSelector cs with
  | case1 => simp
  | case2 => simp
  | case3 rest inside after h =>
    have := splitBracket_length_lt h
    simp only [List.length_cons]
    omega
  | case4 rest inside after h =>
    have := splitBracket_length_lt h
    simp only [List.length_cons]
    omega
  | case5 => simp

theorem readSize_length_le (cs : List Char) : (readSize cs).2.length ≤ cs.length := by
  fun_cases readSize cs with
  | case1 => simp
  | case2 _ _ n rest h => simpa [h] using readExtent_length_le none cs
  | case3 _ _ rest h => simpa [h] using readExtent_length_le none cs

theorem readPrecision_length_le (cs : List Char) :
    (readPrecision cs).2.length ≤ cs.length := by
  fun_cases readPrecision cs with
  | case1 c rest =>
    have h₁ := readSelector_length_le (c :: rest)
    have h₂ := readSize_length_le (readSelector (c :: rest)).2
    simp_all only [List.length_cons]
    omega
  | case2 => simp

theorem readText_length_le (isOpen : Bool) (cs : List Char) :
    (readText isOpen cs).2.length ≤ cs.length := by
  cases isOpen with
  | true => simp [readText]
  | false => exact readSelector_length_le cs

/-- Reading a place leaves no more than it was given. -/
theorem readPlace_length_le (cs : List Char) : (readPlace cs).2.length ≤ cs.length := by
  have h₁ := readFlags_length_le {} cs
  have h₂ := readSelector_length_le (readFlags {} cs).2
  have h₃ := readSize_length_le (readSelector (readFlags {} cs).2).2
  have h₄ := readPrecision_length_le (readSize (readSelector (readFlags {} cs).2).2).2
  simp only [readPlace, List.length_tail]
  exact Nat.le_trans (Nat.sub_le _ 1) (Nat.le_trans (readText_length_le _ _) (by omega))

end WasmShader.Text
