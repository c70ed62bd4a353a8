import WasmShader.Session.Field
import WasmShader.Session.Run

/-!
# The interactive session

A screen to choose an export, one field for each of its parameters, and a screen
with the result and the blocks that ran. A key changes the `Model`;
`Model.view` draws it.
-/

namespace WasmShader.Session

open Compile Text

inductive Screen
  | select
  | input
  | result
  deriving DecidableEq, Repr, Inhabited

structure Model where
  options : Options
  screen : Screen := .select
  /-- The module, once it is compiled. -/
  compiled : Option Compiled := none
  /-- Why the module was not compiled or the last call failed. -/
  failure : Option Failure := none
  /-- The text of the last result. -/
  result : String := ""
  /-- The fields, one for each parameter. -/
  inputs : List Field := []
  /-- The field that takes typed text. -/
  focus : Nat := 0
  /-- The number of the chosen export. -/
  selected : Nat := 0
  /-- The blocks that the last call ran. -/
  trace : List BlockId := []
  /-- How many blocks the last call ran. -/
  steps : Nat := 0
  /-- The first line of the trace shown. -/
  offset : Nat := 0
  /-- The user asked to leave. -/
  quit : Bool := false
  deriving Inhabited

inductive Key
  | up
  | down
  | enter
  | escape
  | tab
  | interrupt
  /-- A key that edits a field. -/
  | edit (e : Edit)
  | text (s : String)
  deriving DecidableEq, Repr, Inhabited

/-- The key with a given name; any text that is no name is typed. -/
def Key.ofName : String → Key
  | "up" => .up
  | "down" => .down
  | "enter" => .enter
  | "esc" => .escape
  | "tab" => .tab
  | "ctrl+c" => .interrupt
  | s =>
    match Edit.ofName? s with
    | some e => .edit e
    | none => .text s

namespace Model

/-- The number of lines of the trace shown at once. -/
def traceWindow : Nat := 12

/-- The entry points to choose from. -/
def entries (m : Model) : List Entry := (m.compiled.map (·.entries)).getD []

def texts (m : Model) : List String := m.inputs.map (·.text)

def chosen? (m : Model) : Option Entry := m.entries[m.selected]?

/-- Takes in the compiled module or why there is none. -/
def loaded (m : Model) : Except Abort Compiled → Except Abort Model
  | .ok c => .ok { m with compiled := some c }
  | .error (.failed e) => .ok { m with failure := some e }
  | .error e => .error e

/-- Back to the choice of an export. -/
def reset (m : Model) : Model :=
  { m with screen := .select, result := "", failure := none, trace := [] }

/-- Calls the chosen export on the texts of the fields and shows the result. -/
def callChosen (m : Model) : Except Abort Model := do
  match m.compiled, m.chosen? with
  | some c, some e =>
    let shownResult : Model := { m with screen := .result, offset := 0 }
    match readArgs (",".intercalate m.texts) e.sig.params with
    | .error e =>
      return { shownResult with result := "", failure := some e, trace := [], steps := 0 }
    | .ok args =>
      let (outcome, trace) := callExport m.options c e.symbol args true
      match outcome with
      | .ok values =>
        return { shownResult with
          result := Value.listText values, failure := none, trace, steps := trace.length }
      | .error (.failed e) =>
        return { shownResult with result := "", failure := some e, trace, steps := trace.length }
      | .error e => throw e
  | _, _ => throw .outOfBounds

/-- Enters the fields of the chosen export, or calls it if it has none. -/
def choose (m : Model) : Except Abort Model :=
  match m.chosen? with
  | none => .ok m
  | some e =>
    let m := { m with inputs := e.sig.params.map fun _ => default, focus := 0 }
    if m.inputs.isEmpty then m.callChosen else .ok { m with screen := .input }

/-- Changes the focused field. -/
def edit (m : Model) (e : Edit) : Except Abort Model := do
  match m.screen, m.inputs[m.focus]? with
  | .input, some f => return { m with inputs := m.inputs.set m.focus (← f.apply e) }
  | _, _ => return m

def moveUp (m : Model) : Model :=
  match m.screen with
  | .select => { m with selected := m.selected - 1 }
  | .result => { m with offset := m.offset - 1 }
  | .input => m

def moveDown (m : Model) : Model :=
  match m.screen with
  | .select =>
    if m.selected + 1 < m.entries.length then { m with selected := m.selected + 1 } else m
  | .result =>
    if m.offset + traceWindow < m.trace.length then { m with offset := m.offset + 1 } else m
  | .input => m

/-- Typed text: three letters are commands where no text is asked for. -/
def typeText (m : Model) (s : String) : Model :=
  match m.screen, s with
  | .input, _ => { m with inputs := m.inputs.modify m.focus (·.insert s) }
  | _, "q" => { m with quit := true }
  | _, "k" => m.moveUp
  | _, "j" => m.moveDown
  | _, _ => m

/-- The model after a key. -/
def press (m : Model) : Key → Except Abort Model
  | .interrupt => .ok { m with quit := true }
  | .up => .ok m.moveUp
  | .down => .ok m.moveDown
  | .text s => .ok (m.typeText s)
  | .edit e => m.edit e
  | .tab =>
    .ok (if m.screen = .input && 1 < m.inputs.length then
      { m with focus := (m.focus + 1) % m.inputs.length } else m)
  | .escape =>
    match m.screen with
    | .input => .ok { m with screen := .select, inputs := [] }
    | .result => .ok m.reset
    | .select => .ok m
  | .enter =>
    match m.screen with
    | .select => m.choose
    | .input => m.callChosen
    | .result => .ok m.reset

/-! ## Drawing -/

/-- The line of a block of the trace. -/
def traceLine (c : Compiled) (i : Nat) (id : BlockId) : String :=
  let what := match c.blocks.find? (·.id == id) with
    | none => ""
    | some b =>
      match b.index with
      | none => "func " ++ toString b.func ++ " exit"
      | some k => "func " ++ toString b.func ++ " block " ++ toString k ++ " (" ++ b.term ++ ")"
  "  " ++ padLeft 5 ' ' (toString i) ++ "  " ++ padRight 10 ' ' id.text ++ " " ++ what ++ "\n"

def selectView (m : Model) : String :=
  if m.entries.isEmpty then "The module exports no functions.\n\nq quit"
  else
    let line (e : Entry) (i : Nat) : String :=
      (if i = m.selected then "> " else "  ") ++ entryLine e ++ "\n"
    "Select an export to run:\n\n"
      ++ String.join (m.entries.mapIdx fun i e => line e i)
      ++ "\n↑/↓ select • enter run • q quit"

def inputView (m : Model) : String :=
  let e := m.chosen?.getD default
  let field (i : Nat) (text : String) (t : ValueType) : String :=
    "arg" ++ toString i ++ ": " ++ text ++ " " ++ t.name ++ "\n"
  "Calling " ++ shown e.name ++ "\n\n"
    ++ String.join ((m.texts.zip e.sig.params).mapIdx fun i (text, t) => field i text t)
    ++ "\ntab next field • enter run • esc back"

def resultView (m : Model) (c : Compiled) : String :=
  let e := m.chosen?.getD default
  let outcome := match m.failure with
    | some f => "Error: " ++ f.message
    | none => m.result
  let lines := (m.trace.zipIdx.drop m.offset).take traceWindow
  "Result of " ++ shown e.name ++ ":\n\n" ++ shown outcome
    ++ "\n\n" ++ toString m.steps ++ " dispatches\n"
    ++ String.join (lines.map fun (id, i) => traceLine c i id)
    ++ "\n↑/↓ scroll trace • enter continue • q quit"

def view (m : Model) : String :=
  match m.failure, m.screen, m.compiled with
  | some f, .select, _ | some f, .input, _ =>
    shown ("Error: " ++ f.message ++ "\n\nPress q to quit.")
  | _, _, none => "Compiling module..."
  | _, screen, some c =>
    "WASM GPU " ++ m.options.file ++ "\n\n"
      ++ match screen with
        | .select => m.selectView
        | .input => m.inputView
        | .result => m.resultView c

end Model

end WasmShader.Session
