import WasmShader.Shader.Module
import WasmShader.Text.Shortest

/-!
# Shader text

`Module.text` writes a module in the style of WGSL. Traps, several results and
numeric operations of the backend have a notation of their own, so the text is
for reading. It crashes on a literal that lacks the words of its type.
-/

namespace WasmShader.Shader

/-- A word of a literal. -/
def literalWord (words : List UInt32) (i : Nat) : Except Abort UInt32 := entry words i

def hexWord (w : UInt32) : String := Text.hexLiteral 8 w.toNat ++ "u"

/-- The text of a constant. -/
def literalText (type : Ty) (words : List UInt32) : Except Abort String := do
  match type with
  | .bool => return if (← literalWord words 0) ≠ 0 then "true" else "false"
  | .u32 => return toString (← literalWord words 0).toNat ++ "u"
  | .i32 => return toString (← literalWord words 0).toInt32.toInt ++ "i"
  | .f32 =>
    let w ← literalWord words 0
    let f := FloatFormat.binary32
    if f.isNaN w.toNat || f.isInfinite w.toNat then return "bitcast<f32>(" ++ hexWord w ++ ")"
    else return Text.floatText f w.toNat ++ "f"
  | .f64 =>
    let lo ← literalWord words 0
    let hi ← literalWord words 1
    return "bitcast<f64>(vec2<u32>(" ++ hexWord lo ++ ", " ++ hexWord hi ++ "))"
  | .vec2 | .vec3 | .vec4 =>
    return type.name ++ "(" ++ Text.commaSeparated (words.map hexWord) ++ ")"

mutual

def Expr.text : Expr → Except Abort String
  | .lit type words => literalText type words
  | .var name => return name
  | .laneIndex => return "lane.x"
  | .load buffer index => return buffer ++ "[" ++ (← index.text) ++ "]"
  | .binary op left right => do
    let l ← left.text
    return "(" ++ l ++ " " ++ op.symbol ++ " " ++ (← right.text) ++ ")"
  | .unary op x => do
    let inner ← x.text
    return if op = .neg || op = .not then op.name ++ inner else op.name ++ "(" ++ inner ++ ")"
  | .select cond onTrue onFalse => do
    let f ← onFalse.text
    let t ← onTrue.text
    return "select(" ++ f ++ ", " ++ t ++ ", " ++ (← cond.text) ++ ")"
  | .compose type parts => return type.name ++ "(" ++ (← exprsText parts) ++ ")"
  | .extract x index => return (← x.text) ++ "[" ++ toString index ++ "]"
  | .bitcast type x => return "bitcast<" ++ type.name ++ ">(" ++ (← x.text) ++ ")"
  | .convert type x => return type.name ++ "(" ++ (← x.text) ++ ")"
  | .intrinsic op args _ _ =>
    return "wasm_" ++ String.ofList (op.toList.map fun c => if c = '.' then '_' else c)
      ++ "(" ++ (← exprsText args) ++ ")"
  | .absent => return "/* unknown expression <nil> */"

/-- The texts of expressions, apart by commas. -/
def exprsText : List Expr → Except Abort String
  | [] => return ""
  | [e] => e.text
  | e :: es => do
    let first ← e.text
    return first ++ ", " ++ (← exprsText es)

end

/-- A line at a depth of nesting. -/
def line (depth : Nat) (s : String) : String :=
  String.ofList (List.replicate (4 * depth) ' ') ++ s

/-- The opening and closing braces of the text. -/
def opening : String := "\x7b"

def closing : String := "\x7d"

mutual

/-- The lines of a statement at a depth of nesting. -/
def Stmt.lines (depth : Nat) : Stmt → Except Abort (List String)
  | .assign name value => return [line depth (name ++ " = " ++ (← value.text) ++ ";")]
  | .store buffer index value => do
    let i ← index.text
    return [line depth (buffer ++ "[" ++ i ++ "] = " ++ (← value.text) ++ ";")]
  | .ifElse cond body alternative => do
    let head := line depth ("if " ++ (← cond.text) ++ " " ++ opening)
    let inner ← stmtsLines (depth + 1) body
    let rest ← stmtsLines (depth + 1) alternative
    let middle := if alternative.isEmpty then []
      else line depth (closing ++ " else " ++ opening) :: rest
    return head :: inner ++ middle ++ [line depth closing]
  | .block label body => do
    let inner ← stmtsLines (depth + 1) body
    return line depth (label ++ ": " ++ opening) :: inner ++ [line depth closing]
  | .loop label body => do
    let inner ← stmtsLines (depth + 1) body
    return line depth (label ++ ": loop " ++ opening) :: inner ++ [line depth closing]
  | .leave label => return [line depth ("break " ++ label ++ ";")]
  | .again label => return [line depth ("continue " ++ label ++ ";")]
  | .switch selector cases fallback => do
    let head := line depth ("switch " ++ (← selector.text) ++ " " ++ opening)
    let inner ← casesLines (depth + 1) cases
    let rest ← stmtsLines (depth + 2) fallback
    return head :: inner ++ line (depth + 1) ("default: " ++ opening) :: rest
      ++ [line (depth + 1) closing, line depth closing]
  | .ret values =>
    match values with
    | [] => return [line depth "return;"]
    | [e] => return [line depth ("return " ++ (← e.text) ++ ";")]
    | es => return [line depth ("return (" ++ (← exprsText es) ++ ");")]
  | .call func args results => do
    let call := func ++ "(" ++ (← exprsText args) ++ ");"
    return [line depth
      (if results.isEmpty then call else Text.commaSeparated results ++ " = " ++ call)]
  | .trap code => return [line depth ("trap(" ++ toString code.toNat ++ "u);")]
  | .absent => return [line depth "/* unknown statement <nil> */"]

def stmtsLines (depth : Nat) : List Stmt → Except Abort (List String)
  | [] => return []
  | s :: ss => do
    let first ← s.lines depth
    return first ++ (← stmtsLines depth ss)

def Case.lines (depth : Nat) : Case → Except Abort (List String)
  | .mk values body => do
    let names := Text.commaSeparated (values.map fun v => toString v.toNat ++ "u")
    let inner ← stmtsLines (depth + 1) body
    return line depth ("case " ++ names ++ ": " ++ opening) :: inner ++ [line depth closing]

def casesLines (depth : Nat) : List Case → Except Abort (List String)
  | [] => return []
  | c :: cs => do
    let first ← c.lines depth
    return first ++ (← casesLines depth cs)

end

def Variable.text (v : Variable) : String := v.name ++ ": " ++ v.type.name

def resultsText : List Ty → String
  | [] => ""
  | [t] => " -> " ++ t.name
  | ts => " -> (" ++ Text.commaSeparated (ts.map (·.name)) ++ ")"

/-- The lines of a function, an empty one in front. -/
def Function.lines (f : Function) : Except Abort (List String) := do
  let head := "fn " ++ f.name ++ "(" ++ Text.commaSeparated (f.params.map (·.text)) ++ ")"
    ++ resultsText f.results ++ " " ++ opening
  let locals := f.locals.map fun v => line 1 ("var " ++ v.text ++ ";")
  let body ← stmtsLines 1 f.body
  return "" :: head :: locals ++ body ++ [closing]

def Workgroup.text (w : Workgroup) : String :=
  Text.commaSeparated [toString w.x.toNat, toString w.y.toNat, toString w.z.toNat]

/-- The lines of an entry point, an empty one in front. -/
def EntryPoint.lines (e : EntryPoint) : List String :=
  ["", "@compute @workgroup_size(" ++ e.workgroup.text ++ ")",
   "fn " ++ e.name ++ "(@builtin(global_invocation_id) lane: vec3<u32>) " ++ opening ++ " "
     ++ e.function ++ "(); " ++ closing]

def Module.text (m : Module) : Except Abort String := do
  let buffers := m.buffers.map fun b =>
    "@group(0) @binding(" ++ toString b.binding.toNat ++ ") var<storage, read_write> " ++ b.name
      ++ ": array<u32>;"
  let privates := m.privates.map fun v => "var<private> " ++ v.text ++ ";"
  let functions ← m.functions.mapM (·.lines)
  let lines := buffers ++ privates ++ functions.flatten ++ m.entryPoints.flatMap (·.lines)
  return String.join (lines.map (· ++ "\n"))

end WasmShader.Shader
