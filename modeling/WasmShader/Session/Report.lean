import WasmShader.Compile.Basic

/-!
# Reports

What a compiled module consists of, as text: its recursion groups, the order of
its functions, its blocks and the host functions it asks for.
-/

namespace WasmShader.Session

open Compile Text

/-- A piece of text as shown on screen: a tab is four spaces. -/
def shown (s : String) : String :=
  String.ofList (s.toList.flatMap fun c => if c = '\t' then [' ', ' ', ' ', ' '] else [c])

def entryLine (e : Entry) : String :=
  let types (ts : List ValueType) : String := commaSeparated (ts.map (·.name))
  let kind := match e.exit with
    | some exit => "machine, exit " ++ exit.text
    | none => "direct"
  let results := if e.sig.results.isEmpty then "" else " -> " ++ types e.sig.results
  shown e.name ++ "(" ++ types e.sig.params ++ ")" ++ results ++ "  [" ++ kind ++ "]"

/-- The name a function is reported with. -/
def funcLabel (p : Program) (fn : Nat) : String :=
  let name := ((p.func? fn).map (·.name)).getD ""
  if name = "" then "func" ++ toString fn else name

/-- The lines of a list; each ends with a line break. -/
def unlines (lines : List String) : String := String.join (lines.map (· ++ "\n"))

def groupLines (p : Program) (a : Analysis) : List String :=
  if a.groups.isEmpty then ["  none"]
  else a.groups.map fun g =>
    "  #" ++ toString g.id ++ ": " ++ commaSeparated (g.members.map (funcLabel p))

def orderLine (p : Program) (a : Analysis) (fn : Nat) : String :=
  let tags := (if a.directSafe fn then ["direct"] else [])
    ++ (if a.needsMachine fn then ["machine"] else [])
    ++ (if a.hostYields fn then ["yields"] else [])
  "  " ++ padLeft 3 ' ' (toString (a.rank fn)) ++ " " ++ shown (funcLabel p fn) ++ " "
    ++ " ".intercalate tags

def blockLine (p : Program) (b : BlockInfo) : String :=
  let place := match b.index with
    | some i => toString i
    | none => "exit"
  "  " ++ padRight 10 ' ' b.id.text ++ " " ++ padRight 20 ' ' (funcLabel p b.func ++ "." ++ place)
    ++ " " ++ padRight 8 ' ' b.term ++ " " ++ padLeft 2 ' ' (toString b.frameWords) ++ " words "
    ++ ValueType.listText b.payload

def hostLine (h : HostFunc) : String :=
  "  " ++ padRight 10 ' ' h.id.text ++ " " ++ padRight 8 ' ' h.kind.text ++ " " ++ shown h.name
    ++ " " ++ ValueType.listText h.params ++ " -> " ++ ValueType.listText h.results

def report (c : Compiled) : String :=
  let p := c.program
  let a := c.analysis
  let hosts := if c.hosts.funcs.isEmpty then []
    else ["", "Host functions"] ++ c.hosts.funcs.map hostLine
  unlines (
    "Recursion groups" :: groupLines p a
    ++ ["", "Call order"] ++ a.order.map (orderLine p a)
    ++ ["", "Blocks"] ++ c.blocks.map (blockLine p)
    ++ hosts
    ++ ["", "stack " ++ toString c.stackWords.toNat ++ " words, io " ++ toString c.ioWords.toNat
      ++ " words, globals " ++ toString c.globalWords.toNat ++ " words per lane"])

end WasmShader.Session
