import WasmShader.Session.Run

/-!
# The command line

A flag starts with one or two dashes. A switch is on unless it is given `=` and
another truth value; any other flag takes what follows `=`, or the next word.
The first word that is no flag ends the flags.
-/

namespace WasmShader.Session

open Text

structure Request where
  options : Options := { file := "" }
  /-- The session asks for keys. -/
  interactive : Bool := false
  deriving Repr, Inhabited

/-- Why a command line is refused. -/
inductive Refusal
  | badFlag (word : String)
  | unknownFlag (name : String)
  | noValue (name : String)
  | badValue (name value : String)
  | badSwitch (name value : String)
  deriving DecidableEq, Repr, Inhabited

namespace Refusal

def message : Refusal → String
  | badFlag word => "bad flag syntax: " ++ word
  | unknownFlag name => "flag provided but not defined: -" ++ name
  | noValue name => "flag needs an argument: -" ++ name
  | badValue name value =>
    "invalid value " ++ quote value ++ " for flag -" ++ name ++ ": parse error"
  | badSwitch name value =>
    "invalid boolean value " ++ quote value ++ " for -" ++ name ++ ": parse error"

end Refusal

/-- How the program is called. -/
def usage : String :=
  unlines [
    "Usage: wasmgpu -wasm <file.wasm> [-dump] [-report]",
    "       wasmgpu -wasm <file.wasm> -call name -args 1,2",
    "       wasmgpu -wasm <file.wasm> -i  (interactive mode)"]

/-- The truth value that a text spells. -/
def readBool? (s : String) : Option Bool :=
  if ["1", "t", "T", "true", "TRUE", "True"].contains s then some true
  else if ["0", "f", "F", "false", "FALSE", "False"].contains s then some false
  else none

namespace Request

/-- The effect of a switch, if it is one. -/
def switch? (r : Request) (name : String) (on : Bool) : Option Request :=
  match name with
  | "dump" => some { r with options.dump := on }
  | "report" => some { r with options.report := on }
  | "f64" => some { r with options.nativeF64 := on }
  | "skip" => some { r with options.skip := on }
  | "host-zero" => some { r with options.hostZero := on }
  | "i" => some { r with interactive := on }
  | _ => none

/-- The effect of a flag with a value. -/
def set (r : Request) (name value : String) : Except Refusal Request :=
  match name with
  | "wasm" => .ok { r with options.file := value }
  | "exports" => .ok { r with options.exports := value }
  | "call" => .ok { r with options.call := value }
  | "args" => .ok { r with options.args := value }
  | "stack" =>
    match readUnsigned 64 value.toList with
    | .ok n => .ok { r with options.stackWords := n.toUInt32 }
    | .error _ => .error (.badValue name value)
  | "steps" =>
    match readSigned 64 value.toList with
    | .ok n => .ok { r with options.maxSteps := n.toNat }
    | .error _ => .error (.badValue name value)
  | _ => .error (.unknownFlag name)

def takesValue (name : String) : Bool :=
  ["wasm", "exports", "call", "args", "stack", "steps"].contains name

/-- The name of a flag and the value behind `=`; `none` if the word is no flag. -/
def flag? (word : String) : Option (List Char × Option (List Char)) :=
  let split (cs : List Char) : List Char × Option (List Char) :=
    match cs.dropWhile (· ≠ '=') with
    | [] => (cs, none)
    | _ :: value => (cs.takeWhile (· ≠ '='), some value)
  match word.toList with
  | ['-', '-'] => none
  | '-' :: '-' :: cs => some (split cs)
  | '-' :: c :: cs => some (split (c :: cs))
  | _ => none

/-- Reads the words of a command line. -/
def read (r : Request) : List String → Except Refusal Request
  | [] => .ok r
  | word :: rest =>
    match flag? word with
    | none => .ok r
    | some (name, value) =>
      let name := String.ofList name
      if name = "" || name.startsWith "-" then .error (.badFlag word)
      else match r.switch? name true, value with
        | some r, none => r.read rest
        | some _, some value =>
          match (readBool? (String.ofList value)).bind (r.switch? name) with
          | some r => r.read rest
          | none => .error (.badSwitch name (String.ofList value))
        | none, some value => do (← r.set name (String.ofList value)).read rest
        | none, none =>
          if takesValue name then
            match rest with
            | [] => .error (.noValue name)
            | value :: rest => do (← r.set name value).read rest
          else .error (.unknownFlag name)

end Request

end WasmShader.Session
