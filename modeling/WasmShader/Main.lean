import WasmShader.Session.CommandLine
import WasmShader.Session.Interactive

/-!
# The program

Reads the command line and the module's file, runs the session, and prints.
-/

namespace WasmShader

open Session

/-- The content of a file, or why there is none. -/
def readModule (path : String) : IO (Except Failure Bytes) := do
  try
    return .ok (← IO.FS.readBinFile path).toList
  catch _ =>
    return .error (.plain ("open " ++ path ++ ": no such file or directory"))

/-- Prints an error and gives the exit code. -/
def failWith (code : UInt32) (message : String) : IO UInt32 := do
  IO.eprint message
  return code

/-- The message of what ended a session. -/
def Abort.line : Abort → String
  | .failed e => "Error: " ++ e.message ++ "\n"
  | .crashed message => "Error: " ++ message.getD "index out of range" ++ "\n"

/-- Shows the model and takes a key from each line, until the user leaves. -/
partial def converse (input : IO.FS.Stream) (m : Model) : IO UInt32 := do
  IO.println m.view
  if m.quit then return 0
  let line ← input.getLine
  if line.isEmpty then return 0
  match m.press (.ofName (line.dropEndWhile (· = '\n')).toString) with
  | .ok next => converse input next
  | .error e => failWith 1 e.line

/-- Runs what a command line asks for. -/
def serve (r : Request) : IO UInt32 := do
  let o := r.options
  if o.file = "" then failWith 1 usage
  else
    let data ← readModule o.file
    if r.interactive then
      let start : Model := { options := o }
      match start.loaded (load o data) with
      | .ok m => converse (← IO.getStdin) m
      | .error e => failWith 1 e.line
    else
      let (result, out) := run o data
      IO.print out
      match result with
      | .ok _ => return 0
      | .error e => failWith 1 e.line

end WasmShader

def main (args : List String) : IO UInt32 :=
  match WasmShader.Session.Request.read {} args with
  | .error e => WasmShader.failWith 2 (e.message ++ "\n" ++ WasmShader.Session.usage)
  | .ok r => WasmShader.serve r
