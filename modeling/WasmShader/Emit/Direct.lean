import WasmShader.Emit.Body

/-!
# Direct forms

The direct form of a function is an ordinary shader function that takes the
parameters and gives the results.
-/

namespace WasmShader.Emit

open Shader

def paramName (i : Nat) : String := "a" ++ toString i

/-- Copies the parameters to the locals they are. -/
def emitParams (ctx : Context) (f : WasmShader.Function) : Emitter (List Stmt) :=
  (List.range f.type.params.length).mapM fun i => do
    return .assign (← Emitter.localVar ctx f i) (.var (paramName i))

def emitDirectBody (ctx : Context) (f : WasmShader.Function) (body : Body) :
    Emitter (List Stmt) := do
  let results := f.type.results
  let params ← emitParams ctx f
  let inner ← emitSeq ctx f [{ kind := .func, types := results }] body
  return params ++ inner ++ [.ret (← Emitter.slots ctx 0 results)]

def directFunction (ctx : Context) (f : WasmShader.Function) : Except Abort Shader.Function := do
  let body ← liftFailure f.body
  let params ← f.type.params.mapM (Ty.carrierOf ctx.layout)
  let results ← f.type.results.mapM (Ty.carrierOf ctx.layout)
  let (stmts, state) ← (emitDirectBody ctx f body).run {}
  return {
    name := directName f.index
    params := params.mapIdx fun i t => ⟨paramName i, t⟩
    results
    locals := state.declared
    body := stmts }

end WasmShader.Emit
