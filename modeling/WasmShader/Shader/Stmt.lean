import WasmShader.Shader.Expr

/-!
# Shader statements
-/

namespace WasmShader.Shader

mutual

inductive Stmt
  | assign (name : String) (value : Expr)
  /-- Writes a word of a storage buffer. -/
  | store (buffer : String) (index value : Expr)
  | ifElse (cond : Expr) (body alternative : List Stmt)
  /-- A labelled list that `leave` ends. -/
  | block (label : String) (body : List Stmt)
  /-- Repeats its body until `leave` ends it; `again` starts it over. -/
  | loop (label : String) (body : List Stmt)
  | leave (label : String)
  | again (label : String)
  /-- Runs the first case that lists the selector, or the fallback. -/
  | switch (selector : Expr) (cases : List Case) (fallback : List Stmt)
  | ret (values : List Expr)
  /-- Calls a function and assigns its results. -/
  | call (func : String) (args : List Expr) (results : List String)
  /-- Ends the invocation. -/
  | trap (code : UInt32)
  /-- No statement. -/
  | absent

inductive Case
  | mk (values : List UInt32) (body : List Stmt)

end

instance : Inhabited Stmt := ⟨.absent⟩

instance : Inhabited Case := ⟨.mk [] []⟩

/-- The selectors a case is for. -/
def Case.values : Case → List UInt32
  | .mk values _ => values

def Case.body : Case → List Stmt
  | .mk _ body => body

/-- A call statement: the function, the number of arguments and the number of
results. -/
structure CallSite where
  func : String
  args : Nat
  results : Nat
  deriving DecidableEq, Repr, Inhabited

mutual

/-- The calls of a statement at any depth, in order. -/
def Stmt.calls : Stmt → List CallSite
  | .call func args results => [⟨func, args.length, results.length⟩]
  | .ifElse _ body alternative => stmtsCalls body ++ stmtsCalls alternative
  | .block _ body => stmtsCalls body
  | .loop _ body => stmtsCalls body
  | .switch _ cases fallback => casesCalls cases ++ stmtsCalls fallback
  | .assign _ _ | .store _ _ _ | .leave _ | .again _ | .ret _ | .trap _ | .absent => []

def stmtsCalls : List Stmt → List CallSite
  | [] => []
  | s :: ss => s.calls ++ stmtsCalls ss

def Case.calls : Case → List CallSite
  | .mk _ body => stmtsCalls body

def casesCalls : List Case → List CallSite
  | [] => []
  | c :: cs => c.calls ++ casesCalls cs

end

end WasmShader.Shader
