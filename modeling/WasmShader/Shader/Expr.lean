import WasmShader.Shader.Ty

/-!
# Shader expressions

Expressions have no side effects, apart from numeric operations that trap. Words
of storage buffers are read one at a time.
-/

namespace WasmShader.Shader

/-- A binary operator. -/
inductive BinaryOp
  | add | sub | mul | div | rem | and | or | xor | shl | shr
  | eq | ne | lt | le | gt | ge
  | logicalAnd | logicalOr
  deriving DecidableEq, Repr, Inhabited

namespace BinaryOp

def symbol : BinaryOp → String
  | .add => "+" | .sub => "-" | .mul => "*" | .div => "/" | .rem => "%"
  | .and => "&" | .or => "|" | .xor => "^" | .shl => "<<" | .shr => ">>"
  | .eq => "==" | .ne => "!=" | .lt => "<" | .le => "<=" | .gt => ">" | .ge => ">="
  | .logicalAnd => "&&" | .logicalOr => "||"

def all : List BinaryOp :=
  [.add, .sub, .mul, .div, .rem, .and, .or, .xor, .shl, .shr, .eq, .ne, .lt, .le, .gt, .ge,
   .logicalAnd, .logicalOr]

def ofSymbol? (s : String) : Option BinaryOp := all.find? (·.symbol == s)

end BinaryOp

/-- A unary operator or builtin. -/
inductive UnaryOp
  | neg | not | clz | ctz | popcnt | abs | ceil | floor | trunc | nearest | sqrt
  deriving DecidableEq, Repr, Inhabited

namespace UnaryOp

def name : UnaryOp → String
  | .neg => "-" | .not => "!"
  | .clz => "countLeadingZeros" | .ctz => "countTrailingZeros" | .popcnt => "countOneBits"
  | .abs => "abs" | .ceil => "ceil" | .floor => "floor" | .trunc => "trunc"
  | .nearest => "round" | .sqrt => "sqrt"

def all : List UnaryOp :=
  [.neg, .not, .clz, .ctz, .popcnt, .abs, .ceil, .floor, .trunc, .nearest, .sqrt]

def ofName? (s : String) : Option UnaryOp := all.find? (·.name == s)

end UnaryOp

inductive Expr
  /-- A constant, one word for each component; a 64-bit float has its low word
  first. -/
  | lit (type : Ty) (words : List UInt32)
  /-- A parameter, local or private variable. -/
  | var (name : String)
  /-- The number of the executing lane. -/
  | laneIndex
  /-- A word of a storage buffer. -/
  | load (buffer : String) (index : Expr)
  /-- Both operands have the type of the left one. A shift to the right is
  arithmetic on signed integers. -/
  | binary (op : BinaryOp) (left right : Expr)
  | unary (op : UnaryOp) (x : Expr)
  | select (cond onTrue onFalse : Expr)
  /-- A vector from its components. -/
  | compose (type : Ty) (parts : List Expr)
  /-- One component of a vector. -/
  | extract (x : Expr) (index : Int)
  /-- The same bits as another type. -/
  | bitcast (type : Ty) (x : Expr)
  /-- The same number as another type. -/
  | convert (type : Ty) (x : Expr)
  /-- A numeric WebAssembly instruction provided by the backend, by name. -/
  | intrinsic (op : String) (args : List Expr) (params results : List ValueType)
  /-- No expression. -/
  | absent
  deriving Repr, Inhabited

namespace Expr

def u32 (v : UInt32) : Expr := .lit .u32 [v]

/-- A word that counts something. -/
def count (n : Nat) : Expr := .u32 n.toUInt32

def bool (b : Bool) : Expr := .lit .bool [if b then 1 else 0]

def zero (t : Ty) : Expr := .lit t (List.replicate t.words 0)

def isNonzero (x : Expr) : Expr := .binary .ne x (.u32 0)

end Expr

end WasmShader.Shader
