/-!
# 64-bit integers as word pairs

A 64-bit integer is carried in two 32-bit words, the low one first. Sums and
differences pass the carry or borrow of the low words on to the high ones.
-/

namespace WasmShader

/-- A 64-bit integer in two words. -/
structure WordPair where
  lo : UInt32
  hi : UInt32
  deriving DecidableEq, Repr, Inhabited

namespace WordPair

def split (v : UInt64) : WordPair := ⟨v.toUInt32, (v >>> 32).toUInt32⟩

def join (w : WordPair) : UInt64 := w.lo.toUInt64 ||| (w.hi.toUInt64 <<< 32)

def words (w : WordPair) : List UInt32 := [w.lo, w.hi]

/-- The low words wrapped around iff their sum is below either of them. -/
def add (a b : WordPair) : WordPair :=
  let lo := a.lo + b.lo
  ⟨lo, a.hi + b.hi + (if lo < a.lo then 1 else 0)⟩

def sub (a b : WordPair) : WordPair :=
  ⟨a.lo - b.lo, a.hi - b.hi - (if a.lo < b.lo then 1 else 0)⟩

/-- The high words decide unless they agree. -/
def less (signed : Bool) (a b : WordPair) : Bool :=
  if a.hi ≠ b.hi then
    if signed then a.hi.toInt32 < b.hi.toInt32 else a.hi < b.hi
  else a.lo < b.lo

end WordPair

end WasmShader
