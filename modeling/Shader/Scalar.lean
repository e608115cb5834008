import Shader.Number.Decimal
import Shader.Ty.Basic

/-! Single 32-bit components and their conversions. -/

namespace Shader

inductive Scalar where
  | float (x : Binary32)
  | int (i : Int32)
  | uint (u : UInt32)
  | bool (b : Bool)
deriving DecidableEq, Repr

namespace Scalar

def kind : Scalar → ScalarKind
  | float _ => .float
  | int _ => .int
  | uint _ => .uint
  | bool _ => .bool

def lowBits (i : Int) : UInt32 :=
  UInt32.ofNat (i % twoPow 32).toNat

def toBinary32 : Scalar → Binary32
  | float x => x
  | int i => .ofInt i.toInt
  | uint u => .ofInt u.toNat
  | bool b => .ofBool b

def toBool : Scalar → Bool
  | float x => !x.isZero
  | int i => i ≠ 0
  | uint u => u ≠ 0
  | bool b => b

/-- The 32 bits that an integer constructor gives. A float is cut off toward zero and wraps; signed
and unsigned integers keep their bits. -/
def toBits : Scalar → UInt32
  | float x => lowBits x.toInt64
  | int i => i.toUInt32
  | uint u => u
  | bool b => if b then 1 else 0

/-- The conversion that the constructor of a scalar type applies. -/
def convert (s : Scalar) : ScalarKind → Scalar
  | .float => float s.toBinary32
  | .int => int s.toBits.toInt32
  | .uint => uint s.toBits
  | .bool => bool s.toBool

def index? : Scalar → Option Int
  | int i => some i.toInt
  | uint u => some u.toNat
  | _ => none

/-- Equality as the operator sees it: kinds must agree, and floats compare as numbers. -/
def sameValue : Scalar → Scalar → Bool
  | float x, float y => x.sameValue y
  | int i, int j => i == j
  | uint u, uint v => u == v
  | bool a, bool b => a == b
  | _, _ => false

/-- The order of two numbers of one kind; none with NaN, or of other scalars. -/
def compare? : Scalar → Scalar → Option Ordering
  | float x, float y => x.compare? y
  | int i, int j => some (compare i.toInt j.toInt)
  | uint u, uint v => some (compare u.toNat v.toNat)
  | _, _ => none

/-- Source text of a float, as an expression where there is no literal for it. -/
def floatText (x : Binary32) : String :=
  if x.isNaN then "(0.0 / 0.0)"
  else if x.isInfinite then if x.isNegative then "(-1.0 / 0.0)" else "(1.0 / 0.0)"
  else x.decimalText

def text : Scalar → String
  | float x => floatText x
  | int i => toString i.toInt
  | uint u => toString u.toNat ++ "u"
  | bool b => if b then "true" else "false"

end Scalar

end Shader
