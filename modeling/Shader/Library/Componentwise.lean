import Shader.Number.Double
import Shader.Outcome
import Shader.Value

/-! Builtin functions that work component by component. They are written over scalars; a vector or
a matrix among the arguments gives the shape, and scalars pair with all its components. -/

namespace Shader

inductive ScalarFunction where
  | radians | degrees | sin | cos | tan | asin | acos | atan | sinh | cosh | tanh | asinh | acosh
  | atanh | exp | log | exp2 | log2 | sqrt | inversesqrt | abs | sign | floor | trunc | round
  | roundEven | ceil | fract
  | pow | mod | min | max | step
  | clamp | mix | smoothstep
  | isnan | isinf | floatBitsToInt | floatBitsToUint | intBitsToFloat | uintBitsToFloat
  | lessThan | lessThanEqual | greaterThan | greaterThanEqual | equal | notEqual
deriving DecidableEq, Repr

namespace ScalarFunction

def name : ScalarFunction → String
  | radians => "radians"
  | degrees => "degrees"
  | sin => "sin"
  | cos => "cos"
  | tan => "tan"
  | asin => "asin"
  | acos => "acos"
  | atan => "atan"
  | sinh => "sinh"
  | cosh => "cosh"
  | tanh => "tanh"
  | asinh => "asinh"
  | acosh => "acosh"
  | atanh => "atanh"
  | exp => "exp"
  | log => "log"
  | exp2 => "exp2"
  | log2 => "log2"
  | sqrt => "sqrt"
  | inversesqrt => "inversesqrt"
  | abs => "abs"
  | sign => "sign"
  | floor => "floor"
  | trunc => "trunc"
  | round => "round"
  | roundEven => "roundEven"
  | ceil => "ceil"
  | fract => "fract"
  | pow => "pow"
  | mod => "mod"
  | min => "min"
  | max => "max"
  | step => "step"
  | clamp => "clamp"
  | mix => "mix"
  | smoothstep => "smoothstep"
  | isnan => "isnan"
  | isinf => "isinf"
  | floatBitsToInt => "floatBitsToInt"
  | floatBitsToUint => "floatBitsToUint"
  | intBitsToFloat => "intBitsToFloat"
  | uintBitsToFloat => "uintBitsToFloat"
  | lessThan => "lessThan"
  | lessThanEqual => "lessThanEqual"
  | greaterThan => "greaterThan"
  | greaterThanEqual => "greaterThanEqual"
  | equal => "equal"
  | notEqual => "notEqual"

def functions : List ScalarFunction :=
  [radians, degrees, sin, cos, tan, asin, acos, atan, sinh, cosh, tanh, asinh, acosh, atanh, exp,
    log, exp2, log2, sqrt, inversesqrt, abs, sign, floor, trunc, round, roundEven, ceil, fract, pow,
    mod, min, max, step, clamp, mix, smoothstep, isnan, isinf, floatBitsToInt, floatBitsToUint,
    intBitsToFloat, uintBitsToFloat, lessThan, lessThanEqual, greaterThan, greaterThanEqual, equal,
    notEqual]

def ofName? (name : String) : Option ScalarFunction :=
  functions.find? fun f => f.name = name

end ScalarFunction

namespace Library

/-- Computes in double precision and rounds once. -/
def via (f : Float → Float) (x : Binary32) : Binary32 :=
  .viaDouble [x] (f x.widen)

def unaryFloat? : ScalarFunction → Option (Binary32 → Binary32)
  | .radians => some (via fun x => x * Double.pi / 180.0)
  | .degrees => some (via fun x => x * 180.0 / Double.pi)
  | .sin => some (via Float.sin)
  | .cos => some (via Float.cos)
  | .tan => some (via Float.tan)
  | .asin => some (via Float.asin)
  | .acos => some (via Float.acos)
  | .atan => some (via Float.atan)
  | .sinh => some (via Float.sinh)
  | .cosh => some (via Float.cosh)
  | .tanh => some (via Float.tanh)
  | .asinh => some (via Float.asinh)
  | .acosh => some (via Float.acosh)
  | .atanh => some (via Float.atanh)
  | .exp => some (via Float.exp)
  | .log => some (via Float.log)
  | .exp2 => some (via Float.exp2)
  | .log2 => some (via Float.log2)
  | .sqrt => some (via Float.sqrt)
  | .inversesqrt => some (via fun x => 1.0 / x.sqrt)
  | .abs => some fun x => x.quiet.abs
  | .sign => some fun x =>
    if Binary32.zero.lessThan x then .one
    else if x.lessThan .zero then Binary32.one.neg
    else .zero
  | .floor => some Binary32.floor
  | .trunc => some Binary32.trunc
  | .round => some Binary32.round
  | .roundEven => some Binary32.roundEven
  | .ceil => some Binary32.ceil
  | .fract => some fun x => .viaDouble [x] (x.widen - x.floor.widen)
  | _ => none

def binaryFloat? : ScalarFunction → Option (Binary32 → Binary32 → Binary32)
  | .atan => some fun y x => .viaDouble [y, x] (Float.atan2 y.widen x.widen)
  | .pow => some fun x y => .viaDouble [x, y] (Float.pow x.widen y.widen)
  | .mod => some fun x y =>
    .viaDouble [x, y] (Double.rem (Double.rem x.widen y.widen + y.widen) y.widen)
  | .min => some fun x y => if y.lessThan x then y.quiet else x.quiet
  | .max => some fun x y => if x.lessThan y then y.quiet else x.quiet
  | .step => some fun edge x => if x.lessThan edge then .zero else .one
  | _ => none

def smoothstep (low high x : Float) : Float :=
  let t := Double.clamp ((x - low) / (high - low)) 0.0 1.0
  t * t * (3.0 - 2.0 * t)

def ternaryFloat? : ScalarFunction → Option (Binary32 → Binary32 → Binary32 → Binary32)
  | .clamp => some fun x low high =>
    .viaDouble [x, low, high] (Double.minNumber (Double.maxNumber x.widen low.widen) high.widen)
  | .mix => some fun x y a =>
    .viaDouble [x, y, a] (x.widen * (1.0 - a.widen) + y.widen * a.widen)
  | .smoothstep => some fun low high x =>
    .viaDouble [low, high, x] (smoothstep low.widen high.widen x.widen)
  | _ => none

def minInt (x y : Int32) : Int32 := if y < x then y else x

def maxInt (x y : Int32) : Int32 := if x < y then y else x

def minUint (x y : UInt32) : UInt32 := if y < x then y else x

def maxUint (x y : UInt32) : UInt32 := if x < y then y else x

def signInt (x : Int32) : Int32 :=
  if 0 < x then 1 else if x < 0 then -1 else 0

def mixedScalar (f : ScalarFunction) (args : List Scalar) : Option Scalar :=
  match f, args with
  | .abs, [.int x] => some (.int (if x < 0 then -x else x))
  | .sign, [.int x] => some (.int (signInt x))
  | .min, [.int x, .int y] => some (.int (minInt x y))
  | .min, [.uint x, .uint y] => some (.uint (minUint x y))
  | .max, [.int x, .int y] => some (.int (maxInt x y))
  | .max, [.uint x, .uint y] => some (.uint (maxUint x y))
  | .clamp, [.int x, .int low, .int high] => some (.int (minInt (maxInt x low) high))
  | .clamp, [.uint x, .uint low, .uint high] => some (.uint (minUint (maxUint x low) high))
  | .mix, [x, y, .bool a] => some (if a then y else x)
  | .isnan, [.float x] => some (.bool x.isNaN)
  | .isinf, [.float x] => some (.bool x.isInfinite)
  | .floatBitsToInt, [.float x] => some (.int x.bits.toInt32)
  | .floatBitsToUint, [.float x] => some (.uint x.bits)
  | .intBitsToFloat, [.int x] => some (.float ⟨x.toUInt32⟩)
  | .uintBitsToFloat, [.uint x] => some (.float ⟨x⟩)
  | .lessThan, [a, b] => (a.compare? b).map fun o => .bool o.isLT
  | .lessThanEqual, [a, b] => (a.compare? b).map fun o => .bool o.isLE
  | .greaterThan, [a, b] => (a.compare? b).map fun o => .bool o.isGT
  | .greaterThanEqual, [a, b] => (a.compare? b).map fun o => .bool o.isGE
  | .equal, [a, b] => if a.kind = b.kind then some (.bool (a.sameValue b)) else none
  | .notEqual, [a, b] => if a.kind = b.kind then some (.bool (!a.sameValue b)) else none
  | _, _ => none

def floatScalar (f : ScalarFunction) (args : List Scalar) : Option Scalar :=
  match args with
  | [.float x] => (unaryFloat? f).map fun g => .float (g x)
  | [.float x, .float y] => (binaryFloat? f).map fun g => .float (g x y)
  | [.float x, .float y, .float z] => (ternaryFloat? f).map fun g => .float (g x y z)
  | _ => none

def scalarFunction (f : ScalarFunction) (args : List Scalar) : Option Scalar :=
  mixedScalar f args <|> floatScalar f args

def isScalarValue : Value → Bool
  | .scalar _ => true
  | _ => false

/-- Component `i` of an argument; a single component stands for all. -/
def broadcast? (components : List Scalar) (i : Nat) : Option Scalar :=
  match components with
  | [s] => some s
  | _ => components[i]?

def perComponent (f : ScalarFunction) (args : List Value) (width : Nat) : Option (List Scalar) :=
  (List.range width).mapM fun i => do
    let scalars ← args.mapM fun a => broadcast? a.components i
    scalarFunction f scalars

def componentwise (f : ScalarFunction) (args : List Value) : Option Value :=
  match args.find? fun a => !isScalarValue a with
  | none => do
    let scalars ← args.mapM Value.scalar?
    return .scalar (← scalarFunction f scalars)
  | some shape => do
    let results ← perComponent f args shape.components.length
    match shape with
    | .matrix cols rows _ => return .matrix cols rows (results.map Scalar.toBinary32)
    | _ => return .vector results

end Library

end Shader
