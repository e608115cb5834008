import Shader.Library.Matrix
import Shader.Number.Half
import Shader.Outcome
import Shader.Value

/-! Builtin functions of whole vectors and matrices. Each result component is computed in double
precision and rounded once. -/

namespace Shader

inductive WholeFunction where
  | length | distance | dot | cross | normalize | faceforward | reflect | refract
  | matrixCompMult | outerProduct | transpose | determinant | inverse
  | any | all | not
  | dFdx | dFdy | fwidth
  | packSnorm2x16 | unpackSnorm2x16 | packUnorm2x16 | unpackUnorm2x16 | packHalf2x16
  | unpackHalf2x16
deriving DecidableEq, Repr

namespace WholeFunction

def name : WholeFunction → String
  | length => "length"
  | distance => "distance"
  | dot => "dot"
  | cross => "cross"
  | normalize => "normalize"
  | faceforward => "faceforward"
  | reflect => "reflect"
  | refract => "refract"
  | matrixCompMult => "matrixCompMult"
  | outerProduct => "outerProduct"
  | transpose => "transpose"
  | determinant => "determinant"
  | inverse => "inverse"
  | any => "any"
  | all => "all"
  | not => "not"
  | dFdx => "dFdx"
  | dFdy => "dFdy"
  | fwidth => "fwidth"
  | packSnorm2x16 => "packSnorm2x16"
  | unpackSnorm2x16 => "unpackSnorm2x16"
  | packUnorm2x16 => "packUnorm2x16"
  | unpackUnorm2x16 => "unpackUnorm2x16"
  | packHalf2x16 => "packHalf2x16"
  | unpackHalf2x16 => "unpackHalf2x16"

def functions : List WholeFunction :=
  [length, distance, dot, cross, normalize, faceforward, reflect, refract, matrixCompMult,
    outerProduct, transpose, determinant, inverse, any, all, not, dFdx, dFdy, fwidth,
    packSnorm2x16, unpackSnorm2x16, packUnorm2x16, unpackUnorm2x16, packHalf2x16, unpackHalf2x16]

def ofName? (name : String) : Option WholeFunction :=
  functions.find? fun f => f.name = name

end WholeFunction

namespace Library

def floats (v : Value) : List Binary32 :=
  v.components.map Scalar.toBinary32

def widened (v : Value) : List Float :=
  (floats v).map Binary32.widen

/-- A float computed in double precision from the given operands. -/
def rounded (operands : List Binary32) (x : Float) : Scalar :=
  .float (.viaDouble operands x)

def roundedAll (operands : List Binary32) (xs : List Float) : List Scalar :=
  xs.map (rounded operands)

/-- A scalar or a vector, as `like` is one. -/
def shaped (like : Value) (values : List Scalar) : Outcome Value :=
  match like, values with
  | .scalar _, s :: _ => .value (.scalar s)
  | .scalar _, [] => .fault (.missing 0 0)
  | _, _ => .value (.vector values)

def dot (a b : List Float) : Float :=
  Double.sum (a.zipWith (· * ·) b)

def norm (a : List Float) : Float :=
  (dot a a).sqrt

def cross (a b : List Float) : Option (List Float) :=
  match a, b with
  | [a₀, a₁, a₂], [b₀, b₁, b₂] =>
    some [a₁ * b₂ - b₁ * a₂, a₂ * b₀ - b₂ * a₀, a₀ * b₁ - b₀ * a₁]
  | _, _ => none

def reflect (i n : List Float) : List Float :=
  let d := dot n i
  i.zipWith (fun a b => a - 2.0 * d * b) n

def refract (i n : List Float) (eta : Float) : List Float :=
  let d := dot n i
  let k := 1.0 - eta * eta * (1.0 - d * d)
  if k < 0.0 then i.map fun _ => 0.0
  else
    let scale := eta * d + k.sqrt
    i.zipWith (fun a b => eta * a - scale * b) n

/-- The entries of a matrix that has all of them. -/
def entries (cols rows : Nat) (data : List Binary32) : Outcome (List Binary32) :=
  if data.length < cols * rows then .fault (.short (cols * rows) data.length)
  else .value data

def grid (cols rows : Nat) (data : List Binary32) : Outcome (Grid Binary32) := do
  return Grid.ofList .zero rows (← entries cols rows data)

def widenedGrid (cols rows : Nat) (data : List Binary32) : Outcome (Grid Float) := do
  let m ← grid cols rows data
  return fun c r => (m c r).widen

/-- Two numbers in the low and the high half of 32 bits. -/
def pack (half : Binary32 → UInt16) (v : Value) : Outcome Value :=
  match floats v with
  | [low, high] =>
    .value (.scalar (.uint ((half low).toUInt32 ||| ((half high).toUInt32 <<< 16))))
  | _ => .notConstant

def unpack (number : UInt16 → Binary32) (v : Value) : Outcome Value :=
  match v with
  | .scalar (.uint bits) =>
    .value (.vector [.float (number bits.toUInt16), .float (number (bits >>> 16).toUInt16)])
  | _ => .notConstant

/-- `x`, kept between the bounds, as a multiple of `1 / scale`, rounded half away from zero. -/
def normalized (lowest scale : Float) (x : Binary32) : UInt16 :=
  UInt16.ofNat ((Double.nearest (Double.clamp x.widen lowest 1.0 * scale)) % twoPow 16).toNat

/-- The signed reading of a 16-bit pattern. -/
def signed16 (h : UInt16) : Int :=
  if h.toNat < twoPow 15 then h.toNat else (h.toNat : Int) - twoPow 16

def ofSnorm (h : UInt16) : Binary32 :=
  .narrow (Double.clamp (Float.ofInt (signed16 h) / 32767.0) (-1.0) 1.0)

def ofUnorm (h : UInt16) : Binary32 :=
  .narrow (Float.ofNat h.toNat / 65535.0)

def whole (f : WholeFunction) (args : List Value) : Outcome Value :=
  match f, args with
  | .length, [x] => .value (.scalar (rounded (floats x) (norm (widened x))))
  | .distance, [a, b] =>
    .value (.scalar (rounded (floats a ++ floats b)
      (norm ((widened a).zipWith (· - ·) (widened b)))))
  | .dot, [a, b] =>
    .value (.scalar (rounded (floats a ++ floats b) (dot (widened a) (widened b))))
  | .cross, [a, b] => do
    let c ← .ofOption (cross (widened a) (widened b))
    shaped a (roundedAll (floats a ++ floats b) c)
  | .normalize, [x] =>
    let length := norm (widened x)
    shaped x (roundedAll (floats x) ((widened x).map (· / length)))
  | .faceforward, [n, i, reference] =>
    if dot (widened reference) (widened i) < 0.0 then
      shaped n ((floats n).map fun x => .float x.quiet)
    else shaped n ((floats n).map fun x => .float x.quiet.neg)
  | .reflect, [i, n] =>
    shaped i (roundedAll (floats i ++ floats n) (reflect (widened i) (widened n)))
  | .refract, [i, n, eta] => do
    let s ← .ofOption eta.scalar?
    shaped i (roundedAll (floats i ++ floats n ++ [s.toBinary32])
      (refract (widened i) (widened n) s.toBinary32.widen))
  | .matrixCompMult, [.matrix cols rows a, .matrix _ _ b] =>
    .value (.matrix cols rows
      (a.zipWith (fun x y => .viaDouble [x, y] (x.widen * y.widen)) b))
  | .outerProduct, [c, r] =>
    .value (.matrix r.components.length c.components.length
      ((floats r).flatMap fun y =>
        (floats c).map fun x => .viaDouble [x, y] (x.widen * y.widen)))
  | .transpose, [.matrix cols rows data] => do
    let m ← grid cols rows data
    return .matrix rows cols (m.transpose.toList rows cols)
  | .determinant, [.matrix cols rows data] =>
    if cols = rows then do
      let m ← entries cols rows data
      return .scalar (rounded data
        (Arithmetic.double.flatDeterminant cols (m.map Binary32.widen)))
    else .notConstant
  | .inverse, [.matrix cols rows data] =>
    if cols = rows then do
      let m ← entries cols rows data
      return .matrix cols rows
        ((Arithmetic.double.flatInverse cols (m.map Binary32.widen)).map (.viaDouble data))
    else .notConstant
  | .any, [.vector cs] => .value (.scalar (.bool (cs.any Scalar.toBool)))
  | .all, [.vector cs] => .value (.scalar (.bool (cs.all Scalar.toBool)))
  | .not, [.vector cs] => .value (.vector (cs.map fun s => .bool (!s.toBool)))
  | .dFdx, [x] | .dFdy, [x] | .fwidth, [x] => shaped x (x.components.map fun _ => .float .zero)
  | .packSnorm2x16, [v] => pack (normalized (-1.0) 32767.0) v
  | .packUnorm2x16, [v] => pack (normalized 0.0 65535.0) v
  | .packHalf2x16, [v] => pack Half.ofBinary32 v
  | .unpackSnorm2x16, [p] => unpack ofSnorm p
  | .unpackUnorm2x16, [p] => unpack ofUnorm p
  | .unpackHalf2x16, [p] => unpack Half.toBinary32 p
  | _, _ => .notConstant

end Library

end Shader
