import Shader.Number.Binary32

/-! Intermediate results in double precision: exact widening, one rounding back, and the
operations on doubles that need more than the four arithmetic ones. -/

namespace Shader

namespace Double

def magnitude (x : Float) : Nat :=
  x.toBits.toNat % twoPow 63

def isNegative (x : Float) : Bool :=
  twoPow 63 ≤ x.toBits.toNat

def significand (x : Float) : Nat :=
  if magnitude x / twoPow 52 = 0 then magnitude x else magnitude x % twoPow 52 + twoPow 52

def exponent (x : Float) : Int :=
  (max (magnitude x / twoPow 52) 1 : Nat) - 1075

def make (negative : Bool) (magnitude : Nat) : Float :=
  Float.ofBits (UInt64.ofNat (magnitude + if negative then twoPow 63 else 0))

def infinityMagnitude : Nat :=
  0x7ff0000000000000

def isFinite (x : Float) : Bool :=
  magnitude x < infinityMagnitude

/-- `± m * 2 ^ e`, where the product has at most 53 significant bits and is in range. -/
def ofScaled (negative : Bool) (m : Nat) (e : Int) : Float :=
  if m = 0 then make negative 0
  else
    let unit := max ((Nat.log2 m : Int) + e - 52) (-1074)
    let scaled := m * twoPow (e - unit).toNat / twoPow (unit - e).toNat
    make negative ((unit + 1074).toNat * twoPow 52 + scaled)

/-- The remainder of `x / y` toward zero, with the sign of `x`. It is exact. -/
def rem (x y : Float) : Float :=
  if isFinite x && magnitude y = infinityMagnitude then x
  else if !isFinite x || !isFinite y || magnitude y = 0 then 0.0 / 0.0
  else
    let e := min (exponent x) (exponent y)
    let a := significand x * twoPow (exponent x - e).toNat
    let b := significand y * twoPow (exponent y - e).toNat
    ofScaled (isNegative x) (a % b) e

/-- The nearest whole number, a half away from zero; 0 for NaN. -/
def nearest (x : Float) : Int :=
  if !isFinite x then 0
  else
    let n := significand x * twoPow (exponent x).toNat
    let d := twoPow (-exponent x).toNat
    let q := (2 * n + d) / (2 * d)
    if isNegative x then -(q : Int) else q

/-- The greater operand. A NaN gives way to the other operand, and of two zeros the second one is
the result. -/
def maxNumber (x y : Float) : Float :=
  if y.isNaN || y < x then x else y

/-- The smaller operand. A NaN gives way to the other operand, and of two zeros the second one is
the result. -/
def minNumber (x y : Float) : Float :=
  if y.isNaN || x < y then x else y

/-- `x` brought into the range from `lo` to `hi`; a NaN stays. -/
def clamp (x lo hi : Float) : Float :=
  if x < lo then lo else if hi < x then hi else x

/-- A sum in order, which starts from -0.0 so that a sum of negative zeros keeps its sign. -/
def sum (xs : List Float) : Float :=
  xs.foldl (· + ·) (-0.0)

def pi : Float :=
  Float.ofBits 0x400921fb54442d18

end Double

namespace Binary32

def widen (x : Binary32) : Float :=
  if x.isNaN then 0.0 / 0.0
  else if x.isInfinite then Double.make x.isNegative Double.infinityMagnitude
  else Double.ofScaled x.isNegative x.significand x.exponent

def narrow (x : Float) : Binary32 :=
  if x.isNaN then invalid
  else if !Double.isFinite x then make (Double.isNegative x) infinityMagnitude
  else
    ofRatio (Double.isNegative x) (Double.significand x * twoPow (Double.exponent x).toNat)
      (twoPow (-Double.exponent x).toNat)

/-- Computes in double precision and rounds once. A result that is NaN is the first operand that
is NaN, made quiet, if there is one. -/
def viaDouble (operands : List Binary32) (result : Float) : Binary32 :=
  if result.isNaN then
    match operands.find? isNaN with
    | some x => x.quiet
    | none => invalid
  else narrow result

end Binary32

end Shader
