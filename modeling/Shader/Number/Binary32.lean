import Shader.Number.Power

/-! IEEE 754 binary32 numbers as bit patterns. A finite number is its sign times
`significand * 2 ^ exponent`; rounding is stated on exact quotients. -/

namespace Shader

structure Binary32 where
  bits : UInt32
deriving DecidableEq, Repr

namespace Binary32

def magnitude (x : Binary32) : Nat :=
  x.bits.toNat % twoPow 31

def isNegative (x : Binary32) : Bool :=
  twoPow 31 ≤ x.bits.toNat

def infinityMagnitude : Nat :=
  0x7f800000

def isNaN (x : Binary32) : Bool :=
  infinityMagnitude < x.magnitude

def isInfinite (x : Binary32) : Bool :=
  x.magnitude == infinityMagnitude

def isFinite (x : Binary32) : Bool :=
  x.magnitude < infinityMagnitude

def isZero (x : Binary32) : Bool :=
  x.magnitude == 0

def significand (x : Binary32) : Nat :=
  if x.magnitude / twoPow 23 = 0 then x.magnitude else x.magnitude % twoPow 23 + twoPow 23

def exponent (x : Binary32) : Int :=
  (max (x.magnitude / twoPow 23) 1 : Nat) - 150

def make (negative : Bool) (magnitude : Nat) : Binary32 :=
  ⟨UInt32.ofNat (magnitude + if negative then twoPow 31 else 0)⟩

def zero : Binary32 := ⟨0⟩

def one : Binary32 := ⟨0x3f800000⟩

def nan : Binary32 := ⟨0x7fc00000⟩

/-- The NaN of an invalid operation. -/
def invalid : Binary32 := ⟨0xffc00000⟩

/-- A NaN that signals becomes quiet; its sign and payload stay. -/
def quiet (x : Binary32) : Binary32 :=
  if x.isNaN then ⟨x.bits ||| 0x00400000⟩ else x

/-- `n / d` to the nearest natural number, a half to the even one. -/
def roundQuotient (n d : Nat) : Nat :=
  let q := n / d
  let r := n % d
  if 2 * r < d then q
  else if 2 * r = d then q + q % 2
  else q + 1

/-- The greatest `e` with `2 ^ e ≤ n / d`, for positive `n` and `d`. -/
def floorLog2 (n d : Nat) : Int :=
  let e : Int := (Nat.log2 n : Int) - Nat.log2 d
  if d * twoPow e.toNat ≤ n * twoPow (-e).toNat then e else e - 1

/-- The magnitude pattern nearest to `n / d`, a half to the even one, overflow to infinity. -/
def roundMagnitude (n d : Nat) : Nat :=
  if n = 0 then 0
  else
    let unit := max (floorLog2 n d - 23) (-149)
    let q := roundQuotient (n * twoPow (-unit).toNat) (d * twoPow unit.toNat)
    min ((unit + 149).toNat * twoPow 23 + q) infinityMagnitude

/-- The number nearest to `± n / d`. -/
def ofRatio (negative : Bool) (n d : Nat) : Binary32 :=
  make negative (roundMagnitude n d)

def ofInt (i : Int) : Binary32 :=
  ofRatio (i < 0) i.natAbs 1

def ofBool (b : Bool) : Binary32 :=
  if b then one else zero

/-- Numbers that are not NaN are ordered like their ordinals; both zeros have ordinal 0. -/
def ordinal (x : Binary32) : Int :=
  if x.isNegative then -(x.magnitude : Int) else x.magnitude

def compare? (x y : Binary32) : Option Ordering :=
  if x.isNaN || y.isNaN then none else some (compare x.ordinal y.ordinal)

/-- Numeric equality: a NaN differs from itself and the zeros agree. -/
def sameValue (x y : Binary32) : Bool :=
  x.compare? y == some .eq

def lessThan (x y : Binary32) : Bool :=
  x.compare? y == some .lt

def toFloat32 (x : Binary32) : Float32 :=
  Float32.ofBits x.bits

def ofFloat32 (f : Float32) : Binary32 :=
  if f.isNaN then invalid else ⟨f.toBits⟩

/-- The first operand that is NaN is the result, made quiet. -/
def lift₂ (f : Float32 → Float32 → Float32) (x y : Binary32) : Binary32 :=
  if x.isNaN then x.quiet
  else if y.isNaN then y.quiet
  else ofFloat32 (f x.toFloat32 y.toFloat32)

def add (x y : Binary32) : Binary32 := lift₂ (· + ·) x y

def sub (x y : Binary32) : Binary32 := lift₂ (· - ·) x y

def mul (x y : Binary32) : Binary32 := lift₂ (· * ·) x y

def div (x y : Binary32) : Binary32 := lift₂ (· / ·) x y

def neg (x : Binary32) : Binary32 :=
  ⟨x.bits ^^^ 0x80000000⟩

def abs (x : Binary32) : Binary32 :=
  ⟨x.bits &&& 0x7fffffff⟩

/-- The whole number that `pick negative quotient remainder divisor` takes for `± (q + r / d)`,
with the sign of `x`. Numbers without a fraction stay as they are. -/
def integral (pick : Bool → (q r d : Nat) → Nat) (x : Binary32) : Binary32 :=
  if x.isFinite && x.exponent < 0 then
    let d := twoPow (-x.exponent).toNat
    ofRatio x.isNegative (pick x.isNegative (x.significand / d) (x.significand % d) d) 1
  else x.quiet

def trunc : Binary32 → Binary32 :=
  integral fun _ q _ _ => q

def floor : Binary32 → Binary32 :=
  integral fun negative q r _ => if negative && r ≠ 0 then q + 1 else q

def ceil : Binary32 → Binary32 :=
  integral fun negative q r _ => if !negative && r ≠ 0 then q + 1 else q

/-- To the nearest whole number, a half away from zero. -/
def round : Binary32 → Binary32 :=
  integral fun _ q r d => if d ≤ 2 * r then q + 1 else q

/-- To the nearest whole number, a half to the even one. -/
def roundEven : Binary32 → Binary32 :=
  integral fun _ q r d => roundQuotient (q * d + r) d

/-- The whole part of a finite number, toward zero. -/
def toInt (x : Binary32) : Int :=
  let whole := x.significand * twoPow x.exponent.toNat / twoPow (-x.exponent).toNat
  if x.isNegative then -(whole : Int) else whole

/-- The whole part as a 64-bit integer: beyond its range the nearest end of it, 0 for NaN. -/
def toInt64 (x : Binary32) : Int :=
  let highest : Int := (twoPow 63 : Int) - 1
  let lowest : Int := -(twoPow 63 : Int)
  if x.isNaN then 0
  else if x.isInfinite then if x.isNegative then lowest else highest
  else max lowest (min highest x.toInt)

end Binary32

end Shader
