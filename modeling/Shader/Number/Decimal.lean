import Shader.Number.Binary32

/-! Decimal texts of binary32 numbers: reading rounds to the nearest number, and writing takes the
fewest digits that read back. -/

namespace Shader

namespace Decimal

def isDigit (c : Char) : Bool :=
  '0' ≤ c && c ≤ '9'

def digitValue (c : Char) : Nat :=
  c.toNat - '0'.toNat

def natOfDigits (cs : List Char) : Nat :=
  cs.foldl (fun n c => 10 * n + digitValue c) 0

/-- The number nearest to `± digits * 10 ^ power`, where `digits` has at most `size` places. Far
outside the range of binary32 the power itself is not computed. -/
def toBinary32 (negative : Bool) (digits size : Nat) (power : Int) : Binary32 :=
  if digits = 0 then .make negative 0
  else if 60 < (Nat.log2 digits / 4 : Nat) + power then .make negative Binary32.infinityMagnitude
  else if (size : Int) + power < -60 then .make negative 0
  else .ofRatio negative (digits * tenPow power.toNat) (tenPow (-power).toNat)

def readSign : List Char → Bool × List Char
  | '-' :: cs => (true, cs)
  | '+' :: cs => (false, cs)
  | cs => (false, cs)

/-- The power of ten after the digits: none written is 0, a malformed one fails. -/
def readPower : List Char → Option Int
  | [] => some 0
  | e :: cs =>
    if e = 'e' || e = 'E' then
      let (negative, digits) := readSign cs
      if digits.isEmpty || !digits.all isDigit then none
      else
        let n := natOfDigits digits
        some (if negative then -(n : Int) else n)
    else none

def readNumber (negative : Bool) (cs : List Char) : Option Binary32 :=
  let whole := cs.takeWhile isDigit
  let afterWhole := cs.drop whole.length
  let (fraction, afterFraction) :=
    match afterWhole with
    | '.' :: rest => (rest.takeWhile isDigit, rest.dropWhile isDigit)
    | _ => ([], afterWhole)
  let digits := whole ++ fraction
  if digits.isEmpty then none
  else (readPower afterFraction).map fun power =>
    toBinary32 negative (natOfDigits digits) digits.length (power - fraction.length)

/-- Reads a signed decimal number or one of the words for infinity and NaN in any case. -/
def read? (text : String) : Option Binary32 :=
  let (negative, cs) := readSign text.toList
  match String.ofList (cs.map Char.toLower) with
  | "nan" => some (.make negative 0x7fc00000)
  | "inf" | "infinity" => some (.make negative Binary32.infinityMagnitude)
  | _ => readNumber negative cs

/-- `digits * 10 ^ power`, where `digits` has `size` places. -/
structure Digits where
  digits : Nat
  size : Nat
  power : Int
deriving DecidableEq, Repr

def Digits.toBinary32 (d : Digits) (negative : Bool) : Binary32 :=
  Decimal.toBinary32 negative d.digits d.size d.power

/-- The least `k` with `n / d < 10 ^ k`, from `k` on, among the next `steps`. -/
def decimalPoint (n d : Nat) (k : Int) : (steps : Nat) → Int
  | 0 => k
  | steps + 1 =>
    if n * tenPow (-k).toNat < d * tenPow k.toNat then k else decimalPoint n d (k + 1) steps

/-- The two neighbours of `n / d` on the grid of step `10 ^ power`, the nearer one first; of two
equally near ones the greater first. -/
def neighbours (n d : Nat) (power : Int) : List Nat :=
  let num := n * tenPow (-power).toNat
  let den := d * tenPow power.toNat
  let below := num / den
  if 2 * (num % den) < den then [below, below + 1] else [below + 1, below]

/-- The first of the decimals with `size`, `size + 1`, … places that reads back as `x`. -/
def search (x : Binary32) (n d : Nat) (point : Int) (size : Nat) : (steps : Nat) → Option Digits
  | 0 => none
  | steps + 1 =>
    let power := point - size
    let candidates := (neighbours n d power).map fun digits => (⟨digits, size + 1, power⟩ : Digits)
    match candidates.find? fun c => c.toBinary32 x.isNegative = x with
    | some c => some c
    | none => search x n d point (size + 1) steps

/-- The finite number as an exact ratio without its sign. -/
def ratio (x : Binary32) : Nat × Nat :=
  (x.significand * twoPow x.exponent.toNat, twoPow (-x.exponent).toNat)

def exact (x : Binary32) : Digits :=
  let places := (-x.exponent).toNat
  let digits := x.significand * twoPow x.exponent.toNat * Nat.pow 5 places
  ⟨digits, (toString digits).length, -places⟩

/-- The fewest digits that read back as the finite positive or negative number `x`. -/
def shortest (x : Binary32) : Digits :=
  let (n, d) := ratio x
  (search x n d (decimalPoint n d (-46) 90) 1 9).getD (exact x)

/-- The decimal exponents that are written with a point and zeros instead of a power of ten. -/
structure Layout where
  lowest : Int
  highest : Int

/-- Digits without trailing zeros, and the power of ten that goes with them. -/
def significant (digits : List Char) (power : Int) : List Char × Int :=
  let kept := (digits.reverse.dropWhile (· = '0')).reverse
  (kept, power + (digits.length - kept.length : Nat))

/-- The text of `digits * 10 ^ power`: with a point if the exponent of the leading digit is in the
layout's range, and with a power of ten otherwise. -/
def Layout.write (layout : Layout) (digits : List Char) (power : Int) : String :=
  let (ds, power) := significant digits power
  let leading := power + ds.length - 1
  if layout.lowest ≤ leading ∧ leading ≤ layout.highest then
    if 0 ≤ power then String.ofList (ds ++ List.replicate power.toNat '0') ++ ".0"
    else if 0 ≤ leading then
      let whole := leading.toNat + 1
      String.ofList (ds.take whole ++ '.' :: ds.drop whole)
    else String.ofList ('0' :: '.' :: List.replicate (-leading - 1).toNat '0' ++ ds)
  else
    let mantissa :=
      match ds with
      | d :: rest => if rest.isEmpty then [d] else d :: '.' :: rest
      | [] => []
    String.ofList mantissa ++ "e" ++ toString leading

end Decimal

namespace Binary32

/-- Numbers are written out from 0.0001 up to, but without, 10000000000000000. -/
def layout : Decimal.Layout := ⟨-4, 15⟩

def decimalText (x : Binary32) : String :=
  let sign := if x.isNegative then "-" else ""
  if x.isZero then sign ++ "0.0"
  else
    let d := Decimal.shortest x
    sign ++ layout.write (toString d.digits).toList d.power

end Binary32

end Shader
