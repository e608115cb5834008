import Shader.Scalar

/-! Values of number literals as they are written. -/

namespace Shader

inductive LiteralError where
  | invalidDigit (literal : String) (digit : Char)
  | noDigits (literal : String)
  | overflow (literal : String)
deriving DecidableEq, Repr

def LiteralError.message : LiteralError → String
  | invalidDigit literal digit => s!"invalid digit '{digit}' in integer literal '{literal}'"
  | noDigits literal => s!"integer literal '{literal}' has no digits"
  | overflow literal => s!"integer literal '{literal}' does not fit in 32 bits"

namespace Literal

/-- The value of a digit in a radix of at most 16. -/
def digit? (radix : Nat) (c : Char) : Option Nat :=
  let value? :=
    if '0' ≤ c && c ≤ '9' then some (c.toNat - '0'.toNat)
    else if 'a' ≤ c && c ≤ 'f' then some (c.toNat - 'a'.toNat + 10)
    else if 'A' ≤ c && c ≤ 'F' then some (c.toNat - 'A'.toNat + 10)
    else none
  value?.filter (· < radix)

/-- A 64-bit number with one more digit behind it, if there is room. -/
def push? (radix : Nat) (n : UInt64) (d : Nat) : Option UInt64 :=
  let next := radix * n.toNat + d
  if next < twoPow 64 then some (.ofNat next) else none

def ofDigits? (radix : Nat) (digits : List Char) : Option UInt64 :=
  digits.foldlM (fun n c => (digit? radix c).bind (push? radix n)) 0

/-- The text without one final `u` or `U`, and whether there was one. -/
def unsignedMark (cs : List Char) : List Char × Bool :=
  match cs.getLast? with
  | some c => if c = 'u' || c = 'U' then (cs.dropLast, true) else (cs, false)
  | none => (cs, false)

/-- The radix of a literal and its digits: `0x` is hexadecimal, another leading 0 octal. -/
def radix : List Char → Nat × List Char
  | '0' :: 'x' :: cs | '0' :: 'X' :: cs => (16, cs)
  | '0' :: c :: cs => (8, c :: cs)
  | cs => (10, cs)

/-- The value of an integer literal. It may take all 32 bits, also where it is signed. -/
def int (text : String) : Except LiteralError Scalar :=
  let (body, unsigned) := unsignedMark text.toList
  let (radix, digits) := radix body
  if digits.isEmpty then .error (.noDigits text)
  else
    match digits.find? fun c => (digit? radix c).isNone with
    | some c => .error (.invalidDigit text c)
    | none =>
      -- Without room the largest number stands in, which is too large as well.
      let value := (ofDigits? radix digits).getD (.ofNat (twoPow 64 - 1))
      if value > 0xffffffff then .error (.overflow text)
      else
        let bits := value.toUInt32
        .ok (if unsigned then .uint bits else .int bits.toInt32)

/-- The value of a float literal; any number of final `f` or `F` is ignored. -/
def float? (text : String) : Option Binary32 :=
  let body := (text.toList.reverse.dropWhile fun c => c = 'f' || c = 'F').reverse
  Decimal.read? (String.ofList body)

end Literal

end Shader
