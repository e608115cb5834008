import Shader.Number.Double

/-! IEEE 754 binary16 patterns of binary32 numbers, and back. -/

namespace Shader

namespace Half

def signBit (x : Binary32) : UInt16 :=
  ((x.bits >>> 16) &&& 0x8000).toUInt16

def exponentBits (x : Binary32) : UInt32 :=
  (x.bits >>> 23) &&& 0xff

def mantissaBits (x : Binary32) : UInt32 :=
  x.bits &&& 0x7fffff

/-- The bits that are kept, and one more if the rest is beyond the middle, or at it and they are
odd. -/
def roundKept (kept rest middle : UInt32) : UInt32 :=
  if rest > middle || (rest == middle && kept &&& 1 == 1) then kept + 1 else kept

/-- The binary16 pattern of `x`: rounded to nearest, a half to the even pattern, magnitudes from
65520 on become infinite, and NaN becomes a quiet NaN of the same sign. -/
def ofBinary32 (x : Binary32) : UInt16 :=
  let sign := signBit x
  let mantissa := mantissaBits x
  if exponentBits x = 0xff then
    let nan := if mantissa ≠ 0 then 0x200 else 0
    sign ||| 0x7c00 ||| nan
  else
    let exponent : Int := (exponentBits x).toNat - 127 + 15
    if 0x1f ≤ exponent then sign ||| 0x7c00
    else if exponent ≤ 0 then
      if exponent < -10 then sign
      else
        -- Without an exponent the leading 1 is written out and shifted into the mantissa.
        let m := mantissa ||| 0x800000
        let shift := UInt32.ofNat (14 - exponent).toNat
        let rest := m &&& ((1 <<< shift) - 1)
        sign ||| (roundKept (m >>> shift) rest (1 <<< (shift - 1))).toUInt16
    else
      -- A carry out of the mantissa goes to the exponent, and from the last one to infinity.
      let kept := (UInt32.ofNat exponent.toNat <<< 10) ||| (mantissa >>> 13)
      sign ||| (roundKept kept (mantissa &&& 0x1fff) 0x1000).toUInt16

/-- The number that a binary16 pattern denotes; every NaN pattern gives the same NaN. -/
def toBinary32 (h : UInt16) : Binary32 :=
  let negative := twoPow 15 ≤ h.toNat
  let exponent := h.toNat / twoPow 10 % twoPow 5
  let fraction := h.toNat % twoPow 10
  if exponent = 31 then
    if fraction = 0 then .make negative Binary32.infinityMagnitude else .nan
  else
    let significand := if exponent = 0 then fraction else fraction + twoPow 10
    .ofRatio negative (significand * twoPow (max exponent 1)) (twoPow 25)

end Half

end Shader
