import Mathlib.Data.Nat.Bitwise
import Shader.Number.Half
import Shader.Proofs.Number.Rounding

/-! The branches of the conversion to binary16 against one formula. The formula counts the patterns
without their signs from zero up, rounds a finite number to one of these places and ends at infinity.
The branches take the exponent and the mantissa out of the bits, and round by a mask, a middle and a
carry. -/

namespace Shader

namespace Half

def infinityMagnitude : ℕ :=
  0x7c00

/-- The place of the sequence that a finite number is rounded to. -/
def place (x : Binary32) : ℕ :=
  let unit := max (x.exponent + 13) (-24)
  (unit + 24).toNat * 1024 +
    Binary32.roundQuotient x.significand (twoPow (unit - x.exponent).toNat)

/-- The pattern in one formula: the sign, and the place of the number up to infinity. -/
def rounded (x : Binary32) : UInt16 :=
  let sign := if x.isNegative then twoPow 15 else 0
  let magnitude :=
    if x.isNaN then 0x7e00
    else if x.isInfinite then infinityMagnitude
    else min (place x) infinityMagnitude
  UInt16.ofNat (sign + magnitude)

section Fields

variable (x : Binary32)

theorem toNat_signBit : (signBit x).toNat = if x.isNegative then twoPow 15 else 0 := by
  have h15 : twoPow 15 = 2 ^ 15 := rfl
  have h31 : twoPow 31 = 2 ^ 31 := rfl
  have hlt := x.bits.toNat_lt
  have hword : ((x.bits >>> 16) &&& 0x8000).toNat = x.bits.toNat >>> 16 &&& 2 ^ 15 := rfl
  rw [signBit, UInt32.toNat_toUInt16, hword, Nat.and_two_pow, Nat.testBit_shiftRight,
    Nat.testBit_eq_decide_div_mod_eq, Binary32.isNegative, h15, h31]
  by_cases h : 2 ^ 31 ≤ x.bits.toNat
  · have hbit : x.bits.toNat / 2 ^ (16 + 15) % 2 = 1 := by omega
    rw [hbit, if_pos (decide_eq_true h)]
    rfl
  · have hbit : x.bits.toNat / 2 ^ (16 + 15) % 2 = 0 := by omega
    rw [hbit, if_neg (by simpa using h)]
    rfl

theorem toNat_exponentBits : (exponentBits x).toNat = x.magnitude / twoPow 23 := by
  have h23 : twoPow 23 = 2 ^ 23 := rfl
  have h31 : twoPow 31 = 2 ^ 31 := rfl
  have hword : (exponentBits x).toNat = x.bits.toNat >>> 23 &&& 2 ^ 8 - 1 := rfl
  rw [hword, Nat.and_two_pow_sub_one_eq_mod, Nat.shiftRight_eq_div_pow, Binary32.magnitude, h23,
    h31]
  omega

theorem toNat_mantissaBits : (mantissaBits x).toNat = x.magnitude % twoPow 23 := by
  have h23 : twoPow 23 = 2 ^ 23 := rfl
  have h31 : twoPow 31 = 2 ^ 31 := rfl
  have hword : (mantissaBits x).toNat = x.bits.toNat &&& 2 ^ 23 - 1 := rfl
  rw [hword, Nat.and_two_pow_sub_one_eq_mod, Binary32.magnitude, h23, h31]
  omega

theorem mantissaBits_lt : (mantissaBits x).toNat < 2 ^ 23 := by
  rw [toNat_mantissaBits]
  exact Nat.mod_lt _ (twoPow_pos 23)

theorem magnitude_eq_bits :
    x.magnitude = (exponentBits x).toNat * 2 ^ 23 + (mantissaBits x).toNat := by
  rw [toNat_exponentBits, toNat_mantissaBits]
  exact (Nat.div_add_mod' x.magnitude (twoPow 23)).symm

theorem exponent_eq_bits : x.exponent = (max (exponentBits x).toNat 1 : ℕ) - 150 := by
  rw [toNat_exponentBits]
  rfl

variable {x} in
theorem significand_eq_bits (h : 0 < (exponentBits x).toNat) :
    x.significand = (mantissaBits x).toNat + 2 ^ 23 := by
  rw [toNat_exponentBits] at h
  rw [toNat_mantissaBits, Binary32.significand, if_neg (by omega)]
  rfl

end Fields

section Words

theorem toNat_one_shiftLeft {shift : UInt32} (h : shift.toNat < 32) :
    ((1 : UInt32) <<< shift).toNat = twoPow shift.toNat := by
  have hlt : 2 ^ shift.toNat < 2 ^ 32 := Nat.pow_lt_pow_right (by decide) h
  rw [UInt32.toNat_shiftLeft, Nat.mod_eq_of_lt h, Nat.shiftLeft_eq, UInt32.toNat_one, Nat.one_mul,
    Nat.mod_eq_of_lt hlt]
  rfl

theorem toNat_shift_mask (m shift : UInt32) (h : shift.toNat < 32) :
    (m >>> shift).toNat = m.toNat / twoPow shift.toNat ∧
      (m &&& ((1 <<< shift) - 1)).toNat = m.toNat % twoPow shift.toNat := by
  constructor
  · rw [UInt32.toNat_shiftRight, Nat.mod_eq_of_lt h, Nat.shiftRight_eq_div_pow]
    rfl
  · have hone : (1 : UInt32) ≤ 1 <<< shift := by
      rw [UInt32.le_iff_toNat_le, toNat_one_shiftLeft h]
      exact twoPow_pos _
    rw [UInt32.toNat_and, UInt32.toNat_sub_of_le _ _ hone, toNat_one_shiftLeft h]
    exact Nat.and_two_pow_sub_one_eq_mod m.toNat shift.toNat

/-- Kept bits behind an even number are rounded like the quotient that they are. -/
theorem toNat_roundKept {kept rest middle : UInt32} {n d : ℕ} (base : ℕ) (hbase : base % 2 = 0)
    (hkept : kept.toNat = base + n / d) (hrest : rest.toNat = n % d)
    (hmiddle : d = 2 * middle.toNat) (hlt : kept.toNat + 1 < 2 ^ 32) :
    (roundKept kept rest middle).toNat = base + Binary32.roundQuotient n d := by
  have hodd : (kept &&& 1 == 1) = decide (n / d % 2 = 1) := by
    have hword : (kept &&& 1).toNat = kept.toNat % 2 := by
      rw [UInt32.toNat_and]
      exact Nat.and_two_pow_sub_one_eq_mod kept.toNat 1
    rw [Bool.eq_iff_iff, beq_iff_eq, decide_eq_true_eq, ← UInt32.toNat_inj, hword, hkept]
    show (base + n / d) % 2 = 1 ↔ _
    omega
  have hmore : rest > middle ↔ d < 2 * (n % d) := by
    rw [gt_iff_lt, UInt32.lt_iff_toNat_lt, hrest]
    omega
  have hsame : rest = middle ↔ 2 * (n % d) = d := by
    rw [← UInt32.toNat_inj, hrest]
    omega
  have hnext : (kept + 1).toNat = base + n / d + 1 := by
    rw [UInt32.toNat_add, hkept]
    exact Nat.mod_eq_of_lt (hkept ▸ hlt)
  unfold roundKept Binary32.roundQuotient
  simp only [hodd, hmore, Bool.or_eq_true, Bool.and_eq_true, decide_eq_true_eq, beq_iff_eq, hsame]
  by_cases hbelow : 2 * (n % d) < d
  · rw [if_neg (by omega), if_pos hbelow, hkept]
  rw [if_neg hbelow]
  by_cases hmid : 2 * (n % d) = d
  · rw [if_pos hmid]
    split <;> omega
  · rw [if_pos (by omega), if_neg hmid, hnext]
    rfl

end Words

section Place

variable {x : Binary32}

theorem place_eq_zero (h : (exponentBits x).toNat < 102) : place x = 0 := by
  have hlt := x.significand_lt
  have hexponent := exponent_eq_bits x
  have hunit : max (x.exponent + 13) (-24) = -24 := by omega
  have hpower : twoPow 25 ≤ twoPow (-24 - x.exponent).toNat := twoPow_le (by omega)
  have h25 : twoPow 25 = 2 * twoPow 24 := rfl
  have hquotient : x.significand / twoPow (-24 - x.exponent).toNat = 0 :=
    Nat.div_eq_of_lt (by omega)
  have hrest : x.significand % twoPow (-24 - x.exponent).toNat = x.significand :=
    Nat.mod_eq_of_lt (by omega)
  unfold place Binary32.roundQuotient
  simp only [hunit, hquotient, hrest]
  rw [if_pos (by omega)]
  rfl

theorem place_of_subnormal (hlow : 0 < (exponentBits x).toNat)
    (hhigh : (exponentBits x).toNat ≤ 112) :
    place x = Binary32.roundQuotient ((mantissaBits x).toNat + 2 ^ 23)
      (twoPow (126 - (exponentBits x).toNat)) := by
  have hexponent := exponent_eq_bits x
  have hunit : max (x.exponent + 13) (-24) = -24 := by omega
  have hshift : (-24 - x.exponent).toNat = 126 - (exponentBits x).toNat := by omega
  simp only [place, hunit, hshift, significand_eq_bits hlow]
  exact Nat.zero_add _

theorem place_of_normal (h : 113 ≤ (exponentBits x).toNat) :
    place x = ((exponentBits x).toNat - 113) * 1024 +
      Binary32.roundQuotient ((mantissaBits x).toNat + 2 ^ 23) (twoPow 13) := by
  have hexponent := exponent_eq_bits x
  have hunit : max (x.exponent + 13) (-24) = x.exponent + 13 := by omega
  have hplace : (x.exponent + 13 + 24).toNat = (exponentBits x).toNat - 113 := by omega
  have hshift : (x.exponent + 13 - x.exponent).toNat = 13 := by omega
  simp only [place, hunit, hplace, hshift, significand_eq_bits (Nat.lt_of_lt_of_le (by decide) h)]

theorem infinityMagnitude_le_place (h : 143 ≤ (exponentBits x).toNat) :
    infinityMagnitude ≤ place x := by
  have h13 : twoPow 13 = 8192 := rfl
  have hinfinity : infinityMagnitude = 31744 := rfl
  have hquotient := Binary32.le_roundQuotient ((mantissaBits x).toNat + 2 ^ 23) (twoPow 13)
  rw [place_of_normal (by omega), hinfinity]
  rw [h13] at hquotient ⊢
  omega

theorem place_le_infinityMagnitude (h : (exponentBits x).toNat ≤ 142) :
    place x ≤ infinityMagnitude := by
  have h13 : twoPow 13 = 8192 := rfl
  have hinfinity : infinityMagnitude = 31744 := rfl
  have hlt := mantissaBits_lt x
  by_cases hzero : (exponentBits x).toNat = 0
  · rw [place_eq_zero (by omega)]
    exact Nat.zero_le _
  by_cases hnormal : 113 ≤ (exponentBits x).toNat
  · have hquotient := Binary32.roundQuotient_le ((mantissaBits x).toNat + 2 ^ 23) (twoPow 13)
    rw [place_of_normal hnormal, hinfinity]
    rw [h13] at hquotient ⊢
    omega
  · have hquotient := Binary32.roundQuotient_le ((mantissaBits x).toNat + 2 ^ 23)
      (twoPow (126 - (exponentBits x).toNat))
    have hless : ((mantissaBits x).toNat + 2 ^ 23) / twoPow (126 - (exponentBits x).toNat) ≤
        ((mantissaBits x).toNat + 2 ^ 23) / 8192 :=
      Nat.div_le_div_left (twoPow_le (a := 13) (by omega)) (by decide)
    rw [place_of_subnormal (by omega) (by omega)]
    omega

end Place

section Branches

variable {x : Binary32}

theorem signBit_or {m : ℕ} {h : UInt16} (hh : h.toNat = m) (hm : m < twoPow 15) :
    signBit x ||| h = UInt16.ofNat ((if x.isNegative then twoPow 15 else 0) + m) := by
  have h15 : twoPow 15 = 2 ^ 15 := rfl
  refine UInt16.toNat_inj.mp ?_
  rw [UInt16.toNat_or, toNat_signBit, hh]
  rw [h15] at hm ⊢
  rw [UInt16.toNat_ofNat_of_lt' (by show _ < 65536; split <;> omega)]
  split
  · exact (Nat.two_pow_add_eq_or_of_lt hm 1).symm
  · exact (Nat.zero_or m).trans (Nat.zero_add m).symm

theorem rounded_of_finite (h : (exponentBits x).toNat ≠ 255) {m : ℕ}
    (hm : min (place x) infinityMagnitude = m) :
    rounded x = UInt16.ofNat ((if x.isNegative then twoPow 15 else 0) + m) := by
  have hinfinity : Binary32.infinityMagnitude = 2139095040 := rfl
  have hlt : x.magnitude < 2147483648 := Nat.mod_lt _ (twoPow_pos 31)
  have hmagnitude := magnitude_eq_bits x
  have hmantissa := mantissaBits_lt x
  have hnan : x.isNaN = false := decide_eq_false (by omega)
  have hinfinite : x.isInfinite = false := beq_eq_false_iff_ne.mpr (by omega)
  rw [rounded, hnan, hinfinite, ← hm]
  rfl

theorem rounded_of_special (h : (exponentBits x).toNat = 255) :
    rounded x = signBit x ||| 0x7c00 ||| if mantissaBits x ≠ 0 then 0x200 else 0 := by
  have hinfinity : Binary32.infinityMagnitude = 2139095040 := rfl
  have hmagnitude := magnitude_eq_bits x
  rw [UInt16.or_assoc, rounded]
  by_cases hzero : mantissaBits x = 0
  · have hnone : (mantissaBits x).toNat = 0 := congrArg UInt32.toNat hzero
    have hnan : x.isNaN = false := decide_eq_false (by omega)
    have hinfinite : x.isInfinite = true := beq_iff_eq.mpr (by omega)
    rw [hnan, hinfinite, if_neg (not_not_intro hzero)]
    exact (signBit_or (h := 0x7c00 ||| 0) (m := infinityMagnitude) rfl (by decide)).symm
  · have hsome : (mantissaBits x).toNat ≠ 0 := fun heq => hzero (UInt32.toNat_inj.mp heq)
    have hnan : x.isNaN = true := decide_eq_true (by omega)
    rw [hnan, if_pos hzero]
    exact (signBit_or (h := 0x7c00 ||| 0x200) (m := 0x7e00) rfl (by decide)).symm

theorem signBit_or_place {w : UInt32} (h : (exponentBits x).toNat ≤ 142)
    (hw : w.toNat = place x) : signBit x ||| w.toUInt16 = rounded x := by
  have h15 : twoPow 15 = 32768 := rfl
  have hinfinity : infinityMagnitude = 31744 := rfl
  have hle := place_le_infinityMagnitude h
  rw [rounded_of_finite (by omega) (min_eq_left hle)]
  refine signBit_or ?_ (by omega)
  rw [UInt32.toNat_toUInt16, hw]
  exact Nat.mod_eq_of_lt (by show place x < 65536; omega)

/-- Below the lowest exponent the leading 1 goes into the mantissa, with a shift for each step. -/
theorem toNat_subnormal {shift : UInt32} (hlow : 102 ≤ (exponentBits x).toNat)
    (hhigh : (exponentBits x).toNat ≤ 112)
    (hshift : shift.toNat = 126 - (exponentBits x).toNat) :
    let m := mantissaBits x ||| 0x800000
    (roundKept (m >>> shift) (m &&& ((1 <<< shift) - 1)) (1 <<< (shift - 1))).toNat =
      place x := by
  intro m
  have hlt := mantissaBits_lt x
  have hm : m.toNat = (mantissaBits x).toNat + 2 ^ 23 := by
    rw [UInt32.toNat_or, Nat.or_comm, Nat.add_comm]
    exact (Nat.two_pow_add_eq_or_of_lt hlt 1).symm
  have hless : (shift - 1).toNat = shift.toNat - 1 :=
    UInt32.toNat_sub_of_le _ _ (UInt32.le_iff_toNat_le.mpr (show 1 ≤ shift.toNat by omega))
  obtain ⟨hkept, hrest⟩ := toNat_shift_mask m shift (by omega)
  rw [place_of_subnormal (by omega) hhigh, ← hm, ← hshift]
  refine (toNat_roundKept 0 rfl ?_ hrest ?_ ?_).trans (Nat.zero_add _)
  · rw [hkept, Nat.zero_add]
  · rw [toNat_one_shiftLeft (by omega), hless, Nat.mul_comm]
    exact congrArg twoPow (show shift.toNat = shift.toNat - 1 + 1 by omega)
  · have hle := Nat.div_le_self m.toNat (twoPow shift.toNat)
    omega

/-- The exponent and the first bits of the mantissa are counted on by the carry. -/
theorem toNat_normal {exponent : UInt32} (hlow : 113 ≤ (exponentBits x).toNat)
    (hhigh : (exponentBits x).toNat ≤ 142)
    (hexponent : exponent.toNat = (exponentBits x).toNat - 112) :
    (roundKept ((exponent <<< 10) ||| (mantissaBits x >>> 13)) (mantissaBits x &&& 0x1fff)
      0x1000).toNat = place x := by
  have h13 : twoPow 13 = 8192 := rfl
  have hlt := mantissaBits_lt x
  obtain ⟨hhead, hrest⟩ := toNat_shift_mask (mantissaBits x) 13 (by decide)
  have hfield : (exponent <<< 10).toNat = 2 ^ 10 * exponent.toNat := by
    rw [UInt32.toNat_shiftLeft, Nat.shiftLeft_eq, Nat.mul_comm]
    exact Nat.mod_eq_of_lt (show 2 ^ 10 * exponent.toNat < 2 ^ 32 by omega)
  have hkept : ((exponent <<< 10) ||| (mantissaBits x >>> 13)).toNat =
      2 ^ 10 * exponent.toNat + (mantissaBits x).toNat / 8192 := by
    rw [UInt32.toNat_or, hfield, hhead]
    exact (Nat.two_pow_add_eq_or_of_lt
      (show (mantissaBits x).toNat / 8192 < 2 ^ 10 by omega) _).symm
  have hmask : (mantissaBits x &&& 0x1fff).toNat = (mantissaBits x).toNat % twoPow 13 := hrest
  rw [place_of_normal hlow]
  refine toNat_roundKept _ (by omega) ?_ ?_ rfl ?_
  · rw [hkept, hexponent, h13]
    omega
  · rw [hmask, h13]
    omega
  · rw [hkept]
    omega

theorem ofBinary32_eq_rounded (x : Binary32) : ofBinary32 x = rounded x := by
  have hspecial : exponentBits x = 0xff ↔ (exponentBits x).toNat = 255 := UInt32.toNat_inj.symm
  unfold ofBinary32
  dsimp only
  by_cases h : exponentBits x = 0xff
  · rw [if_pos h, rounded_of_special (hspecial.mp h)]
  have hfinite := mt hspecial.mpr h
  rw [if_neg h]
  by_cases hover : 0x1f ≤ ((exponentBits x).toNat : ℤ) - 127 + 15
  · have hbeyond := infinityMagnitude_le_place (x := x) (by omega)
    rw [if_pos hover, rounded_of_finite hfinite (min_eq_right hbeyond)]
    exact signBit_or rfl (by decide)
  rw [if_neg hover]
  by_cases hsubnormal : ((exponentBits x).toNat : ℤ) - 127 + 15 ≤ 0
  · rw [if_pos hsubnormal]
    by_cases hunder : ((exponentBits x).toNat : ℤ) - 127 + 15 < -10
    · have hzero := place_eq_zero (x := x) (by omega)
      rw [if_pos hunder]
      exact UInt16.or_zero.symm.trans (signBit_or_place (w := 0) (by omega) hzero.symm)
    · rw [if_neg hunder]
      refine signBit_or_place (by omega) (toNat_subnormal (by omega) (by omega) ?_)
      rw [UInt32.toNat_ofNat_of_lt' (by show _ < 4294967296; omega)]
      omega
  · rw [if_neg hsubnormal]
    refine signBit_or_place (by omega) (toNat_normal (by omega) (by omega) ?_)
    rw [UInt32.toNat_ofNat_of_lt' (by show _ < 4294967296; omega)]
    omega

end Branches

end Half

end Shader
