import Mathlib.Data.Int.ModEq
import Mathlib.Data.Rat.Floor
import Mathlib.Tactic.Ring
import Shader.Proofs.Fold.Construct
import Shader.Proofs.Fold.Lane
import Shader.Proofs.Number.Rounding

/-! Floats as integers. A finite float is a rational number, which the integer constructors cut off
toward zero and reduce modulo 2 ^ 32. On the way there is a 64-bit integer that does not go beyond
its range. Below 2 ^ 63 this makes no difference, since what is lost at the other end is a multiple
of 2 ^ 32; from 2 ^ 63 on all bits are set. -/

namespace Shader

def truncate (q : ℚ) : ℤ :=
  if 0 ≤ q then ⌊q⌋ else ⌈q⌉

theorem truncate_neg (q : ℚ) : truncate (-q) = -truncate q := by
  rcases lt_trichotomy q 0 with hneg | rfl | hpos
  · rw [truncate, truncate, if_pos (by simpa using hneg.le), if_neg (not_le.mpr hneg),
      Int.floor_neg]
  · simp [truncate]
  · rw [truncate, truncate, if_neg (by simpa using hpos), if_pos hpos.le, Int.ceil_neg]

theorem truncate_div (n d : ℕ) : truncate (n / d : ℚ) = (n / d : ℕ) := by
  rw [truncate, if_pos (by positivity), Rat.floor_natCast_div_natCast, Int.natCast_div]

theorem truncate_lt_iff {q : ℚ} {n : ℕ} (hn : 0 < n) : truncate q < n ↔ q < n := by
  unfold truncate
  split
  · rw [Int.floor_lt, Int.cast_natCast]
  · rename_i hneg
    have hq : q < 0 := not_le.mp hneg
    have hceil : ⌈q⌉ ≤ 0 := Int.ceil_le.mpr (by simpa using hq.le)
    exact iff_of_true (by omega) (hq.trans (by exact_mod_cast hn))

namespace Binary32

/-- The value of a finite pattern without its sign, from the 8 bits of the exponent and the 23 bits
of the fraction. Without an exponent there is no leading 1. -/
def absRat (x : Binary32) : ℚ :=
  let field := x.bits.toNat / twoPow 23 % twoPow 8
  let fraction : ℚ := (x.bits.toNat % twoPow 23 : ℕ) / twoPow 23
  if field = 0 then fraction * 2 ^ (-126 : ℤ) else (1 + fraction) * 2 ^ ((field : ℤ) - 127)

def toRat (x : Binary32) : ℚ :=
  if x.isNegative then -x.absRat else x.absRat

example : toRat ⟨0xc0200000⟩ = -5 / 2 := by decide +kernel

example : toRat ⟨0x00400000⟩ = 1 / 2 ^ 127 := by decide +kernel

variable {x : Binary32}

theorem absRat_eq_mul (x : Binary32) : x.absRat = x.significand * 2 ^ x.exponent := by
  have h8 : twoPow 8 = 256 := rfl
  have h23 : twoPow 23 = 8388608 := rfl
  have h31 : twoPow 31 = 2147483648 := rfl
  have hfield : x.bits.toNat / twoPow 23 % twoPow 8 = x.magnitude / twoPow 23 := by
    rw [magnitude, h23, h8, h31]
    omega
  have hfraction : x.bits.toNat % twoPow 23 = x.magnitude % twoPow 23 := by
    rw [magnitude, h23, h31]
    omega
  rw [absRat, hfield, hfraction, significand, exponent]
  by_cases hzero : x.magnitude / twoPow 23 = 0
  · have hsmall : x.magnitude % twoPow 23 = x.magnitude :=
      Nat.mod_eq_of_lt (Nat.lt_of_div_eq_zero (twoPow_pos 23) hzero)
    rw [if_pos hzero, if_pos hzero, hzero, hsmall, h23]
    norm_num
    ring
  · have hshift : ((x.magnitude / twoPow 23 : ℕ) : ℤ) - 127 =
        ((x.magnitude / twoPow 23 : ℕ) : ℤ) - 150 + 23 := by ring
    rw [if_neg hzero, if_neg hzero, Nat.max_eq_left (Nat.pos_of_ne_zero hzero), hshift,
      zpow_add₀ two_ne_zero, h23]
    push_cast
    ring

theorem zpow_eq_twoPow (e : ℤ) : (2 : ℚ) ^ e = twoPow e.toNat / twoPow (-e).toNat := by
  have hpow (n : ℕ) : (twoPow n : ℚ) = 2 ^ n := Nat.cast_pow 2 n
  rcases Int.eq_nat_or_neg e with ⟨n, rfl | rfl⟩
  · simp [hpow]
  · simp [hpow]

theorem absRat_eq_div (x : Binary32) :
    x.absRat =
      (x.significand * twoPow x.exponent.toNat : ℕ) / (twoPow (-x.exponent).toNat : ℕ) := by
  rw [absRat_eq_mul, zpow_eq_twoPow, Nat.cast_mul, mul_div_assoc]

theorem truncate_toRat (x : Binary32) : truncate x.toRat = x.toInt := by
  have habs := truncate_div (x.significand * twoPow x.exponent.toNat) (twoPow (-x.exponent).toNat)
  rw [← absRat_eq_div] at habs
  unfold toRat toInt
  split
  · rw [truncate_neg, habs]
  · exact habs

theorem natAbs_toInt (x : Binary32) : x.toInt.natAbs =
    x.significand * twoPow x.exponent.toNat / twoPow (-x.exponent).toNat := by
  unfold toInt
  split
  · exact Int.natAbs_neg _
  · rfl

theorem le_exponent (h : twoPow 63 ≤ x.toInt.natAbs) : 32 ≤ x.exponent.toNat := by
  by_contra hlt
  have hpow : twoPow x.exponent.toNat ≤ twoPow 32 := twoPow_le (by omega)
  have hsmall : x.toInt.natAbs < twoPow 63 := by
    calc x.toInt.natAbs ≤ x.significand * twoPow x.exponent.toNat := by
          rw [natAbs_toInt]
          exact Nat.div_le_self _ _
      _ ≤ twoPow 24 * twoPow 32 := Nat.mul_le_mul x.significand_lt.le hpow
      _ < twoPow 63 := by decide
  omega

/-- A number so large is a multiple of the step between its neighbours. -/
theorem twoPow_dvd_toInt (h : twoPow 63 ≤ x.toInt.natAbs) : (twoPow 32 : ℤ) ∣ x.toInt := by
  have hexp := le_exponent h
  have hsplit : twoPow x.exponent.toNat = twoPow 32 * twoPow (x.exponent.toNat - 32) := by
    rw [← twoPow_add, Nat.add_sub_cancel' hexp]
  rw [← Int.natAbs_dvd_natAbs, natAbs_toInt, show (-x.exponent).toNat = 0 by omega, twoPow_zero,
    Nat.div_one, hsplit]
  exact Dvd.dvd.mul_left (Nat.dvd_mul_right _ _) _

theorem toInt64_of_isFinite (hx : x.isFinite = true) :
    x.toInt64 = max (-(twoPow 63 : ℤ)) (min ((twoPow 63 : ℤ) - 1) x.toInt) := by
  have hlt : x.magnitude < infinityMagnitude := by simpa [isFinite] using hx
  have hnan : x.isNaN = false := by simp [isNaN, hlt.le]
  have hinf : x.isInfinite = false := by simp [isInfinite, hlt.ne]
  simp [toInt64, hnan, hinf]

theorem toInt64_large (hx : x.isFinite = true) (h : (twoPow 63 : ℤ) ≤ x.toInt) :
    x.toInt64 = (twoPow 63 : ℤ) - 1 := by
  have h63 : (0 : ℤ) < twoPow 63 := by decide
  rw [toInt64_of_isFinite hx, min_eq_left (by omega), max_eq_right (by omega)]

theorem toInt64_modEq_iff (hx : x.isFinite = true) :
    x.toInt64 ≡ x.toInt [ZMOD twoPow 32] ↔ x.toInt < twoPow 63 := by
  rcases lt_or_ge x.toInt (twoPow 63) with hlt | hge
  · refine iff_of_true ?_ hlt
    rcases lt_or_ge x.toInt (-(twoPow 63 : ℤ)) with hlow | hlow
    · -- What is cut off at this end is a multiple of 2 ^ 32, and so is the end itself.
      have hend : -(twoPow 63 : ℤ) ≡ 0 [ZMOD twoPow 32] := by decide
      have hzero : x.toInt ≡ 0 [ZMOD twoPow 32] :=
        Int.modEq_zero_iff_dvd.mpr (twoPow_dvd_toInt (by omega))
      rw [toInt64_of_isFinite hx, max_eq_left (by omega)]
      exact hend.trans hzero.symm
    · rw [toInt64_of_isFinite hx, min_eq_right (by omega), max_eq_right hlow]
  · refine iff_of_false (fun h => ?_) (not_lt.mpr hge)
    have hzero : x.toInt ≡ 0 [ZMOD twoPow 32] :=
      Int.modEq_zero_iff_dvd.mpr (twoPow_dvd_toInt (by omega))
    rw [toInt64_large hx hge] at h
    exact absurd (h.trans hzero) (by decide)

end Binary32

namespace Scalar

/-- An integer, signed or unsigned, that is congruent to `n` modulo 2 ^ 32. -/
def Wraps (n : ℤ) : Scalar → Prop
  | int i => i.toInt ≡ n [ZMOD twoPow 32]
  | uint u => (u.toNat : ℤ) ≡ n [ZMOD twoPow 32]
  | _ => False

theorem lowBits_modEq (n : ℤ) : ((lowBits n).toNat : ℤ) ≡ n [ZMOD twoPow 32] := by
  have hlt := Int.emod_lt_of_pos n (b := twoPow 32) (by decide)
  have hnonneg := Int.emod_nonneg n (b := twoPow 32) (by decide)
  rw [lowBits, UInt32.toNat_ofNat_of_lt' (by rw [show UInt32.size = twoPow 32 from rfl]; omega),
    Int.toNat_of_nonneg hnonneg]
  exact Int.mod_modEq n _

theorem toInt32_modEq (w : UInt32) : w.toInt32.toInt ≡ w.toNat [ZMOD twoPow 32] := by
  show w.toBitVec.toInt ≡ w.toBitVec.toNat [ZMOD twoPow 32]
  rw [BitVec.toInt_eq_toNat_bmod]
  exact Int.bmod_emod

theorem wraps_convert_iff {x : Binary32} {k : ScalarKind} {n : ℤ} (hk : k.isInteger = true) :
    ((float x).convert k).Wraps n ↔ x.toInt64 ≡ n [ZMOD twoPow 32] := by
  have hbits := lowBits_modEq x.toInt64
  cases k with
  | int =>
    have hsigned := (toInt32_modEq (lowBits x.toInt64)).trans hbits
    exact ⟨hsigned.symm.trans, hsigned.trans⟩
  | uint => exact ⟨hbits.symm.trans, hbits.trans⟩
  | float => cases hk
  | bool => cases hk

/-- From 2 ^ 63 on an integer conversion gives all bits, whatever the number is. -/
theorem convert_large {x : Binary32} {k : ScalarKind} (hx : x.isFinite = true)
    (hk : k.isInteger = true) (h : (twoPow 63 : ℤ) ≤ x.toInt) :
    (float x).convert k = (uint 0xFFFFFFFF).convert k := by
  have hbits : (float x).toBits = (uint 0xFFFFFFFF).toBits := by
    rw [toBits, Binary32.toInt64_large hx h]
    decide
  cases k with
  | int => exact congrArg (fun w : UInt32 => int w.toInt32) hbits
  | uint => exact congrArg uint hbits
  | float => cases hk
  | bool => cases hk

end Scalar

theorem BasicTy.isMatrix_of_integer {b : BasicTy} {k : ScalarKind} (hb : b.componentKind? = some k)
    (hk : k.isInteger = true) : b.isMatrix = false := by
  cases b with
  | matrix cols rows =>
    obtain rfl : ScalarKind.float = k := Option.some.inj hb
    cases hk
  | _ => rfl

/-- A finite float becomes the integer that is congruent to its whole part modulo 2 ^ 32 exactly if
it is below 2 ^ 63; from there on all bits are set. Constructors convert each component in this way.
-/
theorem float_convert_wraps_iff {x : Binary32} (hx : x.isFinite = true) {k : ScalarKind}
    (hk : k.isInteger = true) :
    ((Scalar.float x).convert k).kind = k ∧
    (((Scalar.float x).convert k).Wraps (truncate x.toRat) ↔ x.toRat < twoPow 63) ∧
    (twoPow 63 ≤ x.toRat → (Scalar.float x).convert k = (Scalar.uint 0xFFFFFFFF).convert k) ∧
    ∀ (b : BasicTy) (args : List Constant), b.componentKind? = some k →
      (∀ a ∈ args, a.WellShaped) →
      (Check.constructorProblem? (.basic b) (args.map Constant.ty) = none →
        ∃ c, Fold.construct (.basic b) args = .value c) ∧
      ∀ c, Fold.construct (.basic b) args = .value c → ∀ i < b.componentCount,
        Fold.lane (args.flatMap fun a => a.value.components) i = some (.float x) →
        c.value.components[i]? = some ((Scalar.float x).convert k) := by
  have hbelow : x.toRat < twoPow 63 ↔ x.toInt < twoPow 63 := by
    rw [← Binary32.truncate_toRat, truncate_lt_iff (twoPow_pos 63)]
  refine ⟨Scalar.kind_convert _ k, ?_, fun hge => ?_, fun b args hb hargs =>
    ⟨fun hok => ?_, fun c hc i hi hlane => ?_⟩⟩
  · rw [Scalar.wraps_convert_iff hk, Binary32.truncate_toRat, Binary32.toInt64_modEq_iff hx, hbelow]
  · exact Scalar.convert_large hx hk (not_lt.mp (hbelow.not.mp (not_lt.mpr hge)))
  · obtain ⟨c, hc, -⟩ := (Fold.construct_meets hargs hok).exists_value
    exact ⟨c, hc⟩
  · obtain ⟨s, hs, hcomponent⟩ := Fold.construct_lane hb (BasicTy.isMatrix_of_integer hb hk) hc hi
    obtain rfl : s = .float x := Option.some.inj (hs.symm.trans hlane)
    exact hcomponent

/-- Three billion below 0, and a half. -/
def farAndNear : Constant :=
  ⟨.basic (.vector .float .two), .vector [.float ⟨0xcf32d05e⟩, .float ⟨0x3f000000⟩]⟩

theorem float_convert_wraps_iff_farAndNear :
    (⟨0xcf32d05e⟩ : Binary32).isFinite = true ∧ farAndNear.WellShaped ∧
      ((Scalar.float ⟨0xcf32d05e⟩).convert .uint).Wraps (-3000000000) ∧
      ∃ c, Fold.construct (.basic (.vector .uint .three)) [farAndNear, .ofBool true] = .value c ∧
        c.value.components[0]? = some ((Scalar.float ⟨0xcf32d05e⟩).convert .uint) := by
  have hfinite : (⟨0xcf32d05e⟩ : Binary32).isFinite = true := by decide
  have hshaped : farAndNear.WellShaped := Value.fits_vector_iff.mpr ⟨_, rfl, rfl, by decide⟩
  have hvalue : truncate (Binary32.toRat ⟨0xcf32d05e⟩) = -3000000000 := by
    rw [Binary32.truncate_toRat]
    decide
  have hbelow : Binary32.toRat ⟨0xcf32d05e⟩ < twoPow 63 := by
    rw [← truncate_lt_iff (twoPow_pos 63), hvalue]
    decide
  obtain ⟨-, hwraps, -, hconstruct⟩ := float_convert_wraps_iff hfinite (k := .uint) rfl
  have hargs : ∀ a ∈ [farAndNear, .ofBool true], a.WellShaped := by
    intro a ha
    rcases List.mem_pair.mp ha with rfl | rfl
    · exact hshaped
    · exact Value.fits_ofScalar _
  obtain ⟨hexists, hcomponents⟩ :=
    hconstruct (.vector .uint .three) [farAndNear, .ofBool true] rfl hargs
  obtain ⟨c, hc⟩ := hexists (by decide)
  refine ⟨hfinite, hshaped, hvalue ▸ hwraps.mpr hbelow, c, hc, ?_⟩
  exact hcomponents c hc 0 (by decide) rfl

/-- 2 ^ 63 gives -1 instead of 0. -/
theorem float_convert_beyond_range :
    (⟨0x5f000000⟩ : Binary32).isFinite = true ∧
      (Scalar.float ⟨0x5f000000⟩).convert .int = .int (-1) ∧
      ¬((Scalar.float ⟨0x5f000000⟩).convert .int).Wraps
        (truncate (Binary32.toRat ⟨0x5f000000⟩)) := by
  refine ⟨by decide, by decide, fun h => ?_⟩
  rw [Scalar.wraps_convert_iff rfl, Binary32.truncate_toRat] at h
  exact absurd h (by decide)

end Shader
