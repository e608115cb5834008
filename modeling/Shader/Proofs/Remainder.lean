import Mathlib.Data.Int.ModEq
import Shader.Proofs.Fold.Lane

/-! The remainder of integers. A signed remainder is meant to be the one that lies between 0 and the
divisor. It is computed from the cut-off remainder by adding the divisor and cutting off once more,
all in 32 bits, and is right exactly as long as that sum stays in range. -/

namespace Shader

/-- `r` is congruent to `x` modulo `y` and lies between 0 and `y`, short of `y` itself. -/
def IsModulo (x y r : Int) : Prop :=
  r ≡ x [ZMOD y] ∧ (0 < y → 0 ≤ r ∧ r < y) ∧ (y < 0 → y < r ∧ r ≤ 0)

def InInt32 (i : Int) : Prop :=
  -(twoPow 31 : Int) ≤ i ∧ i < twoPow 31

variable {x y r : Int}

theorem tmod_modEq (x y : Int) : x.tmod y ≡ x [ZMOD y] :=
  Int.modEq_iff_dvd.mpr Int.dvd_self_sub_tmod

theorem natAbs_tmod_lt (x : Int) (hy : y ≠ 0) : (x.tmod y).natAbs < y.natAbs := by
  rw [Int.natAbs_tmod]
  exact Nat.mod_lt _ (Int.natAbs_pos.mpr hy)

theorem isModulo_tmod_add (x : Int) (hy : y ≠ 0) : IsModulo x y ((x.tmod y + y).tmod y) := by
  have hfirst := natAbs_tmod_lt x hy
  have hsecond := natAbs_tmod_lt (x.tmod y + y) hy
  refine ⟨?_, fun hpos => ?_, fun hneg => ?_⟩
  · calc (x.tmod y + y).tmod y ≡ x.tmod y + y [ZMOD y] := tmod_modEq _ y
      _ ≡ x.tmod y [ZMOD y] := by simp
      _ ≡ x [ZMOD y] := tmod_modEq x y
  · have hnonneg := Int.tmod_nonneg y (show 0 ≤ x.tmod y + y by omega)
    omega
  · have hnonneg := Int.tmod_nonneg y (show 0 ≤ -(x.tmod y + y) by omega)
    rw [Int.neg_tmod] at hnonneg
    omega

/-- A remainder on the other side of 0 is 0, and then nothing is left by cutting off either. -/
theorem IsModulo.tmod_eq_zero (h : IsModulo x y r)
    (hside : 0 < y ∧ r ≤ 0 ∨ y < 0 ∧ 0 ≤ r) : x.tmod y = 0 := by
  obtain ⟨hcongr, hpos, hneg⟩ := h
  obtain rfl : r = 0 := by
    rcases hside with ⟨hy, hr⟩ | ⟨hy, hr⟩
    · have := hpos hy
      omega
    · have := hneg hy
      omega
  exact Int.tmod_eq_zero_of_dvd (Int.modEq_zero_iff_dvd.mp hcongr.symm)

theorem toInt_remainder (x y : Int32) :
    ((x % y + y) % y).toInt = ((x.toInt.tmod y.toInt + y.toInt).bmod (twoPow 32)).tmod y.toInt := by
  rw [Int32.toInt_mod, Int32.toInt_add, Int32.toInt_mod]
  rfl

/-- The computed remainder is the right one exactly if the sum before the last step is in range. -/
theorem isModulo_remainder_iff (x : Int32) {y : Int32} (hy : y ≠ 0) :
    IsModulo x.toInt y.toInt ((x % y + y) % y).toInt ↔
      InInt32 (x.toInt.tmod y.toInt + y.toInt) := by
  have hy : y.toInt ≠ 0 := fun h => hy (Int32.toInt_inj.mp h)
  have hlow := y.le_toInt
  have hhigh := y.toInt_lt
  have hfirst := natAbs_tmod_lt x.toInt hy
  have h31 : twoPow 31 = 2147483648 := rfl
  have h32 : twoPow 32 = 4294967296 := rfl
  rw [toInt_remainder, InInt32, h31]
  constructor
  · intro h
    by_contra hrange
    -- The sum has left the range by one turn, to the other side of 0.
    have hwrap := Int.bmod_def (x.toInt.tmod y.toInt + y.toInt) (twoPow 32)
    rw [h32] at h hwrap
    generalize hs : (x.toInt.tmod y.toInt + y.toInt).bmod 4294967296 = s at h hwrap
    have hzero : x.toInt.tmod y.toInt = 0 := by
      refine h.tmod_eq_zero ?_
      rcases Int.lt_or_gt_of_ne hy with hneg | hpos
      · exact .inr ⟨hneg, Int.tmod_nonneg _ (by omega)⟩
      · have hnonneg := Int.tmod_nonneg y.toInt (show 0 ≤ -s by omega)
        rw [Int.neg_tmod] at hnonneg
        exact .inl ⟨hpos, by omega⟩
    omega
  · intro hrange
    have hexact : (x.toInt.tmod y.toInt + y.toInt).bmod (twoPow 32) =
        x.toInt.tmod y.toInt + y.toInt := by
      rw [h32]
      exact Int.bmod_eq_of_le (by omega) (by omega)
    rw [hexact]
    exact isModulo_tmod_add _ hy

namespace Fold

theorem int_of_mod {x y : Int32} {z : Scalar} (h : binaryScalar .mod (.int x) (.int y) = .value z) :
    y ≠ 0 ∧ z = .int ((x % y + y) % y) := by
  by_cases hy : y = 0
  · simp [binaryScalar, intArithmetic, hy] at h
  · exact ⟨hy, by simpa [binaryScalar, intArithmetic, hy, eq_comm] using h⟩

theorem uint_of_mod {x y : UInt32} {z : Scalar}
    (h : binaryScalar .mod (.uint x) (.uint y) = .value z) : z = .uint (x % y) := by
  by_cases hy : y = 0
  · simp [binaryScalar, uintArithmetic, hy] at h
  · simpa [binaryScalar, uintArithmetic, hy, eq_comm] using h

/-- One component of a remainder. Unsigned ones are ordinary remainders; signed ones are right
exactly if the sum of the cut-off remainder and the divisor is in range. -/
def IsRemainder : Scalar → Scalar → Scalar → Prop
  | .int x, .int y, .int z =>
    IsModulo x.toInt y.toInt z.toInt ↔ InInt32 (x.toInt.tmod y.toInt + y.toInt)
  | .uint x, .uint y, .uint z => z.toNat = x.toNat % y.toNat
  | _, _, _ => False

theorem isRemainder_of_mod {k : ScalarKind} {x y z : Scalar} (hk : k.isInteger = true)
    (hx : x.kind = k) (hy : y.kind = k) (h : binaryScalar .mod x y = .value z) :
    IsRemainder x y z := by
  cases k with
  | int =>
    obtain ⟨x, rfl⟩ := Scalar.kind_eq_int.mp hx
    obtain ⟨y, rfl⟩ := Scalar.kind_eq_int.mp hy
    obtain ⟨hne, rfl⟩ := int_of_mod h
    exact isModulo_remainder_iff x hne
  | uint =>
    obtain ⟨x, rfl⟩ := Scalar.kind_eq_uint.mp hx
    obtain ⟨y, rfl⟩ := Scalar.kind_eq_uint.mp hy
    obtain rfl := uint_of_mod h
    exact UInt32.toNat_mod x y
  | bool => cases hk
  | float => cases hk

/-- A remainder by divisors that are not 0 has a value, lane by lane: unsigned ones are ordinary
remainders, and signed ones take the sign of the divisor as long as the sum on the way is in range.
-/
theorem remainder_lanes {a b : Constant} {l r t : BasicTy} (ha : Has (.basic l) a)
    (hb : Has (.basic r) b) (hrule : BinaryOp.mod.rule l r = some t)
    (hint : Scalar.int 0 ∉ b.value.components) (huint : Scalar.uint 0 ∉ b.value.components) :
    ∃ c, binary .mod a b = .value c ∧ Has (.basic t) c ∧ ∀ i < t.componentCount,
      ∃ x y z, lane a.value.components i = some x ∧ lane b.value.components i = some y ∧
        c.value.components[i]? = some z ∧ IsRemainder x y z := by
  have hnonzero : ¬ZeroDivisor .mod b.value.components := fun hz => hz.2.elim hint huint
  obtain ⟨c, hc, hty⟩ := ((binary_meets ha hb hrule).mono hnonzero fun _ h => h).exists_value
  refine ⟨c, hc, hty, fun i hi => ?_⟩
  obtain ⟨x, y, z, hx, hy, hz, hvalue⟩ := binary_lane rfl (by simp) ha hb hrule hc hi
  obtain ⟨k, hk, lanes⟩ := componentRule_lanes hrule
  refine ⟨x, y, z, hx, hy, hz, isRemainder_of_mod hk ?_ ?_ hvalue⟩
  · exact ha.kind_of_lane lanes.leftKind hx
  · exact hb.kind_of_lane lanes.rightKind hy

def dividends : Constant :=
  ⟨.basic (.vector .int .three), .vector [.int (-7), .int 7, .int 2147483646]⟩

theorem remainder_lanes_dividends :
    Has (.basic (.vector .int .three)) dividends ∧
      Has (.basic (.scalar .int)) (.ofScalar (.int (-3))) ∧
      ∃ c, binary .mod dividends (.ofScalar (.int (-3))) = .value c ∧
        Has (.basic (.vector .int .three)) c ∧ ∀ i < 3,
          ∃ x y z, lane dividends.value.components i = some x ∧ lane [.int (-3)] i = some y ∧
            c.value.components[i]? = some z ∧ IsRemainder x y z := by
  have hdividends : Has (.basic (.vector .int .three)) dividends :=
    ⟨rfl, Value.fits_vector_iff.mpr ⟨_, rfl, rfl, by decide⟩⟩
  have hdivisor : Has (.basic (.scalar .int)) (.ofScalar (.int (-3))) :=
    ⟨rfl, Value.fits_ofScalar _⟩
  exact ⟨hdividends, hdivisor, remainder_lanes hdividends hdivisor rfl (by decide) (by decide)⟩

/-- A small dividend and the greatest divisor: their sum is out of range. -/
theorem remainder_out_of_range :
    ∃ z : Int32, binary .mod (.ofScalar (.int 5)) (.ofScalar (.int 2147483647)) =
      .value (.ofScalar (.int z)) ∧ ¬IsModulo 5 2147483647 z.toInt := by
  refine ⟨-2147483644, rfl, fun h => ?_⟩
  exact absurd (h.2.1 (by decide)).1 (by decide)

end Fold

end Shader
