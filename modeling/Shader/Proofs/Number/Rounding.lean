import Shader.Number.Binary32

/-! Rounding of quotients to binary32. The result depends on the quotient alone and not on how it is
written, and a number that is a binary32 already stays as it is. -/

namespace Shader

theorem twoPow_add (a b : Nat) : twoPow (a + b) = twoPow a * twoPow b :=
  Nat.pow_add 2 a b

theorem twoPow_le {a b : Nat} (h : a ≤ b) : twoPow a ≤ twoPow b :=
  Nat.pow_le_pow_right (by decide) h

theorem twoPow_log2_le {n : Nat} (h : n ≠ 0) : twoPow n.log2 ≤ n :=
  Nat.log2_self_le h

theorem lt_twoPow_log2 (n : Nat) : n < twoPow (n.log2 + 1) :=
  Nat.lt_log2_self

namespace Binary32

/-- `n / d` is `2 ^ e` or more. -/
def AtLeast (n d : Nat) (e : Int) : Prop :=
  d * twoPow e.toNat ≤ n * twoPow (-e).toNat

variable {n d k : Nat} {e : Int}

theorem atLeast_iff {a b : Nat} (h : (a : Int) - b = e) :
    AtLeast n d e ↔ d * twoPow a ≤ n * twoPow b := by
  obtain ⟨k, ha, hb⟩ : ∃ k, a = e.toNat + k ∧ b = (-e).toNat + k :=
    ⟨a - e.toNat, by omega, by omega⟩
  rw [ha, hb, twoPow_add, twoPow_add, ← Nat.mul_assoc, ← Nat.mul_assoc]
  exact (Nat.mul_le_mul_right_iff (twoPow_pos k)).symm

theorem AtLeast.mono {f : Int} (h : AtLeast n d f) (hle : e ≤ f) : AtLeast n d e := by
  obtain ⟨k, hk⟩ := Int.le.dest hle
  rw [atLeast_iff (a := e.toNat) (b := (-e).toNat) (by omega)]
  rw [atLeast_iff (a := e.toNat + k) (b := (-e).toNat) (by omega)] at h
  exact Nat.le_trans (Nat.mul_le_mul_left d (twoPow_le (by omega))) h

theorem atLeast_scale (hk : 0 < k) : AtLeast (n * k) (d * k) e ↔ AtLeast n d e := by
  unfold AtLeast
  rw [Nat.mul_right_comm, Nat.mul_right_comm n k]
  exact Nat.mul_le_mul_right_iff hk

theorem floorLog2_spec (hn : n ≠ 0) (hd : d ≠ 0) :
    AtLeast n d (floorLog2 n d) ∧ ¬AtLeast n d (floorLog2 n d + 1) := by
  have hn1 := twoPow_log2_le hn
  have hn2 := lt_twoPow_log2 n
  have hd1 := twoPow_log2_le hd
  have hd2 := lt_twoPow_log2 d
  have hlow : AtLeast n d ((n.log2 : Int) - d.log2 - 1) := by
    rw [atLeast_iff (a := n.log2) (b := d.log2 + 1) (by omega), Nat.mul_comm n]
    exact Nat.mul_le_mul (Nat.le_of_lt hd2) hn1
  have hhigh : ¬AtLeast n d ((n.log2 : Int) - d.log2 + 1) := by
    rw [atLeast_iff (a := n.log2 + 1) (b := d.log2) (by omega), Nat.mul_comm n, Nat.not_le]
    exact Nat.mul_lt_mul_of_le_of_lt hd1 hn2 (Nat.pos_of_ne_zero hd)
  unfold floorLog2
  dsimp only
  split
  · exact ⟨‹_›, hhigh⟩
  · rename_i hnot
    rw [show (n.log2 : Int) - d.log2 - 1 + 1 = n.log2 - d.log2 by omega]
    exact ⟨hlow, hnot⟩

theorem le_floorLog2_iff (hn : n ≠ 0) (hd : d ≠ 0) : e ≤ floorLog2 n d ↔ AtLeast n d e := by
  obtain ⟨hfloor, hnext⟩ := floorLog2_spec hn hd
  refine ⟨hfloor.mono, fun h => ?_⟩
  by_cases hle : e ≤ floorLog2 n d
  · exact hle
  · exact absurd (h.mono (by omega)) hnext

theorem floorLog2_scale (hn : n ≠ 0) (hd : d ≠ 0) (hk : k ≠ 0) :
    floorLog2 (n * k) (d * k) = floorLog2 n d := by
  have hiff : ∀ e, e ≤ floorLog2 (n * k) (d * k) ↔ e ≤ floorLog2 n d := fun e => by
    rw [le_floorLog2_iff (Nat.mul_ne_zero hn hk) (Nat.mul_ne_zero hd hk), le_floorLog2_iff hn hd,
      atLeast_scale (Nat.pos_of_ne_zero hk)]
  exact Int.le_antisymm ((hiff _).mp (Int.le_refl _)) ((hiff _).mpr (Int.le_refl _))

theorem significand_lt (x : Binary32) : x.significand < twoPow 24 := by
  have hmod := Nat.mod_lt x.magnitude (twoPow_pos 23)
  have h24 : twoPow 24 = twoPow 23 + twoPow 23 := rfl
  unfold significand
  split
  · rename_i hzero
    have hsmall := Nat.lt_of_div_eq_zero (twoPow_pos 23) hzero
    omega
  · omega

theorem roundQuotient_scale (hk : 0 < k) :
    roundQuotient (n * k) (d * k) = roundQuotient n d := by
  unfold roundQuotient
  have hlt : 2 * (n % d * k) < d * k ↔ 2 * (n % d) < d := by
    rw [← Nat.mul_assoc]
    exact Nat.mul_lt_mul_right hk
  have heq : 2 * (n % d * k) = d * k ↔ 2 * (n % d) = d := by
    rw [← Nat.mul_assoc]
    exact Nat.mul_left_inj (by omega)
  simp only [Nat.mul_div_mul_right _ _ hk, Nat.mul_mod_mul_right, hlt, heq]

theorem roundQuotient_mul (m : Nat) (hd : 0 < d) : roundQuotient (m * d) d = m := by
  unfold roundQuotient
  simp only [Nat.mul_div_cancel _ hd, Nat.mul_mod_left, Nat.mul_zero, hd, if_true]

theorem le_roundQuotient (n d : Nat) : n / d ≤ roundQuotient n d := by
  unfold roundQuotient
  dsimp only
  split
  · exact Nat.le_refl _
  · split <;> omega

theorem roundQuotient_le (n d : Nat) : roundQuotient n d ≤ n / d + 1 := by
  unfold roundQuotient
  dsimp only
  split
  · omega
  · split <;> omega

theorem roundMagnitude_scale (hd : d ≠ 0) (hk : k ≠ 0) :
    roundMagnitude (n * k) (d * k) = roundMagnitude n d := by
  by_cases hn : n = 0
  · simp [roundMagnitude, hn]
  · simp only [roundMagnitude, hn, Nat.mul_ne_zero hn hk, if_false, floorLog2_scale hn hd hk]
    rw [Nat.mul_right_comm n k, Nat.mul_right_comm d k,
      roundQuotient_scale (Nat.pos_of_ne_zero hk)]

theorem roundMagnitude_congr {m c : Nat} (hd : d ≠ 0) (hc : c ≠ 0) (h : n * c = m * d) :
    roundMagnitude n d = roundMagnitude m c := by
  rw [← roundMagnitude_scale hd hc, h, Nat.mul_comm d c, roundMagnitude_scale hc hd]

theorem roundMagnitude_big (hn : n ≠ 0) (hd : d ≠ 0) (h : AtLeast n d 128) :
    roundMagnitude n d = infinityMagnitude := by
  have hlog : 128 ≤ floorLog2 n d := (le_floorLog2_iff hn hd).mpr h
  have hfloor := (floorLog2_spec hn hd).1
  simp only [roundMagnitude, hn, if_false]
  generalize floorLog2 n d = f at hlog hfloor
  obtain ⟨u, rfl⟩ : ∃ u : Nat, f = u + 23 := ⟨(f - 23).toNat, by omega⟩
  have hunit : max ((u : Int) + 23 - 23) (-149) = u := by omega
  have hscale : (-(u : Int)).toNat = 0 := by omega
  rw [hunit, hscale, twoPow_zero, Nat.mul_one, Int.toNat_natCast]
  rw [atLeast_iff (a := u + 23) (b := 0) (by omega), twoPow_add, twoPow_zero, Nat.mul_one,
    ← Nat.mul_assoc, Nat.mul_comm] at hfloor
  have hq : twoPow 23 ≤ roundQuotient n (d * twoPow u) :=
    Nat.le_trans ((Nat.le_div_iff_mul_le (Nat.mul_pos (Nat.pos_of_ne_zero hd) (twoPow_pos u))).mpr
      hfloor) (le_roundQuotient _ _)
  have h23 : twoPow 23 = 8388608 := by decide
  rw [h23] at hq ⊢
  refine Nat.min_eq_right ?_
  unfold infinityMagnitude
  omega

theorem roundMagnitude_small (hd : d ≠ 0) (h : ¬AtLeast n d (-150)) : roundMagnitude n d = 0 := by
  by_cases hn : n = 0
  · simp [roundMagnitude, hn]
  · have hlog : floorLog2 n d < -150 := by
      rw [← le_floorLog2_iff hn hd] at h
      omega
    have hunit : max (floorLog2 n d - 23) (-149) = -149 := by omega
    simp only [roundMagnitude, hn, if_false, hunit]
    rw [atLeast_iff (a := 0) (b := 149 + 1) (by omega), twoPow_add, twoPow_zero, Nat.mul_one,
      ← Nat.mul_assoc, Nat.not_le] at h
    have hhalf : 2 * (n * twoPow 149) < d := by
      rw [Nat.mul_comm 2]
      exact h
    have hround : roundQuotient (n * twoPow 149) d = 0 := by
      unfold roundQuotient
      rw [Nat.div_eq_of_lt (by omega), Nat.mod_eq_of_lt (by omega), if_pos hhalf]
    show min (0 * twoPow 23 + roundQuotient (n * twoPow 149) (d * 1)) infinityMagnitude = 0
    rw [Nat.mul_one, hround]
    rfl

theorem atLeast_shift (s j : Nat) (e : Int) :
    AtLeast (s * twoPow e.toNat) (twoPow (-e).toNat) (e + j) ↔ twoPow j ≤ s := by
  rw [atLeast_iff (a := e.toNat + j) (b := (-e).toNat) (by omega), twoPow_add, ← Nat.mul_assoc,
    Nat.mul_comm (_ * _) (twoPow j), Nat.mul_assoc s, Nat.mul_comm (twoPow e.toNat)]
  exact Nat.mul_le_mul_right_iff (Nat.mul_pos (twoPow_pos _) (twoPow_pos _))

/-- A finite number is its own rounding. -/
theorem roundMagnitude_exact {x : Binary32} (hfinite : x.isFinite = true)
    (hzero : x.isZero = false) :
    roundMagnitude (x.significand * twoPow x.exponent.toNat) (twoPow (-x.exponent).toNat) =
      x.magnitude := by
  have h23 : twoPow 23 = 8388608 := by decide
  have h24 : twoPow 24 = 16777216 := by decide
  have hfinite : x.magnitude < infinityMagnitude := of_decide_eq_true hfinite
  simp only [isZero, beq_eq_false_iff_ne] at hzero
  have hs : x.significand ≠ 0 ∧ x.significand < twoPow 24 ∧
      (twoPow 23 ≤ x.significand ∨ x.exponent = -149) ∧ -149 ≤ x.exponent ∧
      (x.exponent + 149).toNat * twoPow 23 + x.significand = x.magnitude := by
    unfold significand exponent
    rw [h23, h24]
    split <;> omega
  obtain ⟨hne, hlt, hnormal, hlow, hsum⟩ := hs
  generalize x.significand = s at *
  generalize x.exponent = e at *
  have hn : s * twoPow e.toNat ≠ 0 := Nat.mul_ne_zero hne (Nat.ne_of_gt (twoPow_pos _))
  have hd : twoPow (-e).toNat ≠ 0 := Nat.ne_of_gt (twoPow_pos _)
  have hbelow : ¬e + (24 : Nat) ≤ floorLog2 (s * twoPow e.toNat) (twoPow (-e).toNat) := by
    rw [le_floorLog2_iff hn hd, atLeast_shift]
    omega
  have hunit : max (floorLog2 (s * twoPow e.toNat) (twoPow (-e).toNat) - 23) (-149) = e := by
    rcases hnormal with hnormal | rfl
    · have habove : e + (23 : Nat) ≤ floorLog2 (s * twoPow e.toNat) (twoPow (-e).toNat) := by
        rwa [le_floorLog2_iff hn hd, atLeast_shift]
      omega
    · omega
  simp only [roundMagnitude, hn, if_false, hunit]
  rw [Nat.mul_assoc, Nat.mul_comm (twoPow e.toNat),
    roundQuotient_mul s (Nat.mul_pos (twoPow_pos _) (twoPow_pos _)), hsum]
  exact Nat.min_eq_left (Nat.le_of_lt hfinite)

end Binary32

end Shader
