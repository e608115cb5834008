import Mathlib.Algebra.Order.AbsoluteValue.Basic
import Mathlib.Order.Monotone.Basic
import Mathlib.Tactic.Linarith
import Shader.Proofs.Number.Half
import Shader.Proofs.Truncation

/-! Rounding to binary16. Without their signs the patterns stand for an increasing sequence of
rational numbers, which goes on beyond the pattern of infinity. A finite binary32 number lies
between two neighbours of the sequence and is rounded to the nearer one, in the middle to the even
one. Infinity takes the place of 65536, so 65520 is the first number that is rounded to it. -/

namespace Shader

/-- Of the values of `f` below place `bound`, the one at place `r` is nearest to `a`; another one is
as near only if `r` is even. -/
structure NearestPlace (f : ℕ → ℚ) (bound : ℕ) (a : ℚ) (r : ℕ) : Prop where
  lt : r < bound
  le : ∀ k < bound, |a - f r| ≤ |a - f k|
  even : ∀ k < bound, k ≠ r → |a - f k| = |a - f r| → r % 2 = 0

section Sequence

variable {f : ℕ → ℚ} {bound m r : ℕ} {a : ℚ}

theorem nearestPlace_of_between (hf : StrictMono f) (hlow : f m ≤ a) (hhigh : a < f (m + 1))
    (hr : r = m ∧ a - f m ≤ f (m + 1) - a ∨ r = m + 1 ∧ f (m + 1) - a ≤ a - f m)
    (heven : a - f m = f (m + 1) - a → r % 2 = 0) (hbound : r < bound) :
    NearestPlace f bound a r := by
  have hbelow : ∀ k ≤ m, |a - f k| = a - f k := fun k hk =>
    abs_of_nonneg (sub_nonneg.mpr ((hf.monotone hk).trans hlow))
  have habove : ∀ k, m + 1 ≤ k → |a - f k| = f k - a := fun k hk => by
    rw [abs_sub_comm]
    exact abs_of_nonneg (sub_nonneg.mpr (hhigh.le.trans (hf.monotone hk)))
  have hnearer : |a - f r| ≤ a - f m ∧ |a - f r| ≤ f (m + 1) - a := by
    rcases hr with ⟨rfl, hr⟩ | ⟨rfl, hr⟩
    · rw [hbelow r le_rfl]
      exact ⟨le_rfl, hr⟩
    · rw [habove _ le_rfl]
      exact ⟨hr, le_rfl⟩
  refine ⟨hbound, fun k _ => ?_, fun k _ hne heq => heven ?_⟩
  · rcases Nat.lt_or_ge m k with hk | hk
    · rw [habove k hk]
      exact hnearer.2.trans (sub_le_sub_right (hf.monotone hk) a)
    · rw [hbelow k hk]
      exact hnearer.1.trans (sub_le_sub_left (hf.monotone hk) a)
  · -- What is as near as the nearer neighbour is the other one.
    rcases Nat.lt_or_ge m k with hk | hk
    · have hvalue := hf.monotone hk
      rw [habove k hk] at heq
      obtain rfl : k = m + 1 := hf.injective (le_antisymm (by linarith) hvalue)
      obtain rfl : r = m := (hr.resolve_right fun h => hne h.1.symm).1
      rw [heq, hbelow r le_rfl]
    · have hvalue := hf.monotone hk
      rw [hbelow k hk] at heq
      obtain rfl : k = m := hf.injective (le_antisymm hvalue (by linarith))
      obtain rfl : r = k + 1 := (hr.resolve_left fun h => hne h.1.symm).1
      rw [heq, habove _ le_rfl]

/-- Where the two neighbours are multiples of `d * w`, a multiple of `w` between them is rounded by
its quotient. -/
theorem nearestPlace_roundQuotient (hf : StrictMono f) {base n d : ℕ} {w : ℚ} (hw : 0 < w)
    (hd : 0 < d) (hbase : base % 2 = 0) (hlow : f (base + n / d) = (n / d : ℕ) * (d * w))
    (hhigh : f (base + n / d + 1) = (n / d + 1 : ℕ) * (d * w))
    (hbound : base + Binary32.roundQuotient n d < bound) :
    NearestPlace f bound (n * w) (base + Binary32.roundQuotient n d) := by
  have hmod := Nat.mod_lt n hd
  have hsplit : (n : ℚ) = d * (n / d : ℕ) + (n % d : ℕ) := by
    exact_mod_cast (Nat.div_add_mod n d).symm
  -- The distances to the two neighbours are the remainder and what it lacks to the divisor.
  have hleft : n * w - f (base + n / d) = (n % d : ℕ) * w := by
    rw [hlow, hsplit]
    ring
  have hright : f (base + n / d + 1) - n * w = (d - n % d : ℕ) * w := by
    rw [hhigh, hsplit, Nat.cast_sub hmod.le]
    push_cast
    ring
  have hle : ∀ {i j : ℕ}, i ≤ j → (i : ℚ) * w ≤ j * w := fun hij =>
    mul_le_mul_of_nonneg_right (by exact_mod_cast hij) hw.le
  have hmiddle : n * w - f (base + n / d) = f (base + n / d + 1) - n * w → 2 * (n % d) = d := by
    intro heq
    rw [hleft, hright] at heq
    have hparts : n % d = d - n % d := by exact_mod_cast mul_right_cancel₀ hw.ne' heq
    omega
  unfold Binary32.roundQuotient at hbound ⊢
  refine nearestPlace_of_between (m := base + n / d) hf ?_ ?_ ?_ ?_ hbound
  · exact sub_nonneg.mp (hleft ▸ by positivity)
  · refine sub_pos.mp (hright ▸ mul_pos ?_ hw)
    exact_mod_cast Nat.sub_pos_of_lt hmod
  · rw [hleft, hright]
    dsimp only
    split
    · exact .inl ⟨rfl, hle (by omega)⟩
    · split
      · rcases Nat.mod_two_eq_zero_or_one (n / d) with heven | hodd
        · exact .inl ⟨by omega, hle (by omega)⟩
        · exact .inr ⟨by omega, hle (by omega)⟩
      · exact .inr ⟨rfl, hle (by omega)⟩
  · intro heq
    have htie := hmiddle heq
    dsimp only
    rw [if_neg (by omega), if_pos htie]
    omega

/-- There is only one such place: between two even ones lies a nearer one. -/
theorem NearestPlace.unique (hf : StrictMono f) {s : ℕ} (hr : NearestPlace f bound a r)
    (hs : NearestPlace f bound a s) : r = s := by
  have hlt : ∀ {i j : ℕ}, NearestPlace f bound a i → NearestPlace f bound a j → ¬ i < j := by
    intro i j hi hj hij
    have hsame := le_antisymm (hi.le j hj.lt) (hj.le i hi.lt)
    have hieven := hi.even j hj.lt hij.ne' hsame.symm
    have hjeven := hj.even i hi.lt hij.ne hsame
    have hleft : f i < f (i + 1) := hf (Nat.lt_succ_self i)
    have hright : f (i + 1) < f j := hf (by omega)
    have hbetween := hi.le (i + 1) (lt_of_le_of_lt hij hj.lt)
    -- The middle of two values is nearer to what lies between them.
    have hmiddle : a - f i = f j - a := by
      rcases abs_eq_abs.mp hsame with h | h
      · linarith
      · linarith
    have hpos : |a - f i| = a - f i := abs_of_nonneg (by linarith)
    rw [hpos] at hbetween
    rcases le_abs.mp hbetween with h | h <;> linarith
  rcases Nat.lt_trichotomy r s with h | h | h
  · exact absurd h (hlt hr hs)
  · exact h
  · exact absurd h (hlt hs hr)

end Sequence

theorem Binary32.le_significand {x : Binary32} (h : -149 < x.exponent) :
    twoPow 23 ≤ x.significand := by
  unfold Binary32.exponent at h
  unfold Binary32.significand
  split
  · omega
  · omega

theorem Binary32.absRat_nonneg (x : Binary32) : 0 ≤ x.absRat := by
  rw [absRat_eq_mul]
  exact mul_nonneg (Nat.cast_nonneg _) (zpow_pos two_pos _).le

theorem Binary32.abs_toRat (x : Binary32) : |x.toRat| = x.absRat := by
  unfold Binary32.toRat
  split
  · rw [abs_neg, abs_of_nonneg x.absRat_nonneg]
  · rw [abs_of_nonneg x.absRat_nonneg]

namespace Half

def isNegative (h : UInt16) : Bool :=
  twoPow 15 ≤ h.toNat

def magnitude (h : UInt16) : ℕ :=
  h.toNat % twoPow 15

def isFinite (h : UInt16) : Bool :=
  magnitude h < infinityMagnitude

def isInfinite (h : UInt16) : Bool :=
  magnitude h = infinityMagnitude

def isNaN (h : UInt16) : Bool :=
  infinityMagnitude < magnitude h

def mantissa (h : UInt16) : ℕ :=
  h.toNat % twoPow 10

/-- The value of a finite pattern without its sign, from the 5 bits of the exponent and the 10 bits
of the mantissa. Without an exponent there is no leading 1. -/
def absRat (h : UInt16) : ℚ :=
  let field := h.toNat / twoPow 10 % twoPow 5
  let fraction : ℚ := (mantissa h : ℕ) / twoPow 10
  if field = 0 then fraction * 2 ^ (-14 : ℤ) else (1 + fraction) * 2 ^ ((field : ℤ) - 15)

def toRat (h : UInt16) : ℚ :=
  if isNegative h then -absRat h else absRat h

example : toRat 0xc100 = -5 / 2 := by decide +kernel

example : toRat 0x0001 = 1 / 2 ^ 24 := by decide +kernel

theorem ext {h k : UInt16} (hsign : isNegative h = isNegative k)
    (hmagnitude : magnitude h = magnitude k) : h = k := by
  have h15 : twoPow 15 = 32768 := rfl
  have hh := h.toNat_lt
  have hk := k.toNat_lt
  refine UInt16.toNat_inj.mp ?_
  simp only [isNegative, magnitude, h15, decide_eq_decide] at hsign hmagnitude
  omega

/-- The value at a place of the sequence of patterns, where exponents have no bound. -/
def valueAt (m : ℕ) : ℚ :=
  let unit := m / 1024 - 1
  (m - unit * 1024 : ℕ) * 2 ^ ((unit : ℤ) - 24)

theorem valueAt_add {u j : ℕ} (hj : j ≤ 2048) (hu : u = 0 ∨ 1024 ≤ j) :
    valueAt (u * 1024 + j) = j * 2 ^ ((u : ℤ) - 24) := by
  rcases hj.lt_or_eq with hj | rfl
  · have hunit : (u * 1024 + j) / 1024 - 1 = u := by omega
    rw [valueAt, hunit, Nat.add_sub_cancel_left]
  · have hunit : (u * 1024 + 2048) / 1024 - 1 = u + 1 := by omega
    have hrest : u * 1024 + 2048 - (u + 1) * 1024 = 1024 := by omega
    have hpower : (2 : ℚ) ^ (((u + 1 : ℕ) : ℤ) - 24) = 2 ^ ((u : ℤ) - 24) * 2 := by
      rw [← zpow_add_one₀ two_ne_zero]
      congr 1
      push_cast
      ring
    rw [valueAt, hunit, hrest, hpower]
    push_cast
    ring

theorem strictMono_valueAt : StrictMono valueAt := by
  refine strictMono_nat_of_lt_succ fun m => ?_
  obtain ⟨u, j, rfl, hj, hu⟩ : ∃ u j, m = u * 1024 + j ∧ j < 2048 ∧ (u = 0 ∨ 1024 ≤ j) :=
    ⟨m / 1024 - 1, m - (m / 1024 - 1) * 1024, by omega, by omega, by omega⟩
  rw [Nat.add_assoc, valueAt_add hj.le hu, valueAt_add hj (by omega)]
  exact mul_lt_mul_of_pos_right (by exact_mod_cast Nat.lt_succ_self j) (zpow_pos two_pos _)

theorem absRat_eq_valueAt (h : UInt16) : absRat h = valueAt (magnitude h) := by
  have h5 : twoPow 5 = 32 := rfl
  have h10 : twoPow 10 = 1024 := rfl
  have h15 : twoPow 15 = 32768 := rfl
  have hfield : h.toNat / twoPow 10 % twoPow 5 = magnitude h / 1024 := by
    rw [magnitude, h5, h10, h15]
    omega
  have hmantissa : mantissa h = magnitude h % 1024 := by
    rw [mantissa, magnitude, h10, h15]
    omega
  rw [absRat, hfield, hmantissa, h10, valueAt]
  generalize magnitude h = m
  by_cases hzero : m / 1024 = 0
  · have hsmall : m % 1024 = m := by omega
    rw [if_pos hzero, hzero, hsmall]
    norm_num
    ring
  · have hrest : m - (m / 1024 - 1) * 1024 = m % 1024 + 1024 := by omega
    have hpower : (2 : ℚ) ^ (((m / 1024 : ℕ) : ℤ) - 15) =
        2 ^ (((m / 1024 - 1 : ℕ) : ℤ) - 24) * 2 ^ 10 := by
      rw [← zpow_natCast, ← zpow_add₀ two_ne_zero]
      congr 1
      omega
    rw [if_neg hzero, hrest, hpower]
    push_cast
    ring

theorem fields_ofNat (negative : Bool) {m : ℕ} (hm : m < twoPow 15) :
    isNegative (UInt16.ofNat ((if negative then twoPow 15 else 0) + m)) = negative ∧
      magnitude (UInt16.ofNat ((if negative then twoPow 15 else 0) + m)) = m := by
  have h15 : twoPow 15 = 32768 := rfl
  rw [h15] at hm
  have hlt : (if negative then twoPow 15 else 0) + m < 65536 := by
    rw [h15]
    split <;> omega
  rw [isNegative, magnitude, UInt16.toNat_ofNat_of_lt' hlt, h15]
  cases negative with
  | false => simpa using hm
  | true => simpa using hm

theorem fields_ofBinary32 (x : Binary32) :
    isNegative (ofBinary32 x) = x.isNegative ∧ magnitude (ofBinary32 x) =
      if x.isNaN then 0x7e00 else if x.isInfinite then infinityMagnitude
      else min (place x) infinityMagnitude := by
  have hlt : (if x.isNaN then 0x7e00 else if x.isInfinite then infinityMagnitude
      else min (place x) infinityMagnitude) < twoPow 15 := by
    split
    · decide
    · split
      · decide
      · exact Nat.lt_of_le_of_lt (Nat.min_le_right _ _) (by decide)
  rw [ofBinary32_eq_rounded]
  exact fields_ofNat x.isNegative hlt

theorem nearestPlace_place (x : Binary32) {bound : ℕ} (hbound : place x < bound) :
    NearestPlace valueAt bound x.absRat (place x) := by
  have h13 : twoPow 13 = 8192 := rfl
  have h23 : twoPow 23 = 8388608 := rfl
  have h24 : twoPow 24 = 16777216 := rfl
  have hlt := x.significand_lt
  have hlow : -149 ≤ x.exponent := by
    unfold Binary32.exponent
    omega
  have hnormal := @Binary32.le_significand x
  rw [Binary32.absRat_eq_mul]
  unfold place at hbound ⊢
  generalize x.significand = n at *
  generalize x.exponent = e at *
  -- The step between neighbours is `2 ^ (u - 24)`, which is `2 ^ s` times the weight of the last
  -- bit of `x`.
  obtain ⟨u, hu⟩ : ∃ u : ℕ, max (e + 13) (-24) = (u : ℤ) - 24 :=
    ⟨(max (e + 13) (-24) + 24).toNat, by omega⟩
  obtain ⟨s, hs⟩ : ∃ s : ℕ, (u : ℤ) - 24 - e = s := ⟨((u : ℤ) - 24 - e).toNat, by omega⟩
  simp only [hu, hs, Int.toNat_natCast, sub_add_cancel] at hbound ⊢
  have hd : twoPow 13 ≤ twoPow s := twoPow_le (by omega)
  have hquotient : n / twoPow s < 2048 := by
    rw [Nat.div_lt_iff_lt_mul (twoPow_pos s)]
    omega
  -- Above the lowest exponent the leading 1 is in the quotient, so both neighbours have that
  -- exponent.
  have hunit : u = 0 ∨ 1024 ≤ n / twoPow s := by
    rcases Nat.eq_zero_or_pos u with hzero | hpos
    · exact .inl hzero
    · obtain rfl : s = 13 := by omega
      refine .inr ((Nat.le_div_iff_mul_le (twoPow_pos 13)).mpr ?_)
      have := hnormal (by omega)
      omega
  have hpower : (2 : ℚ) ^ ((u : ℤ) - 24) = twoPow s * 2 ^ e := by
    rw [show (u : ℤ) - 24 = s + e by omega, zpow_add₀ two_ne_zero, zpow_natCast]
    exact congrArg (· * (2 : ℚ) ^ e) (Nat.cast_pow 2 s).symm
  have hlow := valueAt_add hquotient.le hunit
  have hhigh := valueAt_add (u := u) (j := n / twoPow s + 1) hquotient (by omega)
  rw [hpower] at hlow
  rw [hpower, ← Nat.add_assoc] at hhigh
  exact nearestPlace_roundQuotient strictMono_valueAt (zpow_pos two_pos e) (twoPow_pos s)
    (by omega) hlow hhigh hbound

/-- The last place below infinity is odd, so the middle between it and infinity goes to infinity. -/
theorem place_lt_iff (x : Binary32) : place x < infinityMagnitude ↔ x.absRat < 65520 := by
  have hlast : valueAt 0x7bff = 65504 := by decide +kernel
  have hinfinity : valueAt 0x7c00 = 65536 := by decide +kernel
  have hnearest : NearestPlace valueAt (max (place x) 0x7c00 + 1) x.absRat (place x) :=
    nearestPlace_place x (by omega)
  have htolast := hnearest.le 0x7bff (by omega)
  have htoinfinity := hnearest.le 0x7c00 (by omega)
  rw [hlast] at htolast
  rw [hinfinity] at htoinfinity
  constructor
  · intro hlt
    by_contra! hfar
    have hvalue : valueAt (place x) ≤ 65504 :=
      hlast ▸ strictMono_valueAt.monotone (Nat.le_of_lt_succ hlt)
    rw [abs_of_nonneg (by linarith)] at htoinfinity
    have hbelow : x.absRat - 65536 < 0 := by
      by_contra! hbeyond
      rw [abs_of_nonneg hbeyond] at htoinfinity
      linarith
    rw [abs_of_neg hbelow] at htoinfinity
    -- Only the middle is left, as near to infinity as to the odd place.
    have hplace : place x = 0x7bff := strictMono_valueAt.injective (by linarith)
    have htie : |x.absRat - valueAt 0x7c00| = |x.absRat - valueAt (place x)| := by
      rw [hinfinity, abs_of_neg hbelow, hplace, hlast, abs_of_nonneg (by linarith)]
      linarith
    have heven := hnearest.even 0x7c00 (by omega) (by omega) htie
    omega
  · intro hnear
    by_contra! hle
    have hvalue : 65536 ≤ valueAt (place x) := hinfinity ▸ strictMono_valueAt.monotone hle
    rw [abs_of_neg (by linarith)] at htolast
    rcases abs_cases (x.absRat - 65504) with ⟨habs, _⟩ | ⟨habs, _⟩ <;> linarith

/-- Of the finite patterns `h` has the value nearest to `q`; another value is as near only if the
mantissa of `h` is even. -/
structure IsNearest (q : ℚ) (h : UInt16) : Prop where
  finite : isFinite h
  le : ∀ k, isFinite k → |q - toRat h| ≤ |q - toRat k|
  even : ∀ k, isFinite k → toRat k ≠ toRat h → |q - toRat k| = |q - toRat h| → mantissa h % 2 = 0

def signed (negative : Bool) (a : ℚ) : ℚ :=
  if negative then -a else a

theorem abs_signed_sub (negative : Bool) (a b : ℚ) :
    |signed negative a - signed negative b| = |a - b| := by
  cases negative with
  | false => rfl
  | true =>
    show |-a - -b| = |a - b|
    rw [neg_sub_neg, abs_sub_comm]

theorem abs_signed_sub_not {a b : ℚ} (ha : 0 ≤ a) (hb : 0 ≤ b) (negative : Bool) :
    |signed negative a - signed (!negative) b| = a + b := by
  have hsum := abs_of_nonneg (add_nonneg ha hb)
  cases negative with
  | false =>
    show |a - -b| = a + b
    rw [sub_neg_eq_add, hsum]
  | true =>
    show |-a - b| = a + b
    rw [← neg_add', abs_neg, hsum]

theorem toRat_eq_signed (h : UInt16) : toRat h = signed (isNegative h) (valueAt (magnitude h)) := by
  rw [toRat, absRat_eq_valueAt, signed]

theorem mantissa_mod_two (h : UInt16) : mantissa h % 2 = magnitude h % 2 := by
  have h10 : twoPow 10 = 1024 := rfl
  have h15 : twoPow 15 = 32768 := rfl
  rw [mantissa, magnitude, h10, h15]
  omega

theorem valueAt_nonneg (m : ℕ) : 0 ≤ valueAt m :=
  mul_nonneg (Nat.cast_nonneg _) (zpow_pos two_pos _).le

theorem exists_finite (negative : Bool) {m : ℕ} (hm : m < infinityMagnitude) :
    ∃ h, isFinite h ∧ toRat h = signed negative (valueAt m) := by
  obtain ⟨hsign, hmagnitude⟩ := fields_ofNat negative (m := m) (hm.trans (by decide))
  generalize UInt16.ofNat ((if negative then twoPow 15 else 0) + m) = h at hsign hmagnitude
  subst hsign hmagnitude
  exact ⟨h, decide_eq_true hm, toRat_eq_signed h⟩

/-- The pattern of the number's own sign is nearest exactly if its place is. -/
theorem isNearest_iff_nearestPlace {a : ℚ} (ha : 0 ≤ a) (h : UInt16) :
    IsNearest (signed (isNegative h) a) h ↔
      NearestPlace valueAt infinityMagnitude a (magnitude h) := by
  constructor
  · intro hnearest
    refine ⟨of_decide_eq_true hnearest.finite, fun k hk => ?_, fun k hk hne heq => ?_⟩
    · obtain ⟨p, hp, hvalue⟩ := exists_finite (isNegative h) hk
      have hle := hnearest.le p hp
      rwa [hvalue, toRat_eq_signed, abs_signed_sub, abs_signed_sub] at hle
    · obtain ⟨p, hp, hvalue⟩ := exists_finite (isNegative h) hk
      rw [← mantissa_mod_two]
      refine hnearest.even p hp ?_ ?_
      · intro hsame
        have hdistance := abs_signed_sub (isNegative h) (valueAt k) (valueAt (magnitude h))
        rw [← hvalue, ← toRat_eq_signed, hsame, sub_self, abs_zero] at hdistance
        exact hne (strictMono_valueAt.injective
          (sub_eq_zero.mp (abs_eq_zero.mp hdistance.symm)))
      · rw [hvalue, toRat_eq_signed, abs_signed_sub, abs_signed_sub, heq]
  · intro hplace
    have hzero : valueAt 0 = 0 := by simp [valueAt]
    have hown : |signed (isNegative h) a - toRat h| = |a - valueAt (magnitude h)| := by
      rw [toRat_eq_signed, abs_signed_sub]
    have hother : ∀ k, isNegative k ≠ isNegative h →
        |signed (isNegative h) a - toRat k| = a + valueAt (magnitude k) := by
      intro k hsign
      rw [toRat_eq_signed, Bool.eq_not_of_ne hsign,
        abs_signed_sub_not ha (valueAt_nonneg _)]
    have htozero := hplace.le 0 (by decide)
    rw [hzero, sub_zero, abs_of_nonneg ha] at htozero
    refine ⟨decide_eq_true hplace.lt, fun k hk => ?_, fun k hk hne heq => ?_⟩
    · by_cases hsign : isNegative k = isNegative h
      · rw [hown, toRat_eq_signed k, hsign, abs_signed_sub]
        exact hplace.le _ (of_decide_eq_true hk)
      · rw [hown, hother k hsign]
        exact htozero.trans (le_add_of_nonneg_right (valueAt_nonneg _))
    · rw [mantissa_mod_two]
      by_cases hsign : isNegative k = isNegative h
      · rw [hown, toRat_eq_signed k, hsign, abs_signed_sub] at heq
        refine hplace.even _ (of_decide_eq_true hk) ?_ heq
        intro hsame
        exact hne (by rw [toRat_eq_signed, toRat_eq_signed, hsign, hsame])
      · -- With the other sign only zero can be as near.
        rw [hown, hother k hsign] at heq
        have hpositive := valueAt_nonneg (magnitude k)
        by_cases hmagnitude : magnitude h = 0
        · rw [hmagnitude]
        · refine hplace.even 0 (by decide) (Ne.symm hmagnitude) ?_
          rw [hzero, sub_zero, abs_of_nonneg ha]
          linarith

/-- What a number with the given sign and value is rounded to. -/
structure IsRounding (negative : Bool) (q : ℚ) (h : UInt16) : Prop where
  sign : isNegative h = negative
  nearest : |q| < 65520 → IsNearest q h
  infinite : 65520 ≤ |q| → isInfinite h

theorem magnitude_ofBinary32 {x : Binary32} (hx : x.isFinite) :
    magnitude (ofBinary32 x) = min (place x) infinityMagnitude := by
  have hlt : x.magnitude < Binary32.infinityMagnitude := of_decide_eq_true hx
  have hnan : x.isNaN = false := by simp [Binary32.isNaN, hlt.le]
  have hinfinite : x.isInfinite = false := by simp [Binary32.isInfinite, hlt.ne]
  rw [(fields_ofBinary32 x).2, hnan, hinfinite]
  rfl

theorem isRounding_ofBinary32 {x : Binary32} (hx : x.isFinite) :
    IsRounding x.isNegative x.toRat (ofBinary32 x) := by
  have hsign := (fields_ofBinary32 x).1
  have hmagnitude := magnitude_ofBinary32 hx
  refine ⟨hsign, fun hnear => ?_, fun hfar => ?_⟩
  · rw [x.abs_toRat, ← place_lt_iff] at hnear
    rw [min_eq_left hnear.le] at hmagnitude
    show IsNearest (signed x.isNegative x.absRat) (ofBinary32 x)
    rw [← hsign, isNearest_iff_nearestPlace x.absRat_nonneg, hmagnitude]
    exact nearestPlace_place x hnear
  · rw [x.abs_toRat, ← not_lt, ← place_lt_iff, not_lt] at hfar
    rw [isInfinite, hmagnitude, min_eq_right hfar]
    rfl

theorem IsRounding.unique {x : Binary32} {h k : UInt16} (hh : IsRounding x.isNegative x.toRat h)
    (hk : IsRounding x.isNegative x.toRat k) : h = k := by
  refine ext (hh.sign.trans hk.sign.symm) ?_
  rcases lt_or_ge |x.toRat| 65520 with hnear | hfar
  · have hplace : ∀ {p}, IsRounding x.isNegative x.toRat p →
        NearestPlace valueAt infinityMagnitude x.absRat (magnitude p) := by
      intro p hp
      rw [← isNearest_iff_nearestPlace x.absRat_nonneg, hp.sign]
      exact hp.nearest hnear
    exact (hplace hh).unique strictMono_valueAt (hplace hk)
  · have hinfinite := of_decide_eq_true (hh.infinite hfar)
    exact hinfinite.trans (of_decide_eq_true (hk.infinite hfar)).symm

/-- A finite number is rounded to the nearest pattern of its sign, where the middle of two goes to
the even one and numbers from 65520 on go to infinity; infinities and NaNs stay what they are. -/
theorem ofBinary32_rounds (x : Binary32) :
    (x.isFinite → ∀ h, ofBinary32 x = h ↔ IsRounding x.isNegative x.toRat h) ∧
      (x.isInfinite → ∀ h, ofBinary32 x = h ↔ isNegative h = x.isNegative ∧ isInfinite h) ∧
        (x.isNaN → isNaN (ofBinary32 x)) := by
  obtain ⟨hsign, hmagnitude⟩ := fields_ofBinary32 x
  refine ⟨fun hfinite h => ⟨?_, ?_⟩, fun hinfinite h => ?_, fun hnan => ?_⟩
  · rintro rfl
    exact isRounding_ofBinary32 hfinite
  · exact (isRounding_ofBinary32 hfinite).unique
  · have hequal : x.magnitude = Binary32.infinityMagnitude := of_decide_eq_true hinfinite
    have hnan : x.isNaN = false := by simp [Binary32.isNaN, hequal]
    rw [hnan, hinfinite] at hmagnitude
    constructor
    · rintro rfl
      exact ⟨hsign, decide_eq_true hmagnitude⟩
    · rintro ⟨hnegative, hmost⟩
      exact ext (hsign.trans hnegative.symm) (hmagnitude.trans (of_decide_eq_true hmost).symm)
  · rw [if_pos hnan] at hmagnitude
    rw [isNaN, hmagnitude]
    rfl

/-- Half of the least number is rounded to zero, the number after it is not, and -65520 is rounded
to infinity. -/
theorem ofBinary32_rounds_at_ends :
    IsRounding false (1 / 2 ^ 25) 0x0000 ∧ IsRounding false ((2 ^ 23 + 1) / 2 ^ 48) 0x0001 ∧
      IsRounding true (-65520) 0xfc00 ∧ ofBinary32 ⟨0x7f800000⟩ = 0x7c00 ∧
        isNaN (ofBinary32 ⟨0xff800001⟩) := by
  have hhalf : (⟨0x33000000⟩ : Binary32).toRat = 1 / 2 ^ 25 := by decide +kernel
  have hnext : (⟨0x33000001⟩ : Binary32).toRat = (2 ^ 23 + 1) / 2 ^ 48 := by decide +kernel
  have hlarge : (⟨0xc77ff000⟩ : Binary32).toRat = -65520 := by decide +kernel
  refine ⟨?_, ?_, ?_, ?_, ?_⟩
  · rw [← hhalf]
    exact ((ofBinary32_rounds ⟨0x33000000⟩).1 (by decide) 0x0000).mp (by decide +kernel)
  · rw [← hnext]
    exact ((ofBinary32_rounds ⟨0x33000001⟩).1 (by decide) 0x0001).mp (by decide +kernel)
  · rw [← hlarge]
    exact ((ofBinary32_rounds ⟨0xc77ff000⟩).1 (by decide) 0xfc00).mp (by decide +kernel)
  · exact ((ofBinary32_rounds ⟨0x7f800000⟩).2.1 (by decide) 0x7c00).mpr (by decide +kernel)
  · exact (ofBinary32_rounds ⟨0xff800001⟩).2.2 (by decide)

end Half

end Shader
