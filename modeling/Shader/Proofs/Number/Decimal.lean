import Shader.Proofs.Number.Rounding
import Shader.Proofs.Numeral

/-! Decimal texts of binary32 numbers. What is written for a finite number reads back as that
number. -/

namespace Shader

theorem tenPow_add (a b : Nat) : tenPow (a + b) = tenPow a * tenPow b :=
  Nat.pow_add 10 a b

theorem tenPow_pos (n : Nat) : 0 < tenPow n :=
  Nat.pow_pos (by decide)

theorem tenPow_le {a b : Nat} (h : a ≤ b) : tenPow a ≤ tenPow b :=
  Nat.pow_le_pow_right (by decide) h

theorem tenPow_eq (n : Nat) : tenPow n = Nat.pow 5 n * twoPow n :=
  Nat.mul_pow 5 2 n

namespace Binary32

theorem toNat_make (negative : Bool) {m : Nat} (h : m < twoPow 31) :
    (make negative m).bits.toNat = m + if negative then twoPow 31 else 0 := by
  have h31 : twoPow 31 = 2147483648 := by decide
  rw [h31] at h ⊢
  have hlt : (m + if negative then 2147483648 else 0) < 4294967296 := by split <;> omega
  simp only [make, h31, UInt32.toNat_ofNat']
  exact Nat.mod_eq_of_lt hlt

theorem magnitude_make (negative : Bool) {m : Nat} (h : m < twoPow 31) :
    (make negative m).magnitude = m := by
  rw [magnitude, toNat_make negative h]
  split
  · rw [Nat.add_mod_right, Nat.mod_eq_of_lt h]
  · exact Nat.mod_eq_of_lt h

theorem magnitude_lt (x : Binary32) : x.magnitude < twoPow 31 :=
  Nat.mod_lt _ (twoPow_pos 31)

theorem make_magnitude (x : Binary32) : make x.isNegative x.magnitude = x := by
  have h31 : twoPow 31 = 2147483648 := by decide
  obtain ⟨bits⟩ := x
  have hbits : bits.toNat < 4294967296 := bits.toNat_lt
  have hsum : bits.toNat % 2147483648 + (if 2147483648 ≤ bits.toNat then 2147483648 else 0) =
      bits.toNat := by
    split <;> omega
  simp only [make, isNegative, magnitude, h31, decide_eq_true_eq, hsum, UInt32.ofNat_toNat]

theorem neg_make {m : Nat} (h : m < twoPow 31) : (make false m).neg = make true m := by
  have h31 : twoPow 31 = 2147483648 := by decide
  have hbits := toNat_make false h
  have hmade := toNat_make true h
  rw [h31] at h hmade
  have hlow : (m ^^^ 2147483648) % 2147483648 = m % 2147483648 ^^^ 0 :=
    @Nat.xor_mod_two_pow m 2147483648 31
  have hhigh : (m ^^^ 2147483648) / 2147483648 = m / 2147483648 ^^^ 1 :=
    @Nat.xor_div_two_pow m 2147483648 31
  rw [Nat.xor_zero] at hlow
  rw [Nat.div_eq_of_lt h, Nat.zero_xor] at hhigh
  have hneg : (make false m).neg.bits.toNat = m ^^^ 2147483648 := by
    rw [neg, UInt32.toNat_xor, hbits]
    rfl
  have hsame : (make false m).neg.bits.toNat = (make true m).bits.toNat := by
    rw [hneg, hmade, if_pos rfl]
    omega
  exact congrArg Binary32.mk (UInt32.toNat_inj.mp hsame)

theorem roundMagnitude_lt (n d : Nat) : roundMagnitude n d < twoPow 31 := by
  have hinf : infinityMagnitude < twoPow 31 := by decide
  unfold roundMagnitude
  split
  · exact twoPow_pos 31
  · exact Nat.lt_of_le_of_lt (Nat.min_le_right _ _) hinf

end Binary32

namespace Decimal

open Binary32 (AtLeast roundMagnitude)

def nearest (digits : Nat) (power : Int) : Nat :=
  roundMagnitude (digits * tenPow power.toNat) (tenPow (-power).toNat)

theorem nearest_shift (n k : Nat) (power : Int) :
    nearest (n * tenPow k) (power - k) = nearest n power := by
  have hne (m : Nat) : tenPow m ≠ 0 := Nat.ne_of_gt (tenPow_pos m)
  refine Binary32.roundMagnitude_congr (hne _) (hne _) ?_
  simp only [Nat.mul_assoc, ← tenPow_add]
  congr 2
  omega

theorem tenPow_log2_le {n : Nat} (h : n ≠ 0) : tenPow (n.log2 / 4) ≤ n := by
  have hsixteen : tenPow (n.log2 / 4) ≤ twoPow (4 * (n.log2 / 4)) := by
    generalize n.log2 / 4 = k
    induction k with
    | zero => exact Nat.le_refl _
    | succ k ih =>
      rw [Nat.mul_succ, twoPow_add, tenPow_succ]
      exact Nat.mul_le_mul ih (by decide)
  exact Nat.le_trans hsixteen (Nat.le_trans (twoPow_le (by omega)) (twoPow_log2_le h))

theorem nearest_big {digits : Nat} {power : Int} (hne : digits ≠ 0)
    (h : 60 < (digits.log2 / 4 : Nat) + power) :
    nearest digits power = Binary32.infinityMagnitude := by
  have hd : tenPow (-power).toNat ≠ 0 := Nat.ne_of_gt (tenPow_pos _)
  have hn : digits * tenPow power.toNat ≠ 0 := Nat.mul_ne_zero hne (Nat.ne_of_gt (tenPow_pos _))
  refine Binary32.roundMagnitude_big hn hd ?_
  rw [Binary32.atLeast_iff (a := 128) (b := 0) (by omega), twoPow_zero, Nat.mul_one]
  calc tenPow (-power).toNat * twoPow 128
      ≤ tenPow (-power).toNat * tenPow 61 := Nat.mul_le_mul_left _ (by decide)
    _ = tenPow ((-power).toNat + 61) := (tenPow_add _ _).symm
    _ ≤ tenPow (digits.log2 / 4 + power.toNat) := tenPow_le (by omega)
    _ = tenPow (digits.log2 / 4) * tenPow power.toNat := tenPow_add _ _
    _ ≤ digits * tenPow power.toNat := Nat.mul_le_mul_right _ (tenPow_log2_le hne)

theorem nearest_small {digits size : Nat} {power : Int} (hlt : digits < tenPow size)
    (h : (size : Int) + power < -60) : nearest digits power = 0 := by
  refine Binary32.roundMagnitude_small (Nat.ne_of_gt (tenPow_pos _)) ?_
  rw [Binary32.atLeast_iff (a := 0) (b := 150) (by omega), twoPow_zero, Nat.mul_one, Nat.not_le]
  have hpower : power.toNat = 0 := by omega
  rw [hpower, tenPow_zero, Nat.mul_one]
  calc digits * twoPow 150
      ≤ digits * tenPow 61 := Nat.mul_le_mul_left _ (by decide)
    _ < tenPow size * tenPow 61 := Nat.mul_lt_mul_of_pos_right hlt (tenPow_pos _)
    _ = tenPow (size + 61) := (tenPow_add _ _).symm
    _ ≤ tenPow (-power).toNat := tenPow_le (by omega)

/-- The bounds that spare the power of ten change nothing. -/
theorem toBinary32_eq_make {digits size : Nat} (hlt : digits < tenPow size) (negative : Bool)
    (power : Int) :
    toBinary32 negative digits size power = .make negative (nearest digits power) := by
  unfold toBinary32
  split
  · rename_i hzero
    simp [nearest, hzero, roundMagnitude]
  · rename_i hne
    split
    · rename_i hbig
      rw [nearest_big hne hbig]
    · split
      · rename_i hsmall
        rw [nearest_small hlt hsmall]
      · rfl

/-- The digits are those of `x`. -/
structure Digits.AreOf (d : Digits) (x : Binary32) : Prop where
  ne_zero : d.digits ≠ 0
  nearest_eq : nearest d.digits d.power = x.magnitude

variable {x : Binary32}

theorem Digits.areOf_of_toBinary32 {d : Digits} (hfinite : x.isFinite = true)
    (hzero : x.isZero = false) (h : d.toBinary32 x.isNegative = x) : d.AreOf x := by
  have hfinite : x.magnitude < Binary32.infinityMagnitude := of_decide_eq_true hfinite
  simp only [Binary32.isZero, beq_eq_false_iff_ne] at hzero
  unfold Digits.toBinary32 Decimal.toBinary32 at h
  split at h
  · rw [← h, Binary32.magnitude_make _ (by decide)] at hzero
    exact absurd rfl hzero
  · rename_i hne
    split at h
    · rw [← h, Binary32.magnitude_make _ (by decide)] at hfinite
      exact absurd hfinite (Nat.lt_irrefl _)
    · split at h
      · rw [← h, Binary32.magnitude_make _ (by decide)] at hzero
        exact absurd rfl hzero
      · refine ⟨hne, ?_⟩
        rw [← h, Binary32.ofRatio, Binary32.magnitude_make _ (Binary32.roundMagnitude_lt _ _)]
        rfl

theorem search_toBinary32 {n d : Nat} {point : Int} {size steps : Nat} {c : Digits}
    (h : search x n d point size steps = some c) : c.toBinary32 x.isNegative = x := by
  induction steps generalizing size with
  | zero => cases h
  | succ steps ih =>
    simp only [search] at h
    split at h
    · rename_i hfind
      obtain rfl := Option.some.inj h
      simpa using List.find?_some hfind
    · exact ih h

theorem exact_areOf (hfinite : x.isFinite = true) (hzero : x.isZero = false) :
    (exact x).AreOf x := by
  have hnearest : nearest (exact x).digits (exact x).power = x.magnitude := by
    rw [← Binary32.roundMagnitude_exact hfinite hzero]
    refine Binary32.roundMagnitude_congr (Nat.ne_of_gt (tenPow_pos _))
      (Nat.ne_of_gt (twoPow_pos _)) ?_
    simp only [exact, Int.neg_neg, Int.toNat_natCast, Int.toNat_neg_natCast, tenPow_zero,
      Nat.mul_one]
    rw [tenPow_eq, Nat.mul_assoc]
  refine ⟨fun hdigits => ?_, hnearest⟩
  rw [hdigits, nearest, Nat.zero_mul, roundMagnitude, if_pos rfl] at hnearest
  simp [Binary32.isZero, ← hnearest] at hzero

/-- The digits that are written for a number are those of the number. -/
theorem shortest_areOf (hfinite : x.isFinite = true) (hzero : x.isZero = false) :
    (shortest x).AreOf x := by
  unfold shortest
  dsimp only
  cases hsearch : search x (ratio x).1 (ratio x).2
      (decimalPoint (ratio x).1 (ratio x).2 (-46) 90) 1 9 with
  | none => exact exact_areOf hfinite hzero
  | some c => exact Digits.areOf_of_toBinary32 hfinite hzero (search_toBinary32 hsearch)

theorem foldl_digits (cs : List Char) (n : Nat) :
    cs.foldl (fun n c => 10 * n + digitValue c) n = n * tenPow cs.length + natOfDigits cs := by
  induction cs generalizing n with
  | nil => simp [natOfDigits, tenPow_zero]
  | cons c cs ih =>
    rw [natOfDigits, List.foldl_cons, List.foldl_cons, ih, ih (10 * 0 + _), List.length_cons,
      tenPow_succ, Nat.add_mul, Nat.mul_comm 10 n, Nat.mul_assoc n, Nat.mul_comm 10, Nat.add_assoc]
    simp

theorem natOfDigits_append (as bs : List Char) :
    natOfDigits (as ++ bs) = natOfDigits as * tenPow bs.length + natOfDigits bs := by
  rw [natOfDigits, List.foldl_append, foldl_digits]
  rfl

theorem natOfDigits_replicate (k : Nat) : natOfDigits (List.replicate k '0') = 0 := by
  induction k with
  | zero => rfl
  | succ k ih =>
    rw [List.replicate_succ', natOfDigits_append, ih]
    rfl

theorem digitValue_lt {c : Char} (h : isDigit c = true) : digitValue c < 10 := by
  simp only [isDigit, Bool.and_eq_true, decide_eq_true_eq] at h
  have hnine : c.toNat ≤ 57 := UInt32.le_iff_toNat_le.mp h.2
  have hzero : '0'.toNat = 48 := rfl
  unfold digitValue
  omega

theorem natOfDigits_lt {cs : List Char} (h : ∀ c ∈ cs, isDigit c = true) :
    natOfDigits cs < tenPow cs.length := by
  induction cs with
  | nil => exact tenPow_pos 0
  | cons c cs ih =>
    have hrest := ih fun d hd => h d (List.mem_cons_of_mem _ hd)
    have hfirst : digitValue c * tenPow cs.length ≤ 9 * tenPow cs.length :=
      Nat.mul_le_mul_right _ (Nat.le_of_lt_succ (digitValue_lt (h c List.mem_cons_self)))
    have hone : natOfDigits [c] = digitValue c := Nat.zero_add _
    have hcons : natOfDigits (c :: cs) = digitValue c * tenPow cs.length + natOfDigits cs :=
      hone ▸ natOfDigits_append [c] cs
    rw [hcons, List.length_cons, tenPow_succ]
    omega

theorem significant_eq (digits : List Char) (power : Int) :
    ∃ k : Nat, digits = (significant digits power).1 ++ List.replicate k '0' ∧
      (significant digits power).2 = power + k := by
  have hzeros : (digits.reverse.takeWhile (· = '0')).reverse =
      List.replicate (digits.reverse.takeWhile (· = '0')).length '0' := by
    refine List.eq_replicate_iff.mpr ⟨by simp, fun c hc => ?_⟩
    have hall := List.all_eq_true.mp (List.all_takeWhile (p := (· = '0')) (l := digits.reverse))
    simpa using hall c (List.mem_reverse.mp hc)
  have hsplit : digits = (significant digits power).1 ++
      List.replicate (digits.reverse.takeWhile (· = '0')).length '0' := by
    rw [← hzeros, significant, ← List.reverse_append, List.takeWhile_append_dropWhile,
      List.reverse_reverse]
  refine ⟨_, hsplit, ?_⟩
  have hlength := congrArg List.length hsplit
  simp only [List.length_append, List.length_replicate] at hlength
  simp only [significant] at hlength ⊢
  omega

theorem isPower_toString (i : Int) : IsPower ('e' :: (toString i).toList) i := by
  cases i with
  | ofNat n =>
    have h := isWhole_toString n
    have hpower := IsPower.positive h.ne_nil h.isDigit_of_mem
    rw [h.value] at hpower
    exact hpower
  | negSucc n =>
    have h := isWhole_toString (n + 1)
    have hpower := IsPower.negative h.ne_nil h.isDigit_of_mem
    rw [h.value] at hpower
    rw [toString_negSucc]
    exact hpower

/-- The text is a numeral of the value `digits * 10 ^ power`. -/
def Denotes (text : List Char) (digits : Nat) (power : Int) : Prop :=
  ∃ ds p, IsNumeral text ds p ∧ nearest (natOfDigits ds) p = nearest digits power

section Layout

variable {ds : List Char} {q : Int}

theorem isDigit_replicate (k : Nat) : ∀ c ∈ List.replicate k '0', isDigit c = true :=
  fun _ hc => List.eq_of_mem_replicate hc ▸ by decide

theorem denotes_whole (hne : ds ≠ []) (hd : ∀ c ∈ ds, isDigit c = true) (hq : 0 ≤ q) :
    Denotes (ds ++ List.replicate q.toNat '0' ++ ['.', '0']) (natOfDigits ds) q := by
  have hw : ∀ c ∈ ds ++ List.replicate q.toNat '0', isDigit c = true :=
    fun c hc => (List.mem_append.mp hc).elim (hd c) (isDigit_replicate _ c)
  refine ⟨_, _, .point (by simp [hne]) hw (isDigit_replicate 1) .none, ?_⟩
  rw [List.append_assoc, List.replicate_append_replicate, natOfDigits_append,
    natOfDigits_replicate, List.length_replicate, Nat.add_zero, List.length_replicate,
    show (0 : Int) - (1 : Nat) = q - (q.toNat + 1 : Nat) by omega, nearest_shift]

theorem denotes_among (hd : ∀ c ∈ ds, isDigit c = true) (hq : q < 0) {w : Nat} (hpos : 0 < w)
    (hw : (w : Int) = q + ds.length) :
    Denotes (ds.take w ++ '.' :: ds.drop w) (natOfDigits ds) q := by
  have hne : ds.take w ≠ [] := by
    rw [← List.length_pos_iff, List.length_take]
    omega
  have htake : ∀ c ∈ ds.take w, isDigit c = true := fun c hc => hd c (List.mem_of_mem_take hc)
  have hdrop : ∀ c ∈ ds.drop w, isDigit c = true := fun c hc => hd c (List.mem_of_mem_drop hc)
  have hnumeral := IsNumeral.point hne htake hdrop .none
  rw [List.append_nil, List.take_append_drop] at hnumeral
  refine ⟨_, _, hnumeral, ?_⟩
  congr 1
  rw [List.length_drop]
  omega

theorem denotes_below (hd : ∀ c ∈ ds, isDigit c = true) (hlead : q + ds.length - 1 < 0) :
    Denotes ('0' :: '.' :: List.replicate (-(q + ds.length - 1) - 1).toNat '0' ++ ds)
      (natOfDigits ds) q := by
  have hf : ∀ c ∈ List.replicate (-(q + ds.length - 1) - 1).toNat '0' ++ ds, isDigit c = true :=
    fun c hc => (List.mem_append.mp hc).elim (isDigit_replicate _ c) (hd c)
  have hnumeral := IsNumeral.point (by simp) (isDigit_replicate 1) hf .none
  rw [List.append_nil] at hnumeral
  refine ⟨_, _, hnumeral, ?_⟩
  rw [← List.append_assoc, List.replicate_append_replicate, natOfDigits_append,
    natOfDigits_replicate, Nat.zero_mul, Nat.zero_add]
  congr 1
  rw [List.length_append, List.length_replicate]
  omega

theorem denotes_power {d : Char} (hd : ∀ c ∈ d :: ds, isDigit c = true) :
    Denotes ((if ds.isEmpty then [d] else d :: '.' :: ds) ++
      'e' :: (toString (q + (d :: ds).length - 1)).toList) (natOfDigits (d :: ds)) q := by
  have hone : ∀ c ∈ [d], isDigit c = true := fun c hc => hd c (by simp_all)
  have hpower := isPower_toString (q + (d :: ds).length - 1)
  cases ds with
  | nil =>
    have hnumeral := IsNumeral.plain (by simp) hone hpower (by simp)
    refine ⟨_, _, hnumeral, ?_⟩
    congr 1
    simp
  | cons c cs =>
    have hnumeral := IsNumeral.point (by simp) hone
      (fun c hc => hd c (List.mem_cons_of_mem _ hc)) hpower
    refine ⟨_, _, hnumeral, ?_⟩
    congr 1
    simp only [List.length_cons]
    omega

/-- What is written for digits and a power denotes their value. -/
theorem Layout.denotes_write (layout : Layout) {digits : List Char}
    (hd : ∀ c ∈ digits, isDigit c = true) (hne : natOfDigits digits ≠ 0) (power : Int) :
    Denotes (layout.write digits power).toList (natOfDigits digits) power := by
  obtain ⟨k, hdigits, hpower⟩ := significant_eq digits power
  unfold Layout.write
  generalize significant digits power = r at hdigits hpower ⊢
  obtain ⟨ds, q⟩ := r
  dsimp only at hdigits hpower ⊢
  have hvalue : natOfDigits digits = natOfDigits ds * tenPow k := by
    rw [hdigits, natOfDigits_append, natOfDigits_replicate, List.length_replicate, Nat.add_zero]
  have hds : ∀ c ∈ ds, isDigit c = true :=
    fun c hc => hd c (hdigits ▸ List.mem_append_left _ hc)
  have hdsne : ds ≠ [] := by
    rintro rfl
    exact hne (hvalue.trans (Nat.zero_mul _))
  unfold Denotes
  rw [hvalue, show power = q - k by omega, nearest_shift]
  split
  · split
    · rw [String.toList_append, String.toList_ofList]
      exact denotes_whole hdsne hds ‹_›
    · rw [apply_ite String.toList, String.toList_ofList, String.toList_ofList]
      split
      · exact denotes_among hds (by omega) (by omega) (by omega)
      · exact denotes_below hds (by omega)
  · cases ds with
    | nil => exact absurd rfl hdsne
    | cons d ds =>
      rw [String.toList_append, String.toList_append, String.toList_ofList, List.append_assoc]
      exact denotes_power hds

end Layout

end Decimal

/-- The text of a finite number is a numeral, perhaps behind a sign, and the numeral reads as the
number without its sign. -/
theorem Binary32.decimalText_eq {x : Binary32} (hfinite : x.isFinite = true) :
    ∃ body ds p, x.decimalText.toList = (if x.isNegative then '-' :: body else body) ∧
      Decimal.IsNumeral body ds p ∧
      Literal.float? (String.ofList body) = some (.make false x.magnitude) := by
  suffices h : ∃ body ds p, x.decimalText.toList = (if x.isNegative then '-' :: body else body) ∧
      Decimal.IsNumeral body ds p ∧
      Decimal.nearest (Decimal.natOfDigits ds) p = x.magnitude by
    obtain ⟨body, ds, p, htext, hnumeral, hnearest⟩ := h
    refine ⟨body, ds, p, htext, hnumeral, ?_⟩
    rw [hnumeral.float?_eq,
      Decimal.toBinary32_eq_make (Decimal.natOfDigits_lt hnumeral.isDigit_of_mem), hnearest]
  have hsign : ∀ body : String, ((if x.isNegative then "-" else "") ++ body).toList =
      if x.isNegative then '-' :: body.toList else body.toList := by
    intro body
    rw [String.toList_append]
    split <;> rfl
  unfold decimalText
  dsimp only
  by_cases hzero : x.isZero = true
  · rw [if_pos hzero, hsign]
    refine ⟨_, _, _, rfl, .point (by simp) (Decimal.isDigit_replicate 1)
      (Decimal.isDigit_replicate 1) .none, ?_⟩
    have hmagnitude : x.magnitude = 0 := by simpa [isZero] using hzero
    rw [hmagnitude]
    decide
  · rw [if_neg hzero, hsign]
    have hdigits := Decimal.shortest_areOf hfinite (by simpa using hzero)
    have hwhole := Decimal.isWhole_toString (Decimal.shortest x).digits
    obtain ⟨ds, p, hnumeral, hnearest⟩ := layout.denotes_write hwhole.isDigit_of_mem
      (by rw [hwhole.value]; exact hdigits.ne_zero) (Decimal.shortest x).power
    refine ⟨_, ds, p, rfl, hnumeral, ?_⟩
    rw [hnearest, hwhole.value, hdigits.nearest_eq]

end Shader
