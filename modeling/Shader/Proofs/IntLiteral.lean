import Mathlib.Data.List.Basic
import Mathlib.Data.List.Induction
import Mathlib.Data.Nat.Digits.Defs
import Shader.Proofs.Numeral

/-! Integer literals. Their digits stand for a number in radix 8, 10 or 16, and reading a literal
gives the 32-bit pattern of that number. -/

namespace Shader

namespace Literal

def digitChars : List Char :=
  ['0', '1', '2', '3', '4', '5', '6', '7', '8', '9', 'a', 'b', 'c', 'd', 'e', 'f']

/-- The place of a character among the digits, in either case; 16 for any other character. -/
def digitRank (c : Char) : Nat :=
  digitChars.idxOf c.toLower

theorem toNat_of_mem_digitChars {c : Char} (h : c ∈ digitChars) : c.toNat < 103 := by
  have hall : (digitChars.all fun c => c.toNat < 103) = true := rfl
  simpa using List.all_eq_true.mp hall c h

theorem toNat_of_digitRank {c : Char} (h : digitRank c < 16) : c.toNat < 128 := by
  have hmem : c.toLower ∈ digitChars := List.idxOf_lt_length_iff.mp h
  have hlower := toNat_of_mem_digitChars hmem
  unfold Char.toLower at hlower
  split at hlower
  · rename_i hupper
    have : c.val.toNat ≤ 90 := UInt32.le_iff_toNat_le.mp hupper.2
    show c.val.toNat < 128
    omega
  · omega

theorem digit?_hex {c : Char} (h : digitRank c < 16) : digit? 16 c = some (digitRank c) := by
  have hall : ∀ n < 128, digitRank (Char.ofNat n) < 16 →
      digit? 16 (Char.ofNat n) = some (digitRank (Char.ofNat n)) := by decide +kernel
  have hc := hall c.toNat (toNat_of_digitRank h)
  rw [Char.ofNat_toNat] at hc
  exact hc h

theorem digit?_filter {radix : Nat} (hradix : radix ≤ 16) (c : Char) :
    digit? radix c = (digit? 16 c).filter (· < radix) := by
  simp only [digit?, Option.filter_filter]
  refine congrArg (Option.filter · _) (funext fun n => ?_)
  by_cases hn : n < radix
  · simp [hn, Nat.lt_of_lt_of_le hn hradix]
  · simp [hn]

theorem digit?_eq_some {radix : Nat} {c : Char} (hradix : radix ≤ 16) (h : digitRank c < radix) :
    digit? radix c = some (digitRank c) := by
  rw [digit?_filter hradix, digit?_hex (Nat.lt_of_lt_of_le h hradix)]
  simp [Option.filter, h]

/-- The characters are digits of the radix, at least one, and denote `n`. -/
structure Denotes (radix : Nat) (cs : List Char) (n : Nat) : Prop where
  ne_nil : cs ≠ []
  digitRank_lt : ∀ c ∈ cs, digitRank c < radix
  value : Nat.ofDigits radix (cs.map digitRank).reverse = n

instance (radix : Nat) (cs : List Char) (n : Nat) : Decidable (Denotes radix cs n) :=
  decidable_of_iff (cs.isEmpty = false ∧ (cs.all fun c => digitRank c < radix) = true ∧
      Nat.ofDigits radix (cs.map digitRank).reverse = n)
    ⟨fun h => ⟨by simpa using h.1, by simpa using h.2.1, h.2.2⟩,
      fun h => ⟨by simpa using h.ne_nil, by simpa using h.digitRank_lt, h.value⟩⟩

theorem ofDigits_eq_ofDigits {radix : Nat} (hradix : radix ≤ 16) {cs : List Char}
    (h : ∀ c ∈ cs, digitRank c < radix) :
    ofDigits radix cs = .ok (Nat.ofDigits radix (cs.map digitRank).reverse) := by
  -- The last digit is read last and counts least.
  induction cs using List.reverseRecOn with
  | nil => rfl
  | append_singleton cs c ih =>
    have hcs := ih fun d hd => h d (List.mem_append_left _ hd)
    have hc := digit?_eq_some hradix (h c (by simp))
    unfold ofDigits ofDigitsFrom at hcs ⊢
    rw [List.foldlM_append, hcs]
    simp only [List.map_append, List.map_cons, List.map_nil, List.reverse_append,
      List.reverse_cons, List.reverse_nil, List.nil_append, List.cons_append, Nat.ofDigits_cons]
    rw [Nat.add_comm]
    exact ofDigitsFrom_cons hc []

/-- A text is unsigned if it ends in a mark; the body is what stands before the mark. -/
inductive Marked : (text body : List Char) → (unsigned : Bool) → Prop
  | unsigned {body : List Char} {c : Char} (hc : c = 'u' ∨ c = 'U') : Marked (body ++ [c]) body true
  | signed {body : List Char} (h : ∀ c ∈ body.getLast?, c ≠ 'u' ∧ c ≠ 'U') : Marked body body false

/-- How a body starts tells its radix; the digits are the rest of it. -/
inductive InRadix : (body : List Char) → (base : Nat) → (digits : List Char) → Prop
  | hex {x : Char} {digits : List Char} (hx : x = 'x' ∨ x = 'X') :
    InRadix ('0' :: x :: digits) 16 digits
  | octal {c : Char} {digits : List Char} (hc : c ≠ 'x' ∧ c ≠ 'X') :
    InRadix ('0' :: c :: digits) 8 (c :: digits)
  | decimal {digits : List Char} (h : digits.head? = some '0' → digits = ['0']) :
    InRadix digits 10 digits

theorem Marked.unsignedMark_eq {cs body : List Char} {unsigned : Bool}
    (h : Marked cs body unsigned) : unsignedMark cs = (body, unsigned) := by
  cases h with
  | unsigned hc => simp [unsignedMark, hc]
  | signed h =>
    unfold unsignedMark
    split
    · rename_i c hlast
      obtain ⟨hu, hU⟩ := h c hlast
      simp [hu, hU]
    · rfl

theorem InRadix.radix_eq {body digits : List Char} {base : Nat} (h : InRadix body base digits) :
    radix body = (base, digits) := by
  cases h with
  | hex hx => rcases hx with rfl | rfl <;> rfl
  | octal hc =>
    unfold radix
    split <;> simp_all
  | decimal h =>
    unfold radix
    split <;> simp_all

theorem InRadix.base_le {body digits : List Char} {base : Nat} (h : InRadix body base digits) :
    base ≤ 16 := by
  cases h <;> decide

def Written (text : String) (unsigned : Bool) (base : Nat) (digits : List Char) : Prop :=
  ∃ body, Marked text.toList body unsigned ∧ InRadix body base digits

theorem Written.base_le {text : String} {unsigned : Bool} {base : Nat} {digits : List Char}
    (h : Written text unsigned base digits) : base ≤ 16 := by
  obtain ⟨body, -, hradix⟩ := h
  exact hradix.base_le

theorem Written.int_of_denotes {text : String} {unsigned : Bool} {base n : Nat}
    {digits : List Char} (h : Written text unsigned base digits) (hn : Denotes base digits n) :
    int text = if 0xffffffff < n then .error (.overflow text)
      else .ok (if unsigned then .uint (.ofNat n) else .int (UInt32.ofNat n).toInt32) := by
  have hread := ofDigits_eq_ofDigits h.base_le hn.digitRank_lt
  rw [hn.value] at hread
  obtain ⟨body, hbody, hradix⟩ := h
  exact int_of_ok hbody.unsignedMark_eq hradix.radix_eq hn.ne_nil hread

/-- The texts of integer literals without a mark: `0x` is hexadecimal, another leading 0 octal. -/
inductive IsNumeral : List Char → Nat → Prop
  | decimal {cs : List Char} {n : Nat} (h : Denotes 10 cs n)
      (hlead : cs.head? = some '0' → cs = ['0']) : IsNumeral cs n
  | octal {cs : List Char} {n : Nat} (h : Denotes 8 cs n) : IsNumeral ('0' :: cs) n
  | hex {x : Char} {cs : List Char} {n : Nat} (hx : x = 'x' ∨ x = 'X') (h : Denotes 16 cs n) :
      IsNumeral ('0' :: x :: cs) n

namespace IsNumeral

variable {cs : List Char} {n : Nat}

theorem exists_inRadix (h : IsNumeral cs n) :
    ∃ base digits, InRadix cs base digits ∧ digits <:+ cs ∧ Denotes base digits n := by
  cases h with
  | decimal h hlead => exact ⟨10, cs, .decimal hlead, List.suffix_refl _, h⟩
  | @octal ds _ h =>
    obtain ⟨d, ds, rfl⟩ := List.exists_cons_of_ne_nil h.ne_nil
    have hd := h.digitRank_lt d List.mem_cons_self
    have hx : d ≠ 'x' ∧ d ≠ 'X' := by
      constructor
      · rintro rfl
        exact absurd hd (by decide)
      · rintro rfl
        exact absurd hd (by decide)
    exact ⟨8, d :: ds, .octal hx, List.suffix_cons _ _, h⟩
  | @hex x ds _ hx h => exact ⟨16, ds, .hex hx, ⟨['0', x], rfl⟩, h⟩

theorem marked (h : IsNumeral cs n) : Marked cs cs false := by
  obtain ⟨base, digits, hradix, ⟨front, rfl⟩, hdigits⟩ := h.exists_inRadix
  refine .signed fun c hc => ?_
  rw [List.getLast?_append_of_ne_nil _ hdigits.ne_nil] at hc
  have hrank := hdigits.digitRank_lt c (List.mem_of_getLast? hc)
  have hbase := hradix.base_le
  have hu : digitRank 'u' = 16 ∧ digitRank 'U' = 16 := by decide
  constructor
  · rintro rfl
    omega
  · rintro rfl
    omega

/-- A numeral that fits denotes the integer with its bits, with a mark the unsigned one. -/
theorem int_eq (h : IsNumeral cs n) (hn : n < twoPow 32) :
    int (String.ofList cs) = .ok (.int (UInt32.ofNat n).toInt32) ∧
      int (String.ofList (cs ++ ['u'])) = .ok (.uint (UInt32.ofNat n)) := by
  obtain ⟨base, digits, hradix, -, hdigits⟩ := h.exists_inRadix
  have hfits : ¬ 0xffffffff < n := Nat.not_lt.mpr (Nat.le_of_lt_succ hn)
  have hsigned : Written (String.ofList cs) false base digits :=
    ⟨cs, by rw [String.toList_ofList]; exact h.marked, hradix⟩
  have hunsigned : Written (String.ofList (cs ++ ['u'])) true base digits :=
    ⟨cs, by rw [String.toList_ofList]; exact .unsigned (.inl rfl), hradix⟩
  constructor
  · rw [hsigned.int_of_denotes hdigits, if_neg hfits]
    rfl
  · rw [hunsigned.int_of_denotes hdigits, if_neg hfits]
    rfl

end IsNumeral

end Literal

end Shader
