import Shader.Proofs.Literal

/-! Numerals: texts that scanning takes as one number literal and that have a known value. -/

namespace Shader

namespace Scan

/-- What stands behind a literal or a name ends it. -/
def Delimited (rest : List Char) : Prop :=
  ∀ c ∈ rest.head?, c ∈ ['(', ')', '[', ']', ',', ' ']

variable {rest : List Char}

theorem delimited_nil : Delimited [] := by simp [Delimited]

theorem Delimited.head_not {p : Char → Bool} (h : Delimited rest)
    (hp : ['(', ')', '[', ']', ',', ' '].all (fun c => !p c) = true) :
    ∀ c ∈ rest.head?, p c = false := by
  intro c hc
  simpa using List.all_eq_true.mp hp c (h c hc)

theorem Delimited.endsDigits (h : Delimited rest) : Decimal.EndsDigits rest :=
  h.head_not (by decide)

theorem Delimited.oneOf {p : Char → Bool} (h : Delimited rest)
    (hp : ['(', ')', '[', ']', ',', ' '].all (fun c => !p c) = true) : oneOf p rest = [] := by
  cases rest with
  | nil => rfl
  | cons c cs => simp [Scan.oneOf, h.head_not hp c rfl]

end Scan

namespace Decimal

/-- The text of a power of ten: nothing, or a mark with an integer. -/
inductive IsPower : List Char → Int → Prop
  | none : IsPower [] 0
  | positive {digits : List Char} (hne : digits ≠ []) (hd : ∀ c ∈ digits, isDigit c = true) :
      IsPower ('e' :: digits) (natOfDigits digits)
  | negative {digits : List Char} (hne : digits ≠ []) (hd : ∀ c ∈ digits, isDigit c = true) :
      IsPower ('e' :: '-' :: digits) (-(natOfDigits digits : Int))

/-- The text of a float literal, its digits and the power of ten that goes with them. -/
inductive IsNumeral : List Char → List Char → Int → Prop
  | point {whole fraction ex : List Char} {power : Int} (hne : whole ≠ [])
      (hw : ∀ c ∈ whole, isDigit c = true) (hf : ∀ c ∈ fraction, isDigit c = true)
      (hex : IsPower ex power) :
      IsNumeral (whole ++ '.' :: (fraction ++ ex)) (whole ++ fraction) (power - fraction.length)
  | plain {whole ex : List Char} {power : Int} (hne : whole ≠ [])
      (hw : ∀ c ∈ whole, isDigit c = true) (hex : IsPower ex power) (hsome : ex ≠ []) :
      IsNumeral (whole ++ ex) whole power

variable {body digits ex rest : List Char} {power : Int}

namespace IsPower

theorem readPower (h : IsPower ex power) : readPower ex = some power := by
  cases h with
  | none => rfl
  | positive hne hd => exact readPower_mark (.inl rfl) (.inl rfl) hne hd
  | negative hne hd => exact readPower_mark (.inl rfl) (.inr (.inr rfl)) hne hd

theorem head (h : IsPower ex power) : ∀ c ∈ ex.head?, c = 'e' := by
  cases h <;> simp

theorem endsDigits (h : IsPower ex power) (hrest : Scan.Delimited rest) :
    EndsDigits (ex ++ rest) := by
  cases ex with
  | nil => exact hrest.endsDigits
  | cons c cs =>
    intro d hd
    obtain rfl := Option.some.inj hd
    obtain rfl := h.head c rfl
    decide

theorem exponent_append (h : IsPower ex power) (hrest : Scan.Delimited rest) :
    Scan.exponent (ex ++ rest) = ex := by
  cases h with
  | none =>
    cases rest with
    | nil => rfl
    | cons c cs =>
      have hc := hrest.head_not (p := fun c => c = 'e' || c = 'E') (by decide) c rfl
      simp only [List.nil_append, Scan.exponent, hc, Bool.false_eq_true, if_false]
  | @positive digits hne hd =>
    have hsign : Scan.oneOf (fun c => c = '+' || c = '-') (digits ++ rest) = [] := by
      cases digits with
      | nil => exact absurd rfl hne
      | cons c cs =>
        have hc := hd c List.mem_cons_self
        have hnot : (decide (c = '+') || decide (c = '-')) = false := by
          by_cases hcases : c = '+' ∨ c = '-'
          · rcases hcases with rfl | rfl <;> exact absurd hc (by decide)
          · simpa using hcases
        simp only [List.cons_append, Scan.oneOf, hnot, Bool.false_eq_true, if_false]
    have htake : (digits ++ rest).takeWhile Scan.isDigit = digits :=
      takeWhile_digits hd hrest.endsDigits
    simp [Scan.exponent, hsign, htake, hne]
  | @negative digits hne hd =>
    have htake : (digits ++ rest).takeWhile Scan.isDigit = digits :=
      takeWhile_digits hd hrest.endsDigits
    simp [Scan.exponent, Scan.oneOf, htake, hne]

theorem floatTail_append (h : IsPower ex power) (hrest : Scan.Delimited rest) :
    Scan.floatTail (ex ++ rest) = ex := by
  simp [Scan.floatTail, h.exponent_append hrest, hrest.oneOf (p := Scan.isFloatMark) (by decide)]

theorem not_isFloatMark (h : IsPower ex power) : ∀ c ∈ ex, Scan.isFloatMark c = false := by
  have hdigits : ∀ {ds : List Char}, (∀ c ∈ ds, isDigit c = true) →
      ∀ c ∈ ds, Scan.isFloatMark c = false :=
    fun hd c hc => Scan.not_isFloatMark_of_isDigit (hd c hc)
  cases h with
  | none => simp
  | positive hne hd => exact List.forall_mem_cons.mpr ⟨by decide, hdigits hd⟩
  | negative hne hd =>
    exact List.forall_mem_cons.mpr ⟨by decide, List.forall_mem_cons.mpr ⟨by decide, hdigits hd⟩⟩

end IsPower

namespace IsNumeral

theorem isDigit_of_mem (h : IsNumeral body digits power) : ∀ c ∈ digits, isDigit c = true := by
  cases h with
  | point hne hw hf => exact fun c hc => (List.mem_append.mp hc).elim (hw c) (hf c)
  | plain hne hw => exact hw

theorem head (h : IsNumeral body digits power) :
    ∃ c cs, body = c :: cs ∧ isDigit c = true := by
  have happend : ∀ {whole tail : List Char}, whole ≠ [] → (∀ c ∈ whole, isDigit c = true) →
      ∃ c cs, whole ++ tail = c :: cs ∧ isDigit c = true := by
    intro whole tail hne hw
    cases whole with
    | nil => exact absurd rfl hne
    | cons c cs => exact ⟨c, _, List.cons_append, hw c List.mem_cons_self⟩
  cases h with
  | point hne hw => exact happend hne hw
  | plain hne hw => exact happend hne hw

theorem not_isFloatMark (h : IsNumeral body digits power) :
    ∀ c ∈ body, Scan.isFloatMark c = false := by
  cases h with
  | point hne hw hf hex =>
    simp only [List.mem_append, List.mem_cons]
    rintro c (hc | rfl | hc | hc)
    · exact Scan.not_isFloatMark_of_isDigit (hw c hc)
    · decide
    · exact Scan.not_isFloatMark_of_isDigit (hf c hc)
    · exact hex.not_isFloatMark c hc
  | plain hne hw hex =>
    simp only [List.mem_append]
    rintro c (hc | hc)
    · exact Scan.not_isFloatMark_of_isDigit (hw c hc)
    · exact hex.not_isFloatMark c hc

theorem readNumber (h : IsNumeral body digits power) :
    readNumber false body = some (toBinary32 false (natOfDigits digits) digits.length power) := by
  cases h with
  | @point whole fraction ex power hne hw hf hex =>
    have hends := hex.endsDigits Scan.delimited_nil
    rw [List.append_nil] at hends
    exact readNumber_point hw hf hends (by simp [hne]) hex.readPower
  | @plain _ ex _ hne hw hex hsome =>
    have hends := hex.endsDigits Scan.delimited_nil
    rw [List.append_nil] at hends
    refine readNumber_plain hw hends (fun hpoint => ?_) hne hex.readPower
    exact absurd (hex.head '.' hpoint) (by decide)

theorem float?_eq (h : IsNumeral body digits power) :
    Literal.float? (String.ofList body) =
      some (toBinary32 false (natOfDigits digits) digits.length power) := by
  obtain ⟨c, cs, rfl, hc⟩ := h.head
  have hstrip := @Literal.float?_append_mark (c :: cs) [] (by simp) h.not_isFloatMark
  have hhead : ∀ d ∈ (c :: cs).head?, isDigit d = true ∨ d = '.' :=
    fun d hd => .inl (Option.some.inj hd ▸ hc)
  rw [List.append_nil] at hstrip
  rw [hstrip, read?_number (by simp) hhead, h.readNumber]

theorem number_append (h : IsNumeral body digits power) (hrest : Scan.Delimited rest) :
    Scan.number (body ++ rest) = (.floatLiteral (String.ofList body), body) := by
  cases h with
  | @point whole fraction ex power hne hw hf hex =>
    have hpoint : EndsDigits ('.' :: (fraction ++ (ex ++ rest))) := by
      intro c hc
      obtain rfl := Option.some.inj hc
      decide
    have hwhole : (whole ++ '.' :: (fraction ++ (ex ++ rest))).takeWhile Scan.isDigit = whole :=
      takeWhile_digits hw hpoint
    have hfraction : (fraction ++ (ex ++ rest)).takeWhile Scan.isDigit = fraction :=
      takeWhile_digits hf (hex.endsDigits hrest)
    simp [Scan.number, hwhole, hfraction, hex.floatTail_append hrest]
  | @plain _ ex _ hne hw hex hsome =>
    have hwhole : (digits ++ (ex ++ rest)).takeWhile Scan.isDigit = digits :=
      takeWhile_digits hw (hex.endsDigits hrest)
    cases ex with
    | nil => exact absurd rfl hsome
    | cons c cs =>
      obtain rfl := hex.head c rfl
      have htail := hex.floatTail_append hrest
      have hexponent := hex.exponent_append hrest
      rw [List.cons_append] at htail hexponent hwhole
      simp [Scan.number, hwhole, htail, hexponent]

end IsNumeral

/-- Digits of a number without a leading zero. -/
structure IsWhole (digits : List Char) (n : Nat) : Prop where
  ne_nil : digits ≠ []
  isDigit_of_mem : ∀ c ∈ digits, isDigit c = true
  value : natOfDigits digits = n
  leading : digits.head? = some '0' → digits = ['0']

theorem isDigit_of_char {c : Char} (h : c.isDigit = true) : isDigit c = true := by
  simpa [Char.isDigit, isDigit, Char.le_def] using h

theorem toString_toList (n : Nat) : (toString n).toList = Nat.toDigits 10 n := by
  rw [Nat.toString_eq_repr, Nat.repr_eq_ofList_toDigits, String.toList_ofList]

theorem toString_negSucc (n : Nat) :
    (toString (Int.negSucc n)).toList = '-' :: (toString (n + 1)).toList := by
  show ("-" ++ toString (n + 1)).toList = _
  rw [String.toList_append]
  rfl

theorem toDigits_leading (n : Nat) (h : (Nat.toDigits 10 n).head? = some '0') :
    Nat.toDigits 10 n = ['0'] := by
  induction n using Nat.strongRecOn with
  | ind n ih =>
    rw [Nat.toDigits_eq_if (by decide)] at h ⊢
    split
    · rename_i hlt
      rw [if_pos hlt] at h
      obtain rfl : n = 0 := by
        match n, hlt with
        | 0, _ => rfl
        | 1, _ | 2, _ | 3, _ | 4, _ | 5, _ | 6, _ | 7, _ | 8, _ | 9, _ => exact absurd h (by decide)
      rfl
    · rename_i hge
      rw [if_neg hge] at h
      obtain ⟨c, cs, hcons⟩ := List.exists_cons_of_ne_nil (@Nat.toDigits_ne_nil (n / 10) 10)
      have hzero := ih (n / 10) (by omega) (by rw [hcons] at h ⊢; exact h)
      have hvalue := @Nat.ofDigitChars_toDigits 10 (n / 10) (by decide) (by decide)
      rw [hzero] at hvalue
      have : n / 10 = 0 := hvalue.symm
      omega

theorem isWhole_toString (n : Nat) : IsWhole (toString n).toList n := by
  rw [toString_toList]
  refine ⟨Nat.toDigits_ne_nil, fun c hc => ?_, ?_, toDigits_leading n⟩
  · exact isDigit_of_char (Nat.isDigit_of_mem_toDigits (by decide) (by decide) hc)
  · exact Nat.ofDigitChars_toDigits (by decide) (by decide)

end Decimal

namespace Literal

open Decimal (IsWhole)

variable {digits : List Char} {n : Nat}

theorem digit?_eq {c : Char} (h : Decimal.isDigit c = true) :
    digit? 10 c = some (Decimal.digitValue c) := by
  have hle := h
  simp only [Decimal.isDigit, Bool.and_eq_true, decide_eq_true_eq] at hle
  have hnine : c.toNat ≤ 57 := UInt32.le_iff_toNat_le.mp hle.2
  have hvalue : c.toNat - 48 < 10 := by omega
  simp [digit?, hle, Decimal.digitValue, Option.filter, hvalue]

/-- The number that digits denote behind `start`, without a bound, or the first character that is no
digit. -/
def ofDigitsFrom (radix start : Nat) (digits : List Char) : Except Char Nat :=
  digits.foldlM (fun n c => (digit? radix c).elim (.error c) fun d => .ok (radix * n + d)) start

def ofDigits (radix : Nat) (digits : List Char) : Except Char Nat :=
  ofDigitsFrom radix 0 digits

theorem lt_of_digit? {radix d : Nat} {c : Char} (h : digit? radix c = some d) : d < radix := by
  obtain ⟨-, hlt⟩ := Option.filter_eq_some_iff.mp h
  simpa using hlt

theorem ofDigitsFrom_cons {radix start d : Nat} {c : Char} (h : digit? radix c = some d)
    (cs : List Char) :
    ofDigitsFrom radix start (c :: cs) = ofDigitsFrom radix (radix * start + d) cs := by
  rw [ofDigitsFrom, List.foldlM_cons, h]
  rfl

theorem find?_eq_of_error {radix start : Nat} {cs : List Char} {c : Char}
    (h : ofDigitsFrom radix start cs = .error c) :
    cs.find? (fun c => (digit? radix c).isNone) = some c := by
  induction cs generalizing start with
  | nil => cases h
  | cons a cs ih =>
    cases ha : digit? radix a with
    | none =>
      rw [ofDigitsFrom, List.foldlM_cons, ha] at h
      obtain rfl : a = c := Except.error.inj h
      simp [ha]
    | some d =>
      rw [ofDigitsFrom_cons ha] at h
      simp [ha, ih h]

theorem foldlM_push?_of_ok {radix start n : Nat} {cs : List Char}
    (h : ofDigitsFrom radix start cs = .ok n) :
    start ≤ n ∧ cs.find? (fun c => (digit? radix c).isNone) = none ∧
      ∀ w : UInt64, w.toNat = start →
        cs.foldlM (fun m c => (digit? radix c).bind (push? radix m)) w =
          if n < twoPow 64 then some (.ofNat n) else none := by
  induction cs generalizing start with
  | nil =>
    obtain rfl : start = n := Except.ok.inj h
    refine ⟨Nat.le_refl _, rfl, fun w hw => ?_⟩
    subst hw
    have hlt : w.toNat < twoPow 64 := w.toNat_lt
    rw [if_pos hlt, UInt64.ofNat_toNat]
    rfl
  | cons a cs ih =>
    cases ha : digit? radix a with
    | none =>
      rw [ofDigitsFrom, List.foldlM_cons, ha] at h
      cases h
    | some d =>
      rw [ofDigitsFrom_cons ha] at h
      obtain ⟨hle, hfind, hread⟩ := ih h
      have hradix := lt_of_digit? ha
      have hstart : start ≤ radix * start := Nat.le_mul_of_pos_left start (by omega)
      refine ⟨by omega, by simp [ha, hfind], fun w hw => ?_⟩
      rw [List.foldlM_cons, ha, Option.bind_some, push?, hw]
      by_cases hroom : radix * start + d < twoPow 64
      · simp only [if_pos hroom]
        exact hread _ (UInt64.toNat_ofNat_of_lt' hroom)
      · simp only [if_neg hroom]
        rw [if_neg (by omega)]
        rfl

section Reading

variable {text : String} {body digits : List Char} {unsigned : Bool} {base : Nat}

theorem int_of_error {c : Char} (hbody : unsignedMark text.toList = (body, unsigned))
    (hradix : radix body = (base, digits)) (hread : ofDigits base digits = .error c) :
    int text = .error (.invalidDigit text c) := by
  have hfind := find?_eq_of_error hread
  have hne : digits ≠ [] := by
    rintro rfl
    cases hfind
  simp only [int, hbody, hradix, List.isEmpty_iff, hne, if_false, hfind]

/-- What 64 bits cannot hold does not fit into 32 bits either, so nothing is lost on the way. -/
theorem int_of_ok {n : Nat} (hbody : unsignedMark text.toList = (body, unsigned))
    (hradix : radix body = (base, digits)) (hne : digits ≠ []) (hread : ofDigits base digits = .ok n) :
    int text = if twoPow 32 ≤ n then .error (.overflow text)
      else .ok (if unsigned then .uint (.ofNat n) else .int (UInt32.ofNat n).toInt32) := by
  have h32 : twoPow 32 = 4294967296 := rfl
  have h64 : twoPow 64 = 18446744073709551616 := rfl
  obtain ⟨-, hfind, hbounded⟩ := foldlM_push?_of_ok hread
  have hvalue : ofDigits? base digits = if n < twoPow 64 then some (.ofNat n) else none :=
    hbounded 0 rfl
  simp only [int, hbody, hradix, List.isEmpty_iff, hne, if_false, hfind, hvalue]
  by_cases hroom : n < twoPow 64
  · have hn : (UInt64.ofNat n).toNat = n := UInt64.toNat_ofNat_of_lt' hroom
    have hlarge : UInt64.ofNat n > 0xffffffff ↔ twoPow 32 ≤ n := by
      rw [gt_iff_lt, UInt64.lt_iff_toNat_lt, hn, h32]
      exact Nat.lt_iff_add_one_le
    simp only [if_pos hroom, Option.getD_some, hlarge, UInt64.toUInt32_ofNat']
  · have hmax : UInt64.ofNat (twoPow 64 - 1) > 0xffffffff := by decide
    rw [if_neg hroom, Option.getD_none, if_pos hmax, if_pos (by omega)]

end Reading

theorem ofDigits_eq {cs : List Char} (h : ∀ c ∈ cs, Decimal.isDigit c = true) :
    ofDigits 10 cs = .ok (Decimal.natOfDigits cs) := by
  unfold ofDigits ofDigitsFrom Decimal.natOfDigits
  generalize 0 = start
  induction cs generalizing start with
  | nil => rfl
  | cons c cs ih =>
    simp only [List.foldlM_cons, digit?_eq (h c List.mem_cons_self), List.foldl_cons]
    exact ih (fun d hd => h d (List.mem_cons_of_mem _ hd)) _

theorem unsignedMark_digits (h : IsWhole digits n) : unsignedMark digits = (digits, false) := by
  unfold unsignedMark
  split
  · rename_i c hc
    have hdigit := h.isDigit_of_mem c (List.mem_of_getLast? hc)
    split
    · rename_i hmark
      simp only [Bool.or_eq_true, decide_eq_true_eq] at hmark
      rcases hmark with rfl | rfl <;> exact absurd hdigit (by decide)
    · rfl
  · rfl

theorem unsignedMark_u (cs : List Char) : unsignedMark (cs ++ ['u']) = (cs, true) := by
  simp [unsignedMark]

theorem radix_digits (h : IsWhole digits n) : radix digits = (10, digits) := by
  have hlead := h.leading
  unfold radix
  split
  · exact absurd (hlead rfl) (by simp)
  · exact absurd (hlead rfl) (by simp)
  · exact absurd (hlead rfl) (by simp)
  · rfl

/-- The digits of a number that fits denote it, with a mark as an unsigned integer. -/
theorem int_digits (h : IsWhole digits n) (hn : n < twoPow 32) :
    int (String.ofList digits) = .ok (.int (UInt32.ofNat n).toInt32) ∧
      int (String.ofList (digits ++ ['u'])) = .ok (.uint (UInt32.ofNat n)) := by
  have hfits : ¬twoPow 32 ≤ n := Nat.not_le.mpr hn
  have hread : ofDigits 10 digits = .ok n := by rw [ofDigits_eq h.isDigit_of_mem, h.value]
  constructor
  · have hmark : unsignedMark (String.ofList digits).toList = (digits, false) := by
      rw [String.toList_ofList, unsignedMark_digits h]
    rw [int_of_ok hmark (radix_digits h) h.ne_nil hread, if_neg hfits]
    rfl
  · have hmark : unsignedMark (String.ofList (digits ++ ['u'])).toList = (digits, true) := by
      rw [String.toList_ofList, unsignedMark_u]
    rw [int_of_ok hmark (radix_digits h) h.ne_nil hread, if_neg hfits]
    rfl

end Literal

namespace Scan

variable {digits rest : List Char} {n : Nat}

theorem hexLiteral_digits (h : Decimal.IsWhole digits n) {tail : List Char}
    (htail : ∀ c ∈ tail.head?, c ≠ 'x' ∧ c ≠ 'X') : hexLiteral (digits ++ tail) = [] := by
  have hlead := h.leading
  unfold hexLiteral
  split
  · rename_i x cs heq
    have hzero : digits = ['0'] := by
      cases digits with
      | nil => exact absurd rfl h.ne_nil
      | cons d ds =>
        obtain rfl : d = '0' := (List.cons.inj heq).1
        exact hlead rfl
    rw [hzero] at heq
    have htail' : tail = x :: cs := (List.cons.inj heq).2
    obtain ⟨hx, hX⟩ := htail x (by rw [htail']; rfl)
    simp [hx, hX]
  · rfl

theorem number_whole (h : Decimal.IsWhole digits n) {tail : List Char}
    (hends : Decimal.EndsDigits tail) (hpoint : tail.head? ≠ some '.') (hexp : exponent tail = [])
    (hx : ∀ c ∈ tail.head?, c ≠ 'x' ∧ c ≠ 'X') :
    number (digits ++ tail) =
      (.intLiteral (String.ofList (digits ++ oneOf isUnsignedMark tail)),
        digits ++ oneOf isUnsignedMark tail) := by
  have htake : (digits ++ tail).takeWhile isDigit = digits :=
    Decimal.takeWhile_digits h.isDigit_of_mem hends
  simp only [number, htake, List.drop_left, hexLiteral_digits h hx, List.isEmpty_nil, if_true]
  split
  · exact absurd rfl hpoint
  · simp [hexp]

theorem number_digits (h : Decimal.IsWhole digits n) (hrest : Delimited rest) :
    number (digits ++ rest) = (.intLiteral (String.ofList digits), digits) ∧
      number (digits ++ 'u' :: rest) =
        (.intLiteral (String.ofList (digits ++ ['u'])), digits ++ ['u']) := by
  constructor
  · have hpoint : rest.head? ≠ some '.' := fun hc =>
      absurd (hrest.head_not (p := (· == '.')) (by decide) '.' hc) (by decide)
    have hexp : exponent rest = [] := Decimal.IsPower.none.exponent_append hrest
    have hx : ∀ c ∈ rest.head?, c ≠ 'x' ∧ c ≠ 'X' := fun c hc => by
      simpa using hrest.head_not (p := fun c => c == 'x' || c == 'X') (by decide) c hc
    rw [number_whole h hrest.endsDigits hpoint hexp hx, hrest.oneOf (by decide), List.append_nil]
  · have hu : ∀ c ∈ ('u' :: rest).head?, c = 'u' := fun c hc => (Option.some.inj hc).symm
    have hends : Decimal.EndsDigits ('u' :: rest) := fun c hc => by
      rw [hu c hc]
      decide
    refine number_whole h hends (by simp) ?_ fun c hc => ?_
    · simp [exponent]
    · rw [hu c hc]
      decide

end Scan

end Shader
