import Shader.Literal
import Shader.Proofs.Token

/-! Reading number literals. A decimal text is digits with an optional point and an optional power
of ten; every float literal that scanning cuts out is of that form. -/

namespace Shader

namespace Decimal

variable {whole fraction tail : List Char} {negative : Bool} {power : Int}

/-- What follows the digits of a number: no further digit. -/
def EndsDigits (tail : List Char) : Prop :=
  ∀ c ∈ tail.head?, isDigit c = false

theorem takeWhile_digits (hw : ∀ c ∈ whole, isDigit c = true) (ht : EndsDigits tail) :
    (whole ++ tail).takeWhile isDigit = whole := by
  rw [List.takeWhile_append_of_pos hw]
  cases tail with
  | nil => simp
  | cons c cs => simp [ht c rfl]

theorem dropWhile_digits (hw : ∀ c ∈ whole, isDigit c = true) (ht : EndsDigits tail) :
    (whole ++ tail).dropWhile isDigit = tail := by
  rw [List.dropWhile_append_of_pos hw]
  cases tail with
  | nil => simp
  | cons c cs => simp [ht c rfl]

theorem readNumber_point (hw : ∀ c ∈ whole, isDigit c = true)
    (hf : ∀ c ∈ fraction, isDigit c = true) (ht : EndsDigits tail) (hne : whole ++ fraction ≠ [])
    (hp : readPower tail = some power) :
    readNumber negative (whole ++ '.' :: (fraction ++ tail)) =
      some (toBinary32 negative (natOfDigits (whole ++ fraction)) (whole ++ fraction).length
        (power - fraction.length)) := by
  have hpoint : EndsDigits ('.' :: (fraction ++ tail)) := by
    intro c hc
    cases hc
    decide
  unfold readNumber
  simp only [takeWhile_digits hw hpoint, List.drop_left, takeWhile_digits hf ht,
    dropWhile_digits hf ht, hp, List.isEmpty_iff, hne, if_false, Option.map_some]

theorem readNumber_plain (hw : ∀ c ∈ whole, isDigit c = true) (ht : EndsDigits tail)
    (hpoint : tail.head? ≠ some '.') (hne : whole ≠ []) (hp : readPower tail = some power) :
    readNumber negative (whole ++ tail) =
      some (toBinary32 negative (natOfDigits whole) whole.length power) := by
  unfold readNumber
  simp only [takeWhile_digits hw ht, List.drop_left]
  split
  · exact absurd rfl hpoint
  · simp only [List.append_nil, hp, List.isEmpty_iff, hne, if_false, Option.map_some,
      List.length_nil, Int.natCast_zero, Int.sub_zero]

theorem readSign_of_head {cs : List Char} (h : ∀ c ∈ cs.head?, isDigit c = true ∨ c = '.') :
    readSign cs = (false, cs) := by
  unfold readSign
  split
  · exact absurd (h '-' rfl) (by decide)
  · exact absurd (h '+' rfl) (by decide)
  · rfl

theorem readPower_mark {e : Char} (he : e = 'e' ∨ e = 'E') {sign digits : List Char}
    (hs : sign = [] ∨ sign = ['+'] ∨ sign = ['-']) (hne : digits ≠ [])
    (hd : ∀ c ∈ digits, isDigit c = true) :
    readPower (e :: (sign ++ digits)) =
      some (if sign = ['-'] then -(natOfDigits digits : Int) else natOfDigits digits) := by
  have hsign : readSign (sign ++ digits) = (decide (sign = ['-']), digits) := by
    rcases hs with rfl | rfl | rfl
    · have hhead : ∀ c ∈ digits.head?, isDigit c = true ∨ c = '.' :=
        fun c hc => .inl (hd c (List.mem_of_head? hc))
      simp [readSign_of_head hhead]
    · rfl
    · rfl
  have hall : digits.all isDigit = true := List.all_eq_true.mpr hd
  simp only [readPower, hsign, hall, he, Bool.or_eq_true, decide_eq_true_eq, if_true,
    List.isEmpty_iff, hne, Bool.not_true, Bool.false_eq_true, or_self, if_false]

theorem toLower_of_number {c : Char} (h : isDigit c = true ∨ c = '.') : c.toLower = c := by
  rcases h with h | rfl
  · simp only [isDigit, Bool.and_eq_true, decide_eq_true_eq] at h
    have hle : c.val ≤ 57 := h.2
    unfold Char.toLower
    rw [dif_neg]
    exact fun hupper => absurd (UInt32.le_trans hupper.1 hle) (by decide)
  · decide

/-- A text that starts like a number is none of the words for special values. -/
theorem read?_number {cs : List Char} (hne : cs ≠ [])
    (h : ∀ c ∈ cs.head?, isDigit c = true ∨ c = '.') :
    read? (String.ofList cs) = readNumber false cs := by
  match cs, hne with
  | c :: cs, _ =>
    have hc := h c rfl
    have hword : ∀ w : String, (w.toList.head?).any (fun d => isDigit d || d = '.') = false →
        String.ofList ((c :: cs).map Char.toLower) ≠ w := by
      rintro _ hw rfl
      simp only [List.map_cons, String.toList_ofList, List.head?_cons, toLower_of_number hc,
        Option.any_some, Bool.or_eq_false_iff, decide_eq_false_iff_not] at hw
      rcases hc with hc | hc
      · exact absurd (hw.1.symm.trans hc) (by decide)
      · exact hw.2 hc
    simp only [read?, String.toList_ofList, readSign_of_head h]
    split
    · exact absurd ‹_› (hword _ (by decide))
    · exact absurd ‹_› (hword _ (by decide))
    · exact absurd ‹_› (hword _ (by decide))
    · rfl

end Decimal

namespace Scan

theorem mem_oneOf {p : Char → Bool} {cs : List Char} {c : Char} (h : c ∈ oneOf p cs) :
    p c = true := by
  unfold oneOf at h
  split at h
  · split at h
    · rename_i hp
      exact List.mem_singleton.mp h ▸ hp
    · cases h
  · cases h

theorem oneOf_eq (p : Char → Bool) (cs : List Char) :
    oneOf p cs = [] ∨ ∃ c, p c = true ∧ oneOf p cs = [c] := by
  cases cs with
  | nil => exact .inl rfl
  | cons c cs =>
    by_cases hp : p c = true
    · exact .inr ⟨c, hp, by simp [oneOf, hp]⟩
    · exact .inl (by simp [oneOf, hp])

theorem exponent_eq (cs : List Char) :
    exponent cs = [] ∨ ∃ e sign digits, exponent cs = e :: (sign ++ digits) ∧
      (e = 'e' ∨ e = 'E') ∧ (sign = [] ∨ sign = ['+'] ∨ sign = ['-']) ∧ digits ≠ [] ∧
      ∀ c ∈ digits, isDigit c = true := by
  cases cs with
  | nil => exact .inl rfl
  | cons e cs =>
    simp only [exponent, Bool.or_eq_true, decide_eq_true_eq]
    split
    · rename_i he
      split
      · exact .inl rfl
      · rename_i hne
        refine .inr ⟨e, _, _, rfl, he, ?_, by simpa using hne, ?_⟩
        · rcases oneOf_eq (fun c => c = '+' || c = '-') cs with hs | ⟨c, hc, hs⟩
          · exact .inl hs
          · simp only [Bool.or_eq_true, decide_eq_true_eq] at hc
            rcases hc with rfl | rfl
            · exact .inr (.inl hs)
            · exact .inr (.inr hs)
        · exact List.all_eq_true.mp List.all_takeWhile
    · exact .inl rfl

theorem readPower_exponent (cs : List Char) :
    ∃ power, Decimal.readPower (exponent cs) = some power := by
  rcases exponent_eq cs with h | ⟨e, sign, digits, h, he, hs, hne, hd⟩
  · exact ⟨0, by rw [h]; rfl⟩
  · exact ⟨_, by rw [h]; exact Decimal.readPower_mark he hs hne hd⟩

theorem endsDigits_exponent (cs : List Char) : Decimal.EndsDigits (exponent cs) := by
  rcases exponent_eq cs with h | ⟨e, sign, digits, h, he, -⟩
  · simp [h, Decimal.EndsDigits]
  · rw [h]
    intro c hc
    cases hc
    rcases he with rfl | rfl <;> decide

theorem not_isFloatMark_of_isDigit {c : Char} (h : isDigit c = true) : isFloatMark c = false := by
  by_cases hmark : isFloatMark c = true
  · simp only [isFloatMark, Bool.or_eq_true, decide_eq_true_eq] at hmark
    rcases hmark with rfl | rfl <;> exact absurd h (by decide)
  · simpa using hmark

theorem not_isFloatMark_exponent (cs : List Char) :
    ∀ c ∈ exponent cs, isFloatMark c = false := by
  rcases exponent_eq cs with h | ⟨e, sign, digits, h, he, hs, -, hd⟩
  · simp [h]
  · rw [h]
    simp only [List.mem_cons, List.mem_append]
    rintro c (rfl | hc | hc)
    · rcases he with rfl | rfl <;> decide
    · rcases hs with rfl | rfl | rfl
      · cases hc
      · exact List.mem_singleton.mp hc ▸ by decide
      · exact List.mem_singleton.mp hc ▸ by decide
    · exact not_isFloatMark_of_isDigit (hd c hc)

end Scan

namespace Literal

theorem float?_append_mark {body mark : List Char} (hm : ∀ c ∈ mark, Scan.isFloatMark c = true)
    (hb : ∀ c ∈ body, Scan.isFloatMark c = false) :
    float? (String.ofList (body ++ mark)) = Decimal.read? (String.ofList body) := by
  have hdrop : body.reverse.dropWhile Scan.isFloatMark = body.reverse := by
    cases hr : body.reverse with
    | nil => rfl
    | cons c cs =>
      have hc : c ∈ body := List.mem_reverse.mp (hr ▸ List.mem_cons_self)
      rw [List.dropWhile_cons, hb c hc]
      rfl
  have hstrip : (body ++ mark).reverse.dropWhile Scan.isFloatMark = body.reverse := by
    rw [List.reverse_append, List.dropWhile_append_of_pos, hdrop]
    exact fun c hc => hm c (List.mem_reverse.mp hc)
  show Decimal.read? (String.ofList
    ((String.ofList (body ++ mark)).toList.reverse.dropWhile Scan.isFloatMark).reverse) = _
  rw [String.toList_ofList, hstrip, List.reverse_reverse]

variable {whole fraction : List Char}

theorem float?_point (hw : ∀ c ∈ whole, Scan.isDigit c = true)
    (hf : ∀ c ∈ fraction, Scan.isDigit c = true) (hne : whole ++ fraction ≠ [])
    (rest : List Char) :
    (float? (String.ofList (whole ++ '.' :: fraction ++ Scan.floatTail rest))).isSome = true := by
  obtain ⟨power, hp⟩ := Scan.readPower_exponent rest
  have hbody : ∀ c ∈ whole ++ '.' :: (fraction ++ Scan.exponent rest),
      Scan.isFloatMark c = false := by
    simp only [List.mem_append, List.mem_cons]
    rintro c (hc | rfl | hc | hc)
    · exact Scan.not_isFloatMark_of_isDigit (hw c hc)
    · decide
    · exact Scan.not_isFloatMark_of_isDigit (hf c hc)
    · exact Scan.not_isFloatMark_exponent rest c hc
  have hhead : ∀ c ∈ (whole ++ '.' :: (fraction ++ Scan.exponent rest)).head?,
      Decimal.isDigit c = true ∨ c = '.' := by
    cases whole with
    | nil => exact fun c hc => .inr (Option.some.inj hc).symm
    | cons d ds => exact fun c hc => .inl (Option.some.inj hc ▸ hw d List.mem_cons_self)
  have hshape : whole ++ '.' :: fraction ++ Scan.floatTail rest =
      (whole ++ '.' :: (fraction ++ Scan.exponent rest)) ++
        Scan.oneOf Scan.isFloatMark (rest.drop (Scan.exponent rest).length) := by
    simp [Scan.floatTail]
  rw [hshape, float?_append_mark (fun c => Scan.mem_oneOf) hbody,
    Decimal.read?_number (by simp) hhead,
    Decimal.readNumber_point hw hf (Scan.endsDigits_exponent rest) hne hp]
  rfl

theorem float?_exponent (hw : ∀ c ∈ whole, Scan.isDigit c = true) (hne : whole ≠ [])
    (rest : List Char) :
    (float? (String.ofList (whole ++ Scan.floatTail rest))).isSome = true := by
  obtain ⟨power, hp⟩ := Scan.readPower_exponent rest
  have hbody : ∀ c ∈ whole ++ Scan.exponent rest, Scan.isFloatMark c = false := by
    simp only [List.mem_append]
    rintro c (hc | hc)
    · exact Scan.not_isFloatMark_of_isDigit (hw c hc)
    · exact Scan.not_isFloatMark_exponent rest c hc
  have hhead : ∀ c ∈ (whole ++ Scan.exponent rest).head?, Decimal.isDigit c = true ∨ c = '.' := by
    cases whole with
    | nil => exact absurd rfl hne
    | cons d ds => exact fun c hc => .inl (Option.some.inj hc ▸ hw d List.mem_cons_self)
  have hpoint : (Scan.exponent rest).head? ≠ some '.' := by
    rcases Scan.exponent_eq rest with h | ⟨e, sign, digits, h, he, -⟩
    · simp [h]
    · rw [h]
      rcases he with rfl | rfl <;> simp
  rw [Scan.floatTail, ← List.append_assoc, float?_append_mark (fun c => Scan.mem_oneOf) hbody,
    Decimal.read?_number (by simp [hne]) hhead,
    Decimal.readNumber_plain hw (Scan.endsDigits_exponent rest) hpoint hne hp]
  rfl

end Literal

/-- The text of a float literal has a value. -/
def TokenKind.IsReadable : TokenKind → Prop
  | .floatLiteral text => (Literal.float? text).isSome = true
  | _ => True

theorem Scan.number_isReadable {c : Char} (hc : isDigit c = true) (cs : List Char) :
    (number (c :: cs)).1.IsReadable := by
  have hw : ∀ d ∈ (c :: cs).takeWhile isDigit, isDigit d = true :=
    List.all_eq_true.mp List.all_takeWhile
  have hne : (c :: cs).takeWhile isDigit ≠ [] := by simp [hc]
  unfold number
  dsimp only
  split
  · refine Literal.float?_point hw (List.all_eq_true.mp List.all_takeWhile) ?_ _
    exact fun h => hne (List.append_eq_nil_iff.mp h).1
  · split
    · exact Literal.float?_exponent hw hne _
    · trivial

theorem Scan.piece_isReadable {c : Char} {cs : List Char} {kind : TokenKind} {text : List Char}
    (h : piece c cs = .token kind text) : kind.IsReadable := by
  unfold piece at h
  split at h
  · cases h
  split at h
  · cases h
  split at h
  · obtain ⟨rfl, -⟩ : word _ = kind ∧ _ = text := by simpa using h
    unfold word
    dsimp only
    split <;> trivial
  split at h
  · rename_i hc
    obtain ⟨rfl, -⟩ : (number (c :: cs)).1 = kind ∧ _ := by simpa using h
    exact number_isReadable hc cs
  split at h
  · cases h
  · split at h <;> cases h
  · dsimp only at h
    have hf : ∀ d ∈ (if c = '.' then cs.takeWhile isDigit else []), isDigit d = true := by
      split
      · exact List.all_eq_true.mp List.all_takeWhile
      · simp
    generalize (if c = '.' then cs.takeWhile isDigit else []) = fraction at h hf
    split at h
    · rename_i hne
      cases h
      exact @Literal.float?_point [] fraction (by simp) hf (by simpa using hne) _
    · split at h <;> cases h
      trivial

/-- Every float literal of a source has a value. -/
theorem tokenize_isReadable {source : String} {tokens : List Token}
    (h : tokenize source = .ok tokens) : ∀ t ∈ tokens, t.kind.IsReadable :=
  tokenize_forall trivial (fun _ _ _ _ => Scan.piece_isReadable) h

end Shader
