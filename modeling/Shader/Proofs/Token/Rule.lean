import Shader.Token.Scan

/-! The rules by which a text is cut into pieces. Each rule is a pattern: it says what a piece looks
like and leaves open how long a piece is taken. -/

namespace Shader

/-- What a piece of text can look like. -/
inductive Pattern where
  | one (p : Char → Bool)
  | literal (text : List Char)
  | seq (a b : Pattern)
  | opt (a : Pattern)
  /-- Any number of pieces, also none. -/
  | many (a : Pattern)

namespace Pattern

inductive Matches : Pattern → List Char → Prop where
  | one {p : Char → Bool} {c : Char} : p c = true → Matches (.one p) [c]
  | literal (text : List Char) : Matches (.literal text) text
  | seq {a b : Pattern} {s t : List Char} :
    Matches a s → Matches b t → Matches (.seq a b) (s ++ t)
  | absent {a : Pattern} : Matches (.opt a) []
  | present {a : Pattern} {s : List Char} : Matches a s → Matches (.opt a) s
  | nil {a : Pattern} : Matches (.many a) []
  | cons {a : Pattern} {s t : List Char} :
    Matches a s → Matches (.many a) t → Matches (.many a) (s ++ t)

def several (a : Pattern) : Pattern :=
  .seq a (.many a)

variable {a b : Pattern} {p : Char → Bool} {w text : List Char}

@[simp] theorem matches_one : Matches (.one p) w ↔ ∃ c, w = [c] ∧ p c = true := by
  constructor
  · rintro (h | _)
    exact ⟨_, rfl, h⟩
  · rintro ⟨c, rfl, h⟩
    exact .one h

@[simp] theorem matches_literal : Matches (.literal text) w ↔ w = text := by
  constructor
  · rintro (_ | _)
    rfl
  · rintro rfl
    exact .literal _

theorem matches_seq : Matches (.seq a b) w ↔ ∃ s t, w = s ++ t ∧ Matches a s ∧ Matches b t := by
  constructor
  · rintro (_ | _ | ⟨ha, hb⟩)
    exact ⟨_, _, rfl, ha, hb⟩
  · rintro ⟨s, t, rfl, ha, hb⟩
    exact .seq ha hb

theorem matches_opt : Matches (.opt a) w ↔ w = [] ∨ Matches a w := by
  constructor
  · intro h
    cases h with
    | absent => exact .inl rfl
    | present h => exact .inr h
  · rintro (rfl | h)
    · exact .absent
    · exact .present h

theorem matches_literal_seq :
    Matches (.seq (.literal text) b) w ↔ ∃ t, w = text ++ t ∧ Matches b t := by
  simp only [matches_seq, matches_literal]
  constructor
  · rintro ⟨_, t, rfl, rfl, ht⟩
    exact ⟨t, rfl, ht⟩
  · rintro ⟨t, rfl, ht⟩
    exact ⟨_, t, rfl, rfl, ht⟩

theorem matches_one_seq :
    Matches (.seq (.one p) b) w ↔ ∃ c t, w = c :: t ∧ p c = true ∧ Matches b t := by
  simp only [matches_seq, matches_one]
  constructor
  · rintro ⟨_, t, rfl, ⟨c, rfl, hc⟩, ht⟩
    exact ⟨c, t, rfl, hc, ht⟩
  · rintro ⟨c, t, rfl, hc, ht⟩
    exact ⟨[c], t, rfl, ⟨c, rfl, hc⟩, ht⟩

theorem matches_run : Matches (.many (.one p)) w ↔ ∀ c ∈ w, p c = true := by
  constructor
  · intro h
    generalize ha : Pattern.many (.one p) = a at h
    induction h with
    | nil => simp
    | @cons b s t hs _ _ ih =>
      obtain rfl := Pattern.many.inj ha
      obtain ⟨c, rfl, hc⟩ := matches_one.mp hs
      exact List.forall_mem_cons.mpr ⟨hc, ih rfl⟩
    | _ => cases ha
  · intro h
    induction w with
    | nil => exact .nil
    | cons c w ih =>
      obtain ⟨hc, hw⟩ := List.forall_mem_cons.mp h
      exact .cons (.one hc) (ih hw)

theorem matches_several : Matches (several (.one p)) w ↔ w ≠ [] ∧ ∀ c ∈ w, p c = true := by
  unfold several
  rw [matches_one_seq]
  constructor
  · rintro ⟨c, t, rfl, hc, ht⟩
    exact ⟨by simp, List.forall_mem_cons.mpr ⟨hc, matches_run.mp ht⟩⟩
  · rintro ⟨hne, hw⟩
    obtain ⟨c, t, rfl⟩ := List.exists_cons_of_ne_nil hne
    obtain ⟨hc, ht⟩ := List.forall_mem_cons.mp hw
    exact ⟨c, t, rfl, hc, matches_run.mpr ht⟩

end Pattern

inductive Rule where
  | blanks
  | lineComment
  | blockComment
  /-- A number sign, wherever it stands, and the rest of its line. -/
  | directive
  | keyword (k : Keyword)
  | identifier
  | hexInt
  | int
  /-- A float with digits before its point. -/
  | pointFloat
  /-- A float that starts with its point. -/
  | fractionFloat
  | exponentFloat
  | mark (m : Mark)

namespace Rule

open Pattern

def digit : Pattern :=
  .one Scan.isDigit

def exponent : Pattern :=
  .seq (.one fun c => c = 'e' || c = 'E')
    (.seq (.opt (.one fun c => c = '+' || c = '-')) (several digit))

def floatTail : Pattern :=
  .seq (.opt exponent) (.opt (.one Scan.isFloatMark))

/-- What is inside a comment up to a run of stars, with that run. -/
def starred : Pattern :=
  .seq (.many (.one (· ≠ '*'))) (several (.one (· = '*')))

/-- A comment after its opening: runs of stars that no slash follows, and then one that a slash
does. -/
def commentRest : Pattern :=
  .seq starred (.seq (.many (.seq (.one fun c => c ≠ '/' && c ≠ '*') starred)) (.literal ['/']))

def pattern : Rule → Pattern
  | blanks => several (.one Scan.isBlank)
  | lineComment => .seq (.literal ['/', '/']) (.many (.one (· ≠ '\n')))
  | blockComment => .seq (.literal ['/', '*']) commentRest
  | directive => .seq (.literal ['#']) (.many (.one (· ≠ '\n')))
  | keyword k => .literal k.text.toList
  | identifier => .seq (.one Scan.isWordStart) (.many (.one Scan.isWordPart))
  | hexInt =>
    .seq (.literal ['0']) (.seq (.one fun c => c = 'x' || c = 'X')
      (.seq (several (.one Scan.isHexDigit)) (.opt (.one Scan.isUnsignedMark))))
  | int => .seq (several digit) (.opt (.one Scan.isUnsignedMark))
  | pointFloat => .seq (several digit) (.seq (.literal ['.']) (.seq (.many digit) floatTail))
  | fractionFloat => .seq (.literal ['.']) (.seq (several digit) floatTail)
  | exponentFloat => .seq (several digit) (.seq exponent (.opt (.one Scan.isFloatMark)))
  | mark m => .literal m.chars

/-- The rule matches the whole text. -/
def Matches (r : Rule) (text : List Char) : Prop :=
  r.pattern.Matches text

/-- The token that a piece of the rule stands for; blanks, comments and directives stand for
none. -/
def kind? : Rule → (text : List Char) → Option TokenKind
  | blanks, _ | lineComment, _ | blockComment, _ | directive, _ => none
  | keyword k, _ => some (.keyword k)
  | identifier, text => some (.identifier (String.ofList text))
  | hexInt, text | int, text => some (.intLiteral (String.ofList text))
  | pointFloat, text | fractionFloat, text | exponentFloat, text =>
    some (.floatLiteral (String.ofList text))
  | mark m, _ => some (.mark m)

/-- At the front of `l`, the rule takes `text`: no rule takes more, and one that takes as much
stands for the same token, unless it is the rule for identifiers and the word is a keyword. -/
structure Selects (r : Rule) (text l : List Char) : Prop where
  applies : r.Matches text
  front : text <+: l
  longest : ∀ (r' : Rule) text', r'.Matches text' → text' <+: l → text'.length ≤ text.length
  preferred : ∀ r' : Rule, r'.Matches text →
    r'.kind? text = r.kind? text ∨ r' = .identifier ∧ ∃ k, r = .keyword k

end Rule

/-- A comment starts at the front of `l` and is not closed. -/
def Unclosed (l : List Char) : Prop :=
  ['/', '*'] <+: l ∧ ∀ text, Rule.blockComment.Matches text → ¬ text <+: l

/-- No piece can be taken at the front of `l`. -/
def Stuck (l : List Char) : Prop :=
  (∀ (r : Rule) text, r.Matches text → ¬ text <+: l) ∨ Unclosed l

end Shader
