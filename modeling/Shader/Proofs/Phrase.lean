import Shader.Proofs.Meaning
import Shader.Proofs.Number.Decimal
import Shader.Proofs.Parse.Reads
import Shader.Proofs.Scan

/-! Phrases: texts that scan to tokens which, before any closing token, parse to an expression with
a known meaning. Literals are phrases, and so is a type name with phrases in parentheses. -/

namespace Shader

open Parse

/-- A text that reads as one operand of the given type and value. The bound on the fuel leaves room
for what encloses a token. -/
structure IsPhrase (s : BindState) (text : List Char) (kinds : List TokenKind) (t : Ty)
    (v : Value) : Prop where
  start : ∃ c cs, text = c :: cs ∧ Scan.isBlank c = false
  first : ∃ k ks, kinds = k :: ks ∧ k ≠ .mark .rParen ∧ k ≠ .identifier "void"
  scans : ∀ rest, Scan.Delimited rest → Scans text kinds rest
  reads : ∀ n k tail, 24 * kinds.length ≤ n → EndsOperand k →
    Reads (unary n) (kinds ++ k :: tail) (k :: tail) fun e => Bind.Denotes s e t v

variable {s : BindState} {text digits : List Char} {kinds : List TokenKind} {t : Ty} {v : Value}

theorem reads_literal {kind k : TokenKind} {tail : List TokenKind} {Q : Expr → Prop}
    (hop : UnaryOp.ofToken? kind = none ∧ UpdateOp.ofToken? kind = none) (hk : EndsOperand k)
    (h : ∀ n, Reads (primary (n + 1)) (kind :: k :: tail) (k :: tail) Q) {n : Nat} (hn : 2 ≤ n) :
    Reads (unary n) (kind :: k :: tail) (k :: tail) Q := by
  obtain ⟨n, rfl⟩ : ∃ m, n = m + 2 := ⟨n - 2, by omega⟩
  exact reads_unary (by omega) hop hk (h n)

theorem isPhrase_literal {kind : TokenKind} {c : Char} {cs : List Char}
    (hc : Scan.isBlank c = false) (hfirst : kind ≠ .mark .rParen ∧ kind ≠ .identifier "void")
    (hop : UnaryOp.ofToken? kind = none ∧ UpdateOp.ofToken? kind = none)
    (hscans : ∀ rest, Scan.Delimited rest → Scans (c :: cs) [kind] rest)
    (hreads : ∀ n k tail, Reads (primary (n + 1)) (kind :: k :: tail) (k :: tail) fun e =>
      Bind.Denotes s e t v) : IsPhrase s (c :: cs) [kind] t v where
  start := ⟨c, cs, rfl, hc⟩
  first := ⟨kind, [], rfl, hfirst⟩
  scans := hscans
  reads n k tail hn hk := by
    rw [List.length_singleton] at hn
    exact reads_literal hop hk (fun n => hreads n k tail) (by omega)

theorem isPhrase_negation {kind : TokenKind} {c : Char} {cs : List Char}
    (hc : Scan.isDigit c = true)
    (hop : UnaryOp.ofToken? kind = none ∧ UpdateOp.ofToken? kind = none)
    (hscans : ∀ rest, Scan.Delimited rest → Scans (c :: cs) [kind] rest) {Q : Expr → Prop}
    (hreads : ∀ n k tail, Reads (primary (n + 1)) (kind :: k :: tail) (k :: tail) Q)
    (hneg : ∀ e note, Q e → Bind.Denotes s (.unary .neg e note) t v) :
    IsPhrase s ('-' :: c :: cs) [.mark .minus, kind] t v where
  start := ⟨'-', c :: cs, rfl, by decide⟩
  first := ⟨.mark .minus, [kind], rfl, by decide, by decide⟩
  scans rest hrest := by
    have hminus : Scans ['-'] [.mark .minus] ((c :: cs) ++ rest) := Scans.minus hc
    exact hminus.append (hscans rest hrest)
  reads n k tail hn hk := by
    obtain ⟨n, rfl⟩ : ∃ m, n = m + 1 := ⟨n - 1, by simp at hn; omega⟩
    refine (reads_negation (reads_literal hop hk (fun n => hreads n k tail) ?_)).mono ?_
    · simp at hn
      omega
    · rintro _ ⟨d, note, rfl, hd⟩
      exact hneg d note hd

theorem isPhrase_bool (b : Bool) :
    IsPhrase s (Scalar.text (.bool b)).toList
      [.keyword (if b then .trueWord else .falseWord)] .bool (.scalar (.bool b)) := by
  have hscans : ∀ rest, Scan.Delimited rest → Scans (if b then "true" else "false").toList
      [.keyword (if b then .trueWord else .falseWord)] rest := by
    intro rest hrest
    cases b with
    | true => exact Scans.word (c := 't') (by decide) (by decide) hrest
    | false => exact Scans.word (c := 'f') (by decide) (by decide) hrest
  have hreads : ∀ n k tail, Reads (primary (n + 1))
      (.keyword (if b then .trueWord else .falseWord) :: k :: tail) (k :: tail) fun e =>
        Bind.Denotes s e .bool (.scalar (.bool b)) := by
    intro n k tail
    refine (reads_bool b).mono ?_
    rintro _ ⟨note, rfl⟩
    exact Bind.denotes_bool b
  cases b with
  | true => exact isPhrase_literal (by decide) (by decide) (by decide) hscans hreads
  | false => exact isPhrase_literal (by decide) (by decide) (by decide) hscans hreads

theorem scans_digits {c : Char} {cs : List Char} {kind : TokenKind}
    (hc : Scan.isDigit c = true)
    (h : ∀ rest, Scan.Delimited rest → Scan.number ((c :: cs) ++ rest) = (kind, c :: cs)) :
    ∀ rest, Scan.Delimited rest → Scans (c :: cs) [kind] rest :=
  fun rest hrest => Scans.number hc (h rest hrest)

theorem isBlank_of_isDigit {c : Char} (h : Scan.isDigit c = true) : Scan.isBlank c = false :=
  (Scans.isBlank_of_isWordPart (by simp [Scan.isWordPart, h])).1

theorem isPhrase_digits {n : Nat} (h : Decimal.IsWhole digits n) (hn : n < twoPow 32) :
    IsPhrase s digits [.intLiteral (String.ofList digits)] .int
        (.scalar (.int (UInt32.ofNat n).toInt32)) ∧
      IsPhrase s (digits ++ ['u']) [.intLiteral (String.ofList (digits ++ ['u']))] .uint
        (.scalar (.uint (UInt32.ofNat n))) ∧
      IsPhrase s ('-' :: digits) [.mark .minus, .intLiteral (String.ofList digits)] .int
        (.scalar (.int (-(UInt32.ofNat n).toInt32))) := by
  obtain ⟨c, cs, rfl⟩ := List.exists_cons_of_ne_nil h.ne_nil
  have hc : Scan.isDigit c = true := h.isDigit_of_mem c (by simp)
  obtain ⟨hint, huint⟩ := Literal.int_digits h hn
  have hscans := scans_digits hc fun rest hrest => (Scan.number_digits h hrest).1
  have hscansu : ∀ rest, Scan.Delimited rest → Scans (c :: (cs ++ ['u']))
      [.intLiteral (String.ofList (c :: (cs ++ ['u'])))] rest :=
    scans_digits hc fun rest hrest => by simpa using (Scan.number_digits h hrest).2
  refine ⟨?_, ?_, ?_⟩
  · refine isPhrase_literal (isBlank_of_isDigit hc) (by simp) ⟨rfl, rfl⟩ hscans fun n k tail => ?_
    refine (reads_int _).mono ?_
    rintro _ ⟨note, rfl⟩
    exact Bind.denotes_int hint
  · refine isPhrase_literal (isBlank_of_isDigit hc) (by simp) ⟨rfl, rfl⟩ hscansu fun n k tail => ?_
    refine (reads_int _).mono ?_
    rintro _ ⟨note, rfl⟩
    exact Bind.denotes_int huint
  · refine isPhrase_negation hc ⟨rfl, rfl⟩ hscans (fun n k tail => reads_int _) ?_
    rintro _ m ⟨note, rfl⟩
    exact Bind.denotes_neg_int hint

theorem isPhrase_numeral {body : List Char} {power : Int} {x : Binary32}
    (h : Decimal.IsNumeral body digits power)
    (hx : Literal.float? (String.ofList body) = some x) :
    IsPhrase s body [.floatLiteral (String.ofList body)] .float (.scalar (.float x)) ∧
      IsPhrase s ('-' :: body) [.mark .minus, .floatLiteral (String.ofList body)] .float
        (.scalar (.float x.neg)) := by
  obtain ⟨c, cs, rfl, hc⟩ := h.head
  have hscans := scans_digits hc fun rest hrest => h.number_append hrest
  constructor
  · refine isPhrase_literal (isBlank_of_isDigit hc) (by simp) ⟨rfl, rfl⟩ hscans fun n k tail => ?_
    refine (reads_float _).mono ?_
    rintro _ ⟨note, rfl⟩
    exact Bind.denotes_float hx
  · refine isPhrase_negation hc ⟨rfl, rfl⟩ hscans (fun n k tail => reads_float _) ?_
    rintro _ m ⟨note, rfl⟩
    exact Bind.denotes_neg_float hx

/-- What encloses an operand that stands alone passes it on. -/
theorem IsPhrase.assignment (h : IsPhrase s text kinds t v) {k : TokenKind}
    {tail : List TokenKind} (hk : Closes k) {n : Nat} (hn : 24 * kinds.length + 14 ≤ n) :
    Reads (Parse.assignment n) (kinds ++ k :: tail) (k :: tail) fun e => Bind.Denotes s e t v := by
  have htop : 24 * kinds.length + 1 + BinaryOp.levels + 2 ≤ n := by
    rw [show BinaryOp.levels = 11 from rfl]
    omega
  refine reads_assignment hk (Nat.le_refl _) (by omega) (fun n hn => ?_) htop
  exact reads_tightest (fun n hn => h.reads n k tail hn hk.endsOperand) hn

variable {left right : List Char} {ls rs : List TokenKind} {a b x : Binary32}

theorem IsPhrase.reads_quotient (hl : IsPhrase s left ls .float (.scalar (.float a)))
    (ha : a.isNaN = false) (hr : IsPhrase s right rs .float (.scalar (.float b)))
    (hb : b.isNaN = false) (hx : (a.div b).canonical = x.canonical) (tail : List TokenKind)
    {n : Nat} (hn : 24 * (ls.length + rs.length) + 18 ≤ n) :
    Reads (expression n) (ls ++ .mark .slash :: (rs ++ .mark .rParen :: tail))
      (.mark .rParen :: tail) fun e =>
        ∀ span, Bind.Denotes s (e.withSpan span) .float (.scalar (.float x)) := by
  have hslash : EndsOperand (.mark .slash) := ⟨by decide, by decide, rfl⟩
  have hparen : Closes (.mark .rParen) := by simp [Closes]
  have hleft : ∀ m, 24 * (ls.length + rs.length) ≤ m →
      Reads (unary m) (ls ++ .mark .slash :: (rs ++ .mark .rParen :: tail))
        (.mark .slash :: (rs ++ .mark .rParen :: tail)) fun e =>
          Bind.Denotes s e .float (.scalar (.float a)) :=
    fun m hm => hl.reads m _ _ (by omega) hslash
  have hright : ∀ m, 24 * (ls.length + rs.length) ≤ m →
      Reads (unary m) (rs ++ .mark .rParen :: tail) (.mark .rParen :: tail) fun e =>
          Bind.Denotes s e .float (.scalar (.float b)) :=
    fun m hm => hr.reads m _ _ (by omega) hparen.endsOperand
  obtain ⟨r, rs, rfl, -⟩ := hr.first
  refine (reads_expression (by decide) (fun m hm => reads_assignment hparen (by decide)
    (Nat.succ_pos _) (fun m hm => Parse.reads_quotient hparen hleft hright hm) hm) ?_).mono ?_
  · rw [show BinaryOp.div.level = 10 from rfl]
    omega
  · rintro _ ⟨l, r, note, rfl, hl, hr⟩ span
    exact Bind.denotes_quotient hl ha hr hb hx

theorem IsPhrase.quotient (hl : IsPhrase s left ls .float (.scalar (.float a)))
    (ha : a.isNaN = false) (hr : IsPhrase s right rs .float (.scalar (.float b)))
    (hb : b.isNaN = false) (hx : (a.div b).canonical = x.canonical) :
    IsPhrase s ('(' :: (left ++ ([' ', '/', ' '] ++ (right ++ [')']))))
      (.mark .lParen :: (ls ++ (.mark .slash :: (rs ++ [.mark .rParen])))) .float
      (.scalar (.float x)) where
  start := ⟨'(', _, rfl, by decide⟩
  first := ⟨.mark .lParen, _, rfl, by decide, by decide⟩
  scans rest hrest := by
    obtain ⟨c, cs, rfl, hc⟩ := hr.start
    have hright : Scans ((c :: cs) ++ [')']) (rs ++ [.mark .rParen]) rest :=
      (hr.scans _ (by simp [Scan.Delimited])).append .rParen
    have hslash : Scans [' ', '/', ' '] [.mark .slash] ((c :: cs) ++ [')'] ++ rest) :=
      (Scans.blank (c := '/') (by decide)).append (Scans.slash.append (Scans.blank hc))
    exact Scans.lParen.append
      ((hl.scans _ (by simp [Scan.Delimited])).append (hslash.append hright))
  reads n k tail hn hk := by
    simp only [List.length_cons, List.length_append, List.length_nil] at hn
    obtain ⟨n, rfl⟩ : ∃ m, n = m + 2 := ⟨n - 2, by omega⟩
    have hexpression := hl.reads_quotient ha hr hb hx (k :: tail) (n := n) (by omega)
    simp only [List.cons_append, List.append_assoc, List.nil_append]
    obtain ⟨l, ls, rfl, -⟩ := hl.first
    refine reads_unary (by omega) ⟨rfl, rfl⟩ hk ((reads_parenthesized hexpression).mono ?_)
    rintro _ ⟨e, span, rfl, he⟩
    exact he span

theorem isPhrase_finite (hx : x.isFinite = true) :
    ∃ kinds, IsPhrase s x.decimalText.toList kinds .float (.scalar (.float x)) := by
  obtain ⟨body, ds, p, htext, hnumeral, hvalue⟩ := Binary32.decimalText_eq hx
  obtain ⟨hpositive, hnegative⟩ := isPhrase_numeral (s := s) hnumeral hvalue
  have hmake := x.make_magnitude
  rw [Binary32.neg_make x.magnitude_lt] at hnegative
  rw [htext]
  by_cases hsign : x.isNegative = true
  · rw [hsign] at hmake
    rw [hmake] at hnegative
    rw [if_pos hsign]
    exact ⟨_, hnegative⟩
  · rw [Bool.not_eq_true] at hsign
    rw [hsign] at hmake
    rw [hmake] at hpositive
    rw [hsign]
    exact ⟨_, hpositive⟩

theorem isNumeral_pointZero {c : Char} (hc : Decimal.isDigit c = true) :
    Decimal.IsNumeral [c, '.', '0'] [c, '0'] (-1) :=
  @Decimal.IsNumeral.point [c] ['0'] [] 0 (by simp) (by simpa using hc)
    (Decimal.isDigit_replicate 1) .none

theorem isPhrase_float (x : Binary32) :
    ∃ kinds, IsPhrase s (Scalar.floatText x).toList kinds .float (.scalar (.float x)) := by
  have hzero : IsPhrase s "0.0".toList [.floatLiteral "0.0"] .float (.scalar (.float .zero)) :=
    (isPhrase_numeral (isNumeral_pointZero (by decide)) (by decide +kernel)).1
  obtain ⟨hone, hminus⟩ : IsPhrase s "1.0".toList [.floatLiteral "1.0"] .float
      (.scalar (.float .one)) ∧ IsPhrase s "-1.0".toList [.mark .minus, .floatLiteral "1.0"] .float
      (.scalar (.float Binary32.one.neg)) :=
    isPhrase_numeral (isNumeral_pointZero (by decide)) (by decide +kernel)
  -- NaN and the infinities have no literal and are written as quotients.
  unfold Scalar.floatText
  split
  · rename_i hnan
    have hx : (Binary32.zero.div .zero).canonical = x.canonical := by
      rw [show x.canonical = .nan from if_pos hnan]
      decide +kernel
    exact ⟨_, hzero.quotient (by decide) hzero (by decide) hx⟩
  · split
    · rename_i hinf
      have hmake := x.make_magnitude
      rw [show x.magnitude = Binary32.infinityMagnitude from by
        simpa [Binary32.isInfinite] using hinf] at hmake
      split
      · rename_i hsign
        rw [hsign] at hmake
        exact ⟨_, hminus.quotient (by decide) hzero (by decide) (hmake ▸ by decide +kernel)⟩
      · rename_i hsign
        rw [Bool.not_eq_true] at hsign
        rw [hsign] at hmake
        exact ⟨_, hone.quotient (by decide) hzero (by decide) (hmake ▸ by decide +kernel)⟩
    · refine isPhrase_finite ?_
      rename_i hnan hinf
      simp only [Binary32.isNaN, Binary32.isInfinite, Binary32.isFinite, decide_eq_true_eq,
        beq_iff_eq] at hnan hinf ⊢
      omega

theorem isPhrase_int (i : Int32) :
    ∃ kinds, IsPhrase s (Scalar.text (.int i)).toList kinds .int (.scalar (.int i)) := by
  have hlow := i.le_toInt
  have hhigh := i.toInt_lt
  have hbits : i.toBitVec = BitVec.ofInt 32 i.toInt := by
    rw [← Int32.toInt_toBitVec, BitVec.ofInt_toInt]
  have h32 : twoPow 32 = 4294967296 := by decide
  rw [show Scalar.text (.int i) = toString i.toInt from rfl]
  cases hi : i.toInt with
  | ofNat n =>
    have hn : n < twoPow 32 := by
      rw [hi, Int.ofNat_eq_natCast] at hhigh
      omega
    have hsame : (UInt32.ofNat n).toInt32 = i := by
      apply Int32.toBitVec_inj.mp
      rw [hbits, hi]
      rfl
    have hphrase := (isPhrase_digits (s := s) (Decimal.isWhole_toString n) hn).1
    rw [hsame] at hphrase
    exact ⟨_, hphrase⟩
  | negSucc n =>
    have hn : n + 1 < twoPow 32 := by omega
    have hsame : -(UInt32.ofNat (n + 1)).toInt32 = i := by
      apply Int32.toBitVec_inj.mp
      rw [hbits, hi, Int.negSucc_eq, BitVec.ofInt_neg, Int32.toBitVec_neg]
      rfl
    have hphrase := (isPhrase_digits (s := s) (Decimal.isWhole_toString (n + 1)) hn).2.2
    rw [hsame] at hphrase
    rw [Decimal.toString_negSucc]
    exact ⟨_, hphrase⟩

theorem isPhrase_scalar (a : Scalar) :
    ∃ kinds, IsPhrase s a.text.toList kinds (.scalar a.kind) (.scalar a) := by
  cases a with
  | float x => exact isPhrase_float x
  | int i => exact isPhrase_int i
  | bool b => exact ⟨_, isPhrase_bool b⟩
  | uint u =>
    have hphrase := (isPhrase_digits (s := s) (Decimal.isWhole_toString u.toNat) u.toNat_lt).2.1
    rw [UInt32.ofNat_toNat] at hphrase
    rw [Scalar.text, String.toList_append]
    exact ⟨_, hphrase⟩

/-- A text that reads as arguments, at least one, with the given types and values. -/
structure IsList (s : BindState) (text : List Char) (kinds : List TokenKind) (ts : List Ty)
    (vs : List Value) : Prop where
  start : ∃ c cs, text = c :: cs ∧ Scan.isBlank c = false
  first : ∃ k ks, kinds = k :: ks ∧ k ≠ .mark .rParen ∧ k ≠ .identifier "void"
  scans : ∀ rest, Scans text kinds (')' :: rest)
  reads : ∀ n tail, 24 * kinds.length + 16 ≤ n →
    Reads (arguments n) (kinds ++ .mark .rParen :: tail) (.mark .rParen :: tail) fun es =>
      Bind.DenoteAll s es ts vs

variable {texts : List Char} {ks : List TokenKind} {ts : List Ty} {vs : List Value}

theorem IsPhrase.isList (h : IsPhrase s text kinds t v) : IsList s text kinds [t] [v] where
  start := h.start
  first := h.first
  scans rest := h.scans _ (by simp [Scan.Delimited])
  reads n tail hn := by
    obtain ⟨n, rfl⟩ : ∃ m, n = m + 1 := ⟨n - 1, by omega⟩
    refine reads_arguments_one (h.assignment (by simp [Closes]) (by omega)) fun e he => ?_
    exact he.cons Bind.denoteAll_nil

theorem IsPhrase.cons (h : IsPhrase s text kinds t v) (hs : IsList s texts ks ts vs) :
    IsList s (text ++ ([',', ' '] ++ texts)) (kinds ++ (.mark .comma :: ks)) (t :: ts)
      (v :: vs) where
  start := by
    obtain ⟨c, cs, rfl, hc⟩ := h.start
    exact ⟨c, _, rfl, hc⟩
  first := by
    obtain ⟨k, ks, rfl, hk⟩ := h.first
    exact ⟨k, _, rfl, hk⟩
  scans rest := by
    obtain ⟨c, cs, rfl, hc⟩ := hs.start
    have hcomma : Scans [',', ' '] [.mark .comma] ((c :: cs) ++ ')' :: rest) :=
      Scans.comma.append (Scans.blank hc)
    exact (h.scans _ (by simp [Scan.Delimited])).append (hcomma.append (hs.scans rest))
  reads n tail hn := by
    simp only [List.length_append, List.length_cons] at hn
    obtain ⟨n, rfl⟩ : ∃ m, n = m + 1 := ⟨n - 1, by omega⟩
    have hrest := hs.reads n tail (by omega)
    simp only [List.append_assoc, List.cons_append]
    obtain ⟨l, ls, rfl, -⟩ := hs.first
    refine reads_arguments_cons (h.assignment (by simp [Closes]) (by omega)) hrest ?_
    exact fun e es he hes => he.cons hes

/-- The texts are phrases of the types and values at their places. -/
inductive ArePhrases (s : BindState) : List String → List Ty → List Value → Prop
  | nil : ArePhrases s [] [] []
  | cons {p : String} {ps : List String} {kinds : List TokenKind} {t : Ty} {ts : List Ty}
      {v : Value} {vs : List Value} (h : IsPhrase s p.toList kinds t v)
      (hs : ArePhrases s ps ts vs) : ArePhrases s (p :: ps) (t :: ts) (v :: vs)

theorem ArePhrases.isList {ps : List String} (h : ArePhrases s ps ts vs) (hne : ps ≠ []) :
    ∃ kinds, IsList s (", ".intercalate ps).toList kinds ts vs := by
  induction h with
  | nil => exact absurd rfl hne
  | @cons p ps _ _ _ _ _ hp hs ih =>
    cases hs with
    | nil =>
      rw [String.intercalate_singleton]
      exact ⟨_, hp.isList⟩
    | cons hq hs =>
      obtain ⟨ks, hlist⟩ := ih (by simp)
      rw [String.intercalate_cons_cons, String.toList_append, String.toList_append,
        List.append_assoc]
      exact ⟨_, hp.cons hlist⟩

theorem ArePhrases.arguments {ps : List String} (h : ArePhrases s ps ts vs) :
    ∃ kinds, (∀ rest, Scans (", ".intercalate ps).toList kinds (')' :: rest)) ∧
      ∀ n k tail, 24 * kinds.length + 16 ≤ n →
        ReadsList n (kinds ++ .mark .rParen :: k :: tail) (.mark .rParen :: k :: tail) fun es =>
          Bind.DenoteAll s es ts vs := by
  cases h with
  | nil =>
    refine ⟨[], fun rest offset => ⟨[], offset, rfl, rfl, rfl⟩, fun n k tail _ => .inl ⟨rfl, ?_⟩⟩
    exact Bind.denoteAll_nil
  | cons hp hs =>
    obtain ⟨kinds, hlist⟩ := (ArePhrases.cons hp hs).isList (by simp)
    refine ⟨kinds, hlist.scans, fun n k tail hn => .inr ⟨?_, hlist.reads n _ hn⟩⟩
    obtain ⟨l, ls, rfl, hl⟩ := hlist.first
    exact ⟨l, _, rfl, hl⟩

/-- The word calls the constructor of the type, and with a size that of an array. -/
structure IsTypeName (s : BindState) (x : String) (t : Ty) : Prop where
  word : IsWord x
  not_void : x ≠ "void"
  plain : ∀ span, Bind.Constructs s ⟨calleeName x, span⟩ none t
  array : ∀ span inner text note n, Bind.IsSize text n →
    Bind.Constructs s ⟨calleeName x, span⟩ (some ⟨some (.int text note), inner⟩) (.array t (some n))

/-- A text that, in front of arguments, calls the constructor of the type. -/
structure IsHead (s : BindState) (text : List Char) (kinds : List TokenKind) (t : Ty) : Prop where
  start : ∃ c cs, text = c :: cs ∧ Scan.isBlank c = false
  first : ∃ x ks, kinds = .identifier x :: ks ∧ x ≠ "void"
  scans : ∀ rest, Scan.Delimited rest → Scans text kinds rest
  reads : ∀ n j k tail A, 16 ≤ n → ReadsList n j (.mark .rParen :: k :: tail) A →
    Reads (primary (n + 2)) (kinds ++ .mark .lParen :: j) (k :: tail) fun e =>
      ∃ callee suffix args note, e = .call callee suffix args .unresolved note ∧
        Bind.Constructs s callee suffix t ∧ A args

variable {x : String}

theorem IsWord.start (h : IsWord x) : ∃ c cs, x.toList = c :: cs ∧ Scan.isBlank c = false := by
  obtain ⟨c, cs, hspelled, hc, -⟩ := h.spelled
  exact ⟨c, cs, hspelled, (Scans.isBlank_of_isWordPart (by simp [Scan.isWordPart, hc])).1⟩

theorem IsTypeName.isHead (h : IsTypeName s x t) : IsHead s x.toList [.identifier x] t where
  start := h.word.start
  first := ⟨x, [], rfl, h.not_void⟩
  scans rest hrest := Scans.identifier h.word hrest
  reads n j k tail A hn hargs := by
    obtain ⟨n, rfl⟩ : ∃ m, n = m + 1 := ⟨n - 1, by omega⟩
    refine reads_primary_call (fun c hc => startsCall_lParen hc) fun start => ?_
    refine (reads_call (reads_noSuffix (by decide)) hargs).mono ?_
    rintro _ ⟨_, args, span, note, rfl, rfl, hA⟩
    exact ⟨_, _, _, _, rfl, h.plain span, hA⟩

theorem isSize_toString {n : Nat} (hpos : 1 ≤ n) (hn : n < twoPow 31) :
    Bind.IsSize (String.ofList (toString n).toList) n := by
  have h31 : twoPow 31 = 2147483648 := by decide
  have h32 : twoPow 32 = 4294967296 := by decide
  refine ⟨hpos, _, (Literal.int_digits (Decimal.isWhole_toString n) (by omega)).1, ?_⟩
  rw [← Int32.toInt_toBitVec]
  have hbits : (UInt32.ofNat n).toInt32.toBitVec = BitVec.ofNat 32 n := rfl
  rw [hbits, BitVec.toInt_ofNat']
  exact Int.bmod_eq_of_le (by omega) (by omega)

theorem reads_size {text : String} {tail : List TokenKind} {n : Nat} (hn : 15 ≤ n) :
    Reads (conditional n) (.intLiteral text :: .mark .rBracket :: tail) (.mark .rBracket :: tail)
      fun e => ∃ span, e = .int text (untyped span) := by
  have hbracket : Closes (.mark .rBracket) := by simp [Closes]
  refine reads_conditional (N := 3) hbracket (Nat.le_refl _) (by omega) (fun n hn => ?_) hn
  refine reads_tightest (N := 2) (fun n hn => ?_) hn
  exact reads_literal ⟨rfl, rfl⟩ hbracket.endsOperand (fun n => reads_int text) hn

theorem IsTypeName.isHead_array (h : IsTypeName s x t) {n : Nat} (hpos : 1 ≤ n)
    (hn : n < twoPow 31) :
    IsHead s (x.toList ++ ('[' :: ((toString n).toList ++ [']'])))
      [.identifier x, .mark .lBracket, .intLiteral (String.ofList (toString n).toList),
        .mark .rBracket] (.array t (some n)) where
  start := by
    obtain ⟨c, cs, hspelled, hc⟩ := h.word.start
    rw [hspelled]
    exact ⟨c, _, rfl, hc⟩
  first := ⟨x, _, rfl, h.not_void⟩
  scans rest hrest := by
    have h31 : twoPow 31 < twoPow 32 := by decide
    obtain ⟨hsize, -⟩ :=
      isPhrase_digits (s := s) (Decimal.isWhole_toString n) (Nat.lt_trans hn h31)
    have hclose : Scans ((toString n).toList ++ [']']) ([_] ++ [.mark .rBracket]) rest :=
      (hsize.scans _ (by simp [Scan.Delimited])).append .rBracket
    exact (Scans.identifier h.word (by simp [Scan.Delimited])).append
      (Scans.lBracket.append hclose)
  reads m j k tail A hm hargs := by
    obtain ⟨m, rfl⟩ : ∃ l, m = l + 1 := ⟨m - 1, by omega⟩
    refine reads_primary_call (fun c hc => startsCall_brackets hc) fun start => ?_
    refine (reads_call (reads_suffix (by simp) (reads_size (by omega))) hargs).mono ?_
    rintro _ ⟨_, args, span, note, rfl, ⟨_, inner, rfl, size, rfl⟩, hA⟩
    exact ⟨_, _, _, _, rfl, h.array span inner _ (untyped size) n (isSize_toString hpos hn), hA⟩

variable {head : List Char} {hs : List TokenKind}

theorem IsHead.call (h : IsHead s head hs t) {ps : List String} (hargs : ArePhrases s ps ts vs)
    (hbuild : ∀ cs, AreOf cs ts vs → Fold.Builds t cs v) :
    ∃ kinds, IsPhrase s (head ++ ('(' :: ((", ".intercalate ps).toList ++ [')']))) kinds t v := by
  obtain ⟨ks, hscans, hreads⟩ := hargs.arguments
  refine ⟨hs ++ (.mark .lParen :: (ks ++ [.mark .rParen])), ?_, ?_, ?_, ?_⟩
  · obtain ⟨c, cs, rfl, hc⟩ := h.start
    exact ⟨c, _, rfl, hc⟩
  · obtain ⟨x, xs, rfl, hx⟩ := h.first
    exact ⟨_, _, rfl, by simp, by simpa using hx⟩
  · intro rest hrest
    have hclose : Scans ((", ".intercalate ps).toList ++ [')']) (ks ++ [.mark .rParen]) rest :=
      (hscans rest).append .rParen
    exact (h.scans _ (by simp [Scan.Delimited])).append (Scans.lParen.append hclose)
  · intro n k tail hn hk
    simp only [List.length_append, List.length_cons, List.length_nil] at hn
    obtain ⟨n, rfl⟩ : ∃ m, n = m + 3 := ⟨n - 3, by omega⟩
    simp only [List.append_assoc, List.cons_append, List.nil_append]
    have hcall := h.reads n _ k tail _ (by omega) (hreads n k tail (by omega))
    obtain ⟨x, xs, rfl, -⟩ := h.first
    refine reads_unary (by omega) ⟨rfl, rfl⟩ hk (hcall.mono ?_)
    rintro _ ⟨callee, suffix, args, note, rfl, hconstructs, hdenote⟩
    exact Bind.denotes_call hconstructs hdenote hbuild

end Shader
