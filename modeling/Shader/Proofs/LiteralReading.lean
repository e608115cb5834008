import Shader.Proofs.IntLiteral
import Shader.Proofs.Literal
import Shader.Proofs.Token.Munch

/-! Reading any text as an integer literal. A text has one radix and one row of digits, and these say
which value or which error it has. The texts that scanning cuts out as literals have digits. -/

namespace Shader

namespace Literal

/-- What a text is read as. A text without digits, one with a character that is no digit and one
that denotes too large a number have their own errors; the first such character is told. -/
inductive Reads (text : String) : Except LiteralError Scalar → Prop
  | noDigits {unsigned : Bool} {base : Nat} (h : Written text unsigned base []) :
    Reads text (.error (.noDigits text))
  | invalidDigit {unsigned : Bool} {base : Nat} {before after : List Char} {c : Char}
    (h : Written text unsigned base (before ++ c :: after))
    (hbefore : ∀ d ∈ before, digitRank d < base) (hc : base ≤ digitRank c) :
    Reads text (.error (.invalidDigit text c))
  | overflow {unsigned : Bool} {base : Nat} {digits : List Char} {n : Nat}
    (h : Written text unsigned base digits) (hn : Denotes base digits n) (hlarge : 0xffffffff < n) :
    Reads text (.error (.overflow text))
  | uint {base : Nat} {digits : List Char} {n : Nat} (h : Written text true base digits)
    (hn : Denotes base digits n) (hle : n ≤ 0xffffffff) : Reads text (.ok (.uint (.ofNat n)))
  | int {base : Nat} {digits : List Char} {n : Nat} (h : Written text false base digits)
    (hn : Denotes base digits n) (hle : n ≤ 0xffffffff) :
    Reads text (.ok (.int (UInt32.ofNat n).toInt32))

theorem toNat_of_digit? {c : Char} {d : Nat} (h : digit? 16 c = some d) : c.toNat < 128 := by
  have hle : ∀ {last : Char}, last.toNat < 128 → c ≤ last → c.toNat < 128 := fun hlast hc =>
    Nat.lt_of_le_of_lt (UInt32.le_iff_toNat_le.mp hc) hlast
  simp only [digit?, Bool.and_eq_true, decide_eq_true_eq] at h
  split at h
  · exact hle (by decide) (‹_ ∧ c ≤ '9'›).2
  · split at h
    · exact hle (by decide) (‹_ ∧ c ≤ 'f'›).2
    · split at h
      · exact hle (by decide) (‹_ ∧ c ≤ 'F'›).2
      · cases h

theorem digitRank_of_digit? {c : Char} {d : Nat} (h : digit? 16 c = some d) : digitRank c = d := by
  have hall : ∀ n < 128, ∀ d ∈ digit? 16 (Char.ofNat n), digitRank (Char.ofNat n) = d := by
    decide +kernel
  have hc := hall c.toNat (toNat_of_digit? h)
  rw [Char.ofNat_toNat] at hc
  exact hc d h

theorem digit?_eq_none {base : Nat} {c : Char} (hbase : base ≤ 16) (h : base ≤ digitRank c) :
    digit? base c = none := by
  rw [digit?_filter hbase]
  cases hd : digit? 16 c with
  | none => rfl
  | some d =>
    rw [digitRank_of_digit? hd] at h
    simp [Option.filter, Nat.not_lt.mpr h]

theorem ofDigits_eq_error {base : Nat} (hbase : base ≤ 16) {before : List Char} {c : Char}
    (hbefore : ∀ d ∈ before, digitRank d < base) (hc : base ≤ digitRank c) (after : List Char) :
    ofDigits base (before ++ c :: after) = .error c := by
  have hread := ofDigits_eq_ofDigits hbase hbefore
  unfold ofDigits ofDigitsFrom at hread ⊢
  rw [List.foldlM_append, hread]
  simp only [List.foldlM_cons, digit?_eq_none hbase hc]
  rfl

theorem denotes_or_exists_not_digit (base : Nat) {digits : List Char} (hne : digits ≠ []) :
    (∃ n, Denotes base digits n) ∨ ∃ before c after, digits = before ++ c :: after ∧
      (∀ d ∈ before, digitRank d < base) ∧ base ≤ digitRank c := by
  cases hfind : digits.find? (base ≤ digitRank ·) with
  | none =>
    have hdigits : ∀ c ∈ digits, digitRank c < base := by simpa using hfind
    exact .inl ⟨_, hne, hdigits, rfl⟩
  | some c =>
    obtain ⟨hc, before, after, hsplit, hbefore⟩ := List.find?_eq_some_iff_append.mp hfind
    exact .inr ⟨before, c, after, hsplit, by simpa using hbefore, of_decide_eq_true hc⟩

theorem exists_marked (cs : List Char) : ∃ body unsigned, Marked cs body unsigned := by
  cases hlast : cs.getLast? with
  | none => exact ⟨cs, false, .signed (by simp [hlast])⟩
  | some c =>
    by_cases hc : c = 'u' ∨ c = 'U'
    · obtain ⟨body, rfl⟩ := List.getLast?_eq_some_iff.mp hlast
      exact ⟨body, true, .unsigned hc⟩
    · exact ⟨cs, false, .signed (by simpa [hlast] using hc)⟩

theorem exists_inRadix (body : List Char) : ∃ base digits, InRadix body base digits := by
  rcases body with _ | ⟨c, _ | ⟨x, digits⟩⟩
  · exact ⟨10, [], .decimal (by simp)⟩
  · exact ⟨10, [c], .decimal (by simp)⟩
  · by_cases hc : c = '0'
    · subst hc
      by_cases hx : x = 'x' ∨ x = 'X'
      · exact ⟨16, digits, .hex hx⟩
      · exact ⟨8, x :: digits, .octal (not_or.mp hx)⟩
    · exact ⟨10, c :: x :: digits, .decimal (by simp [hc])⟩

theorem exists_written (text : String) :
    ∃ unsigned base digits, Written text unsigned base digits := by
  obtain ⟨body, unsigned, hbody⟩ := exists_marked text.toList
  obtain ⟨base, digits, hdigits⟩ := exists_inRadix body
  exact ⟨unsigned, base, digits, body, hbody, hdigits⟩

theorem int_of_reads {text : String} {r : Except LiteralError Scalar} (h : Reads text r) :
    int text = r := by
  cases h with
  | noDigits h =>
    obtain ⟨body, hbody, hradix⟩ := h
    simp only [int, hbody.unsignedMark_eq, hradix.radix_eq, List.isEmpty_nil, if_true]
  | @invalidDigit _ _ before after c h hbefore hc =>
    have hread := ofDigits_eq_error h.base_le hbefore hc after
    obtain ⟨body, hbody, hradix⟩ := h
    exact int_of_error hbody.unsignedMark_eq hradix.radix_eq hread
  | overflow h hn hlarge => rw [h.int_of_denotes hn, if_pos hlarge]
  | uint h hn hle =>
    rw [h.int_of_denotes hn, if_neg (Nat.not_lt.mpr hle)]
    rfl
  | int h hn hle =>
    rw [h.int_of_denotes hn, if_neg (Nat.not_lt.mpr hle)]
    rfl

theorem exists_reads (text : String) : ∃ r, Reads text r := by
  obtain ⟨unsigned, base, digits, h⟩ := exists_written text
  by_cases hne : digits = []
  · subst hne
    exact ⟨_, .noDigits h⟩
  · rcases denotes_or_exists_not_digit base hne with ⟨n, hn⟩ | ⟨before, c, after, rfl, hbefore, hc⟩
    · rcases Nat.lt_or_ge 0xffffffff n with hlarge | hle
      · exact ⟨_, .overflow h hn hlarge⟩
      · cases unsigned with
        | true => exact ⟨_, .uint h hn hle⟩
        | false => exact ⟨_, .int h hn hle⟩
    · exact ⟨_, .invalidDigit h hbefore hc⟩

theorem int_eq_iff_reads {text : String} {r : Except LiteralError Scalar} :
    int text = r ↔ Reads text r := by
  constructor
  · rintro rfl
    obtain ⟨r, hr⟩ := exists_reads text
    rwa [int_of_reads hr]
  · exact int_of_reads

theorem Written.shape_of_nil {text : String} {unsigned : Bool} {base : Nat}
    (h : Written text unsigned base []) : ∃ mark : List Char, (∀ c ∈ mark, c = 'u' ∨ c = 'U') ∧
      (text.toList = mark ∨ ∃ x, (x = 'x' ∨ x = 'X') ∧ text.toList = '0' :: x :: mark) := by
  obtain ⟨body, hbody, hradix⟩ := h
  obtain ⟨mark, hmark, htext⟩ : ∃ mark : List Char, (∀ c ∈ mark, c = 'u' ∨ c = 'U') ∧
      text.toList = body ++ mark := by
    generalize text.toList = cs at hbody
    cases hbody with
    | @unsigned _ c hc => exact ⟨[c], by simpa using hc, rfl⟩
    | signed => exact ⟨[], by simp, by simp⟩
  refine ⟨mark, hmark, ?_⟩
  cases hradix with
  | @hex x _ hx => exact .inr ⟨x, hx, htext⟩
  | decimal => exact .inl htext

end Literal

namespace Rule

open Pattern Literal

variable {cs : List Char} {unsigned : Bool} {base : Nat}

theorem not_written_nil_of_hexInt (h : hexInt.Matches cs) :
    ¬ Written (String.ofList cs) unsigned base [] := by
  intro hwritten
  obtain ⟨mark, hmark, hshape⟩ := hwritten.shape_of_nil
  rw [String.toList_ofList] at hshape
  obtain ⟨_, rfl, hstart⟩ := matches_literal_seq.mp h
  obtain ⟨x, _, rfl, -, hrest⟩ := matches_one_seq.mp hstart
  obtain ⟨digits, tail, rfl, hdigits, -⟩ := matches_seq.mp hrest
  obtain ⟨hne, hdigits⟩ := matches_several.mp hdigits
  obtain ⟨d, digits, rfl⟩ := List.exists_cons_of_ne_nil hne
  have hd := hdigits d List.mem_cons_self
  rcases hshape with rfl | ⟨_, -, heq⟩
  · exact absurd (hmark '0' List.mem_cons_self) (by decide)
  · obtain rfl := (List.cons.inj (List.cons.inj heq).2).2
    rcases hmark d List.mem_cons_self with rfl | rfl
    · exact absurd hd (by decide)
    · exact absurd hd (by decide)

theorem not_written_nil_of_int (h : int.Matches cs) :
    ¬ Written (String.ofList cs) unsigned base [] := by
  intro hwritten
  obtain ⟨mark, hmark, hshape⟩ := hwritten.shape_of_nil
  rw [String.toList_ofList] at hshape
  obtain ⟨digits, tail, rfl, hdigits, htail⟩ := matches_seq.mp h
  obtain ⟨hne, hdigits⟩ := matches_several.mp hdigits
  obtain ⟨d, digits, rfl⟩ := List.exists_cons_of_ne_nil hne
  rcases hshape with rfl | ⟨x, hx, heq⟩
  · have hd := hdigits d List.mem_cons_self
    rcases hmark d List.mem_cons_self with rfl | rfl
    · exact absurd hd (by decide)
    · exact absurd hd (by decide)
  · -- After the 0 there is a digit or a mark, and no start of a hexadecimal literal is either.
    have hrest : digits ++ tail = x :: mark := (List.cons.inj heq).2
    cases digits with
    | cons e digits =>
      obtain rfl : e = x := (List.cons.inj hrest).1
      have he := hdigits e (List.mem_cons_of_mem d List.mem_cons_self)
      rcases hx with rfl | rfl
      · exact absurd he (by decide)
      · exact absurd he (by decide)
    | nil =>
      obtain rfl : tail = x :: mark := hrest
      rcases matches_opt.mp htail with hnil | hmark
      · cases hnil
      · obtain ⟨c, heq, hc⟩ := matches_one.mp hmark
        obtain rfl : x = c := (List.cons.inj heq).1
        rcases hx with rfl | rfl
        · exact absurd hc (by decide)
        · exact absurd hc (by decide)

/-- What is cut out as an integer literal has digits. -/
theorem int_ne_noDigits {r : Rule} {text : String} (h : r.Matches cs)
    (hkind : r.kind? cs = some (.intLiteral text)) (literal : String) :
    Literal.int text ≠ .error (.noDigits literal) := by
  intro hint
  have hreads := int_eq_iff_reads.mp hint
  cases hreads with
  | noDigits hwritten =>
    cases r with
    | hexInt =>
      obtain rfl : String.ofList cs = text := by simpa [kind?] using hkind
      exact not_written_nil_of_hexInt h hwritten
    | int =>
      obtain rfl : String.ofList cs = text := by simpa [kind?] using hkind
      exact not_written_nil_of_int h hwritten
    | _ => simp [kind?] at hkind

end Rule

open Literal in
/-- Every text is read as an integer as it is written, and no literal of a source lacks digits or,
as a float, a value. -/
theorem literals_mean_their_value :
    (∀ text r, int text = r ↔ Reads text r) ∧
    ∀ source tokens, tokenize source = .ok tokens → ∀ t ∈ tokens, ∀ text,
      (t.kind = .intLiteral text → ∀ literal, int text ≠ .error (.noDigits literal)) ∧
      (t.kind = .floatLiteral text → ∃ x, float? text = some x) := by
  refine ⟨fun _ _ => int_eq_iff_reads, fun source tokens h t ht text => ⟨fun hkind => ?_, ?_⟩⟩
  · obtain ⟨front, rfl, htaken⟩ := (munched_of_tokenize h).taken
    rcases List.mem_append.mp ht with hfront | hlast
    · obtain ⟨-, r, cs, ⟨_, _, -, hselects, -⟩, hrule⟩ := htaken t hfront
      exact Rule.int_ne_noDigits hselects.applies (hrule.trans (congrArg some hkind))
    · rw [List.mem_singleton.mp hlast] at hkind
      cases hkind
  · intro hkind
    have hreadable := tokenize_isReadable h t ht
    rw [hkind] at hreadable
    exact Option.isSome_iff_exists.mp hreadable

open Literal in
/-- Marks and starts that overlap the digits, a number that takes the bit of the sign, and the two
literals of a source. -/
theorem literals_mean_their_value_overlapping :
    (Reads "0u" (.ok (.uint 0)) ∧ Reads "0xffffffff" (.ok (.int (-1))) ∧
      Reads "0xU" (.error (.noDigits "0xU")) ∧ Reads "u" (.error (.noDigits "u")) ∧
      Reads "08u9" (.error (.invalidDigit "08u9" '8')) ∧
      Reads "040000000000" (.error (.overflow "040000000000"))) ∧
    tokenize "00u.5e1f" =
      .ok [⟨.intLiteral "00u", ⟨0, 3⟩⟩, ⟨.floatLiteral ".5e1f", ⟨3, 8⟩⟩, ⟨.eof, ⟨8, 8⟩⟩] ∧
    int "00u" ≠ .error (.noDigits "00u") ∧ ∃ x, float? ".5e1f" = some x := by
  obtain ⟨hreads, hlexed⟩ := literals_mean_their_value
  have htokens : tokenize "00u.5e1f" =
      .ok [⟨.intLiteral "00u", ⟨0, 3⟩⟩, ⟨.floatLiteral ".5e1f", ⟨3, 8⟩⟩, ⟨.eof, ⟨8, 8⟩⟩] := by rfl
  refine ⟨⟨?_, ?_, ?_, ?_, ?_, ?_⟩, htokens, ?_, ?_⟩
  · exact (hreads _ _).mp (by decide +kernel)
  · exact (hreads _ _).mp (by decide +kernel)
  · exact (hreads _ _).mp (by decide +kernel)
  · exact (hreads _ _).mp (by decide +kernel)
  · exact (hreads _ _).mp (by decide +kernel)
  · exact (hreads _ _).mp (by decide +kernel)
  · exact (hlexed _ _ htokens _ List.mem_cons_self "00u").1 rfl _
  · exact (hlexed _ _ htokens _ (List.mem_cons_of_mem _ List.mem_cons_self) ".5e1f").2 rfl

end Shader
