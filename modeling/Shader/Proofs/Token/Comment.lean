import Shader.Proofs.Token.Munch

/-! Where comments end. A rule takes all it can, and the rule for comments speaks of runs of stars
and not of closings. All the same it has at most one match at a place: up to the first closing
behind the opening. -/

namespace Shader

open Scan

/-- A closing of a comment stands at place `i` of the text. -/
def ClosingAt (l : List Char) (i : Nat) : Prop :=
  ['*', '/'] <+: l.drop i

instance (l : List Char) (i : Nat) : Decidable (ClosingAt l i) :=
  inferInstanceAs (Decidable (_ <+: _))

/-- From place `start` on, the first closing stands at place `i`. -/
structure FirstClosing (l : List Char) (start i : Nat) : Prop where
  behind : start ≤ i
  closing : ClosingAt l i
  first : ∀ j < i, start ≤ j → ¬ ClosingAt l j

/-- The rule matches `text` at the front of `l` and nothing longer. -/
structure Rule.Longest (r : Rule) (text l : List Char) : Prop where
  applies : r.Matches text
  front : text <+: l
  longest : ∀ text', r.Matches text' → text' <+: l → text'.length ≤ text.length

variable {c : Char} {l rest text : List Char} {i n : Nat}

theorem closingAt_zero : ClosingAt (c :: l) 0 ↔ c = '*' ∧ l.head? = some '/' := by
  unfold ClosingAt
  rw [List.drop_zero, List.cons_prefix_cons]
  cases l with
  | nil => simp
  | cons d l => simp [eq_comm]

theorem FirstClosing.eq {start j : Nat} (hi : FirstClosing l start i)
    (hj : FirstClosing l start j) : i = j := by
  rcases Nat.lt_trichotomy i j with hlt | heq | hlt
  · exact absurd hi.closing (hj.first i hlt hi.behind)
  · exact heq
  · exact absurd hj.closing (hi.first j hlt hj.behind)

theorem FirstClosing.opened {d : Char} (h : FirstClosing l 0 i) :
    FirstClosing (c :: d :: l) 2 (i + 2) where
  behind := Nat.le_add_left 2 i
  closing := h.closing
  first j hj hbehind := by
    obtain ⟨k, rfl⟩ := Nat.exists_eq_add_of_le' hbehind
    exact h.first k (Nat.lt_of_add_lt_add_right hj) (Nat.zero_le k)

/-- The scanner's search stops behind the first closing. -/
theorem pastClosing_eq_some (h : pastClosing l = some n) : ∃ i, n = i + 2 ∧ FirstClosing l 0 i := by
  induction l generalizing n with
  | nil => cases h
  | cons c l ih =>
    by_cases hc : c = '*' ∧ l.head? = some '/'
    · have hzero := closingAt_zero.mpr hc
      obtain ⟨rfl, hslash⟩ := hc
      obtain ⟨v, rfl⟩ := List.head?_eq_some_iff.mp hslash
      obtain rfl := Option.some.inj h
      exact ⟨0, rfl, Nat.le_refl 0, hzero, fun j hj => absurd hj (Nat.not_lt_zero j)⟩
    · rw [pastClosing_cons hc] at h
      obtain ⟨m, hm, rfl⟩ := Option.map_eq_some_iff.mp h
      obtain ⟨i, rfl, hi⟩ := ih hm
      refine ⟨i + 1, rfl, Nat.zero_le _, hi.closing, fun j hj _ => ?_⟩
      cases j with
      | zero => exact mt closingAt_zero.mp hc
      | succ j => exact hi.first j (Nat.lt_of_succ_lt_succ hj) (Nat.zero_le j)

theorem pastClosing_eq_none (h : pastClosing l = none) (i : Nat) : ¬ ClosingAt l i := by
  induction l generalizing i with
  | nil => simp [ClosingAt]
  | cons c l ih =>
    by_cases hc : c = '*' ∧ l.head? = some '/'
    · obtain ⟨rfl, hslash⟩ := hc
      obtain ⟨v, rfl⟩ := List.head?_eq_some_iff.mp hslash
      cases h
    · rw [pastClosing_cons hc, Option.map_eq_none_iff] at h
      cases i with
      | zero => exact mt closingAt_zero.mp hc
      | succ i => exact ih h i

theorem opened_cases (c d : Char) (l : List Char) :
    (∃ i, pastClosing l = some i ∧ FirstClosing (c :: d :: l) 2 i) ∨
      pastClosing l = none ∧ ∀ i, 2 ≤ i → ¬ ClosingAt (c :: d :: l) i := by
  cases hpast : pastClosing l with
  | none =>
    refine .inr ⟨rfl, fun i hi => ?_⟩
    obtain ⟨k, rfl⟩ := Nat.exists_eq_add_of_le' hi
    exact pastClosing_eq_none hpast k
  | some n =>
    obtain ⟨k, rfl, hk⟩ := pastClosing_eq_some hpast
    exact .inl ⟨k + 2, rfl, hk.opened⟩

theorem FirstClosing.pastClosing_eq {d : Char} (h : FirstClosing (c :: d :: l) 2 i) :
    pastClosing l = some i := by
  rcases opened_cases c d l with ⟨k, hpast, hk⟩ | ⟨-, hnone⟩
  · rw [h.eq hk, hpast]
  · exact absurd h.closing (hnone i h.behind)

theorem blockComment_front_iff :
    Rule.blockComment.Matches text ∧ text <+: '/' :: '*' :: rest ↔
      ∃ i, FirstClosing ('/' :: '*' :: rest) 2 i ∧ text = ('/' :: '*' :: rest).take (i + 2) := by
  constructor
  · rintro ⟨hmatch, hfront⟩
    obtain ⟨body, rfl, hbody⟩ := blockComment_iff.mp hmatch
    obtain ⟨v, rfl⟩ : body <+: rest := by simpa using hfront
    -- What closes the body closes it also where the text goes on.
    obtain ⟨i, hlength, hfirst⟩ := pastClosing_eq_some (pastClosing_append hbody v)
    refine ⟨i + 2, hfirst.opened, ?_⟩
    rw [List.take_succ_cons, List.take_succ_cons, ← hlength, List.take_left]
  · rintro ⟨i, hfirst, rfl⟩
    obtain ⟨body, v, rfl, rfl, hbody⟩ := exists_closes hfirst.pastClosing_eq
    rw [List.take_succ_cons, List.take_succ_cons, List.take_left]
    exact ⟨blockComment_iff.mpr ⟨body, rfl, hbody⟩, by simp⟩

theorem blockComment_longest_iff :
    Rule.blockComment.Longest text ('/' :: '*' :: rest) ↔
      ∃ i, FirstClosing ('/' :: '*' :: rest) 2 i ∧ text = ('/' :: '*' :: rest).take (i + 2) := by
  rw [← blockComment_front_iff]
  constructor
  · exact fun h => ⟨h.applies, h.front⟩
  · intro h
    refine ⟨h.1, h.2, fun text' hmatch hfront => ?_⟩
    obtain ⟨i, hi, rfl⟩ := blockComment_front_iff.mp h
    obtain ⟨j, hj, rfl⟩ := blockComment_front_iff.mp ⟨hmatch, hfront⟩
    exact Nat.le_of_eq (by rw [hi.eq hj])

theorem piece_comment : piece '/' ('*' :: rest) =
    (pastClosing rest).elim (.bad ('/' :: '*' :: rest)) fun n => .skip (2 + n) := by
  rw [piece, if_neg (by decide), if_neg (by decide), if_neg (by decide), if_neg (by decide)]
  cases pastClosing rest with
  | none => rfl
  | some n => rfl

/-- Scanning goes on behind the first closing, whatever stands there. -/
theorem scanFrom_comment (h : FirstClosing ('/' :: '*' :: rest) 2 i) (offset : Nat) :
    scanFrom ('/' :: '*' :: rest) 0 offset =
      scanFrom (('/' :: '*' :: rest).drop (i + 2)) 0
        (offset + byteLength (('/' :: '*' :: rest).take (i + 2))) := by
  have hpast := h.pastClosing_eq
  obtain ⟨body, v, rfl, rfl, -⟩ := exists_closes hpast
  have hwithin : 2 + body.length - 1 = ('*' :: body).length := by
    rw [List.length_cons]
    omega
  rw [scanFrom, piece_comment, hpast, Option.elim_some]
  dsimp only
  rw [hwithin, ← List.cons_append, scanFrom_skip, List.cons_append, List.drop_succ_cons,
    List.drop_succ_cons, List.drop_left, List.take_succ_cons, List.take_succ_cons, List.take_left,
    Nat.add_assoc, ← byteLength_cons]

theorem scanFrom_unclosed (h : ∀ i, 2 ≤ i → ¬ ClosingAt ('/' :: '*' :: rest) i) (offset : Nat) :
    scanFrom ('/' :: '*' :: rest) 0 offset =
      ⟨[], some ⟨String.ofList ('/' :: '*' :: rest),
        ⟨offset, offset + byteLength ('/' :: '*' :: rest)⟩⟩⟩ := by
  rcases opened_cases '/' '*' rest with ⟨i, -, hi⟩ | ⟨hpast, -⟩
  · exact absurd hi.closing (h i hi.behind)
  · rw [scanFrom, piece_comment, hpast]
    rfl

/-- At the front of a text that opens a comment, the longest match of the rule for comments goes up
to the first closing behind the opening, with that closing, and the scanner goes on right behind it.
If nothing closes the comment, then the rule has no match, and the scanner stops with an error that
quotes the text to its end. -/
theorem comment_ends_at_first_closing {l : List Char} (hopen : ['/', '*'] <+: l) :
    (∀ text, Rule.blockComment.Longest text l ↔
      ∃ i, FirstClosing l 2 i ∧ text = l.take (i + 2)) ∧
    ((∃ text, Rule.blockComment.Matches text ∧ text <+: l) ↔ ∃ i, 2 ≤ i ∧ ClosingAt l i) ∧
    (∀ i, FirstClosing l 2 i → ∀ offset, scanFrom l 0 offset =
      scanFrom (l.drop (i + 2)) 0 (offset + byteLength (l.take (i + 2)))) ∧
    ((∀ i, 2 ≤ i → ¬ ClosingAt l i) → ∀ offset, scanFrom l 0 offset =
      ⟨[], some ⟨String.ofList l, ⟨offset, offset + byteLength l⟩⟩⟩) := by
  obtain ⟨rest, rfl⟩ := hopen
  refine ⟨fun text => blockComment_longest_iff, ⟨?_, ?_⟩, fun i => scanFrom_comment,
    scanFrom_unclosed⟩
  · rintro ⟨text, htext⟩
    obtain ⟨i, hi, -⟩ := blockComment_front_iff.mp htext
    exact ⟨i, hi.behind, hi.closing⟩
  · rintro ⟨i, hbehind, hclosing⟩
    rcases opened_cases '/' '*' rest with ⟨k, -, hk⟩ | ⟨-, hnone⟩
    · exact ⟨_, blockComment_front_iff.mpr ⟨k, hk, rfl⟩⟩
    · exact absurd hclosing (hnone i hbehind)

/-- Stars in front of the closing are part of the comment and a later closing is not. The star of
the opening is part of no closing. -/
theorem comment_ends_at_first_closing_starred :
    Rule.blockComment.Longest "/*/**é***/".toList "/*/**é***/x*/".toList ∧
    scan "/*/**é***/x*/" = scanFrom "x*/".toList 0 11 ∧
    Rule.blockComment.Longest "/***/".toList "/***/".toList ∧
    (¬ ∃ text, Rule.blockComment.Matches text ∧ text <+: "/*/".toList) ∧
    scan "/*/" = ⟨[], some ⟨"/*/", ⟨0, 3⟩⟩⟩ := by
  have hstarred : FirstClosing "/*/**é***/x*/".toList 2 8 := ⟨by decide, by decide, by decide⟩
  have hthree : FirstClosing "/***/".toList 2 3 := ⟨by decide, by decide, by decide⟩
  have hnone : ∀ i, 2 ≤ i → ¬ ClosingAt "/*/".toList i := by
    intro i hi hclosing
    have hlength : 2 ≤ 3 - i := by simpa using hclosing.length_le
    omega
  obtain ⟨hlongest, -, hscan, -⟩ :=
    comment_ends_at_first_closing (l := "/*/**é***/x*/".toList) (by decide)
  obtain ⟨hlongest', -⟩ := comment_ends_at_first_closing (l := "/***/".toList) (by decide)
  obtain ⟨-, hmatch, -, herror⟩ := comment_ends_at_first_closing (l := "/*/".toList) (by decide)
  refine ⟨(hlongest _).mpr ⟨8, hstarred, rfl⟩, hscan 8 hstarred 0,
    (hlongest' _).mpr ⟨3, hthree, rfl⟩, fun htext => ?_, herror hnone 0⟩
  obtain ⟨i, hi, hclosing⟩ := hmatch.mp htext
  exact hnone i hi hclosing

end Shader
