import Shader.Proofs.Token.Order
import Shader.Proofs.Token.Rule
import Shader.Proofs.Scan

/-! Number literals. Whatever a rule for numbers matches at a place, the scanner takes at least as
much there. -/

namespace Shader

namespace Scan

open Pattern

variable {p : Char → Bool} {c : Char} {s t u v w l after : List Char}

theorem takeWhile_stop (hw : ∀ c ∈ w, p c = true) (hv : ∀ c u, v = c :: u → p c = false) :
    (w ++ v).takeWhile p = w := by
  rw [List.takeWhile_append_of_pos hw]
  cases v with
  | nil => simp
  | cons c v => simp [hv c v rfl]

theorem forall_takeWhile (p : Char → Bool) (l : List Char) : ∀ c ∈ l.takeWhile p, p c = true :=
  List.all_eq_true.mp List.all_takeWhile

theorem prefix_takeWhile (hw : ∀ c ∈ w, p c = true) (h : w <+: l) : w <+: l.takeWhile p := by
  obtain ⟨v, rfl⟩ := h
  rw [List.takeWhile_append_of_pos hw]
  exact List.prefix_append _ _

theorem prefix_run {f : List Char → List Char} (hs : ∀ c ∈ s, p c = true)
    (ht : ∀ c u, t = c :: u → p c = false) (hf : ∀ l, t <+: l → t <+: f l) (h : s ++ t <+: l) :
    s ++ t <+: l.takeWhile p ++ f (l.drop (l.takeWhile p).length) := by
  obtain ⟨v, rfl⟩ := h
  cases t with
  | nil =>
    rw [List.append_nil]
    exact (prefix_takeWhile hs (List.prefix_append _ _)).trans (List.prefix_append _ _)
  | cons c u =>
    have htake : (s ++ (c :: u) ++ v).takeWhile p = s := by
      rw [List.append_assoc]
      exact takeWhile_stop hs fun d u' heq => ht d _ (by rw [(List.cons.inj heq).1])
    rw [htake, List.append_assoc, List.drop_left]
    exact (List.prefix_append_right_inj s).mpr (hf _ (List.prefix_append _ _))

theorem oneOf_matches (p : Char → Bool) (l : List Char) : Matches (.opt (.one p)) (oneOf p l) := by
  cases l with
  | nil => exact .absent
  | cons c l =>
    rw [oneOf]
    split
    · rename_i hc
      exact .present (.one hc)
    · exact .absent

theorem prefix_oneOf (h : Matches (.opt (.one p)) w) (hl : w <+: l) : w <+: oneOf p l := by
  rcases matches_opt.mp h with rfl | h
  · exact List.nil_prefix
  · obtain ⟨c, rfl, hc⟩ := matches_one.mp h
    obtain ⟨v, rfl⟩ := hl
    simp [oneOf, hc]

theorem head_of_opt_one (h : Matches (.opt (.one p)) (c :: w)) : p c = true := by
  rcases matches_opt.mp h with h | h
  · cases h
  · obtain ⟨d, heq, hd⟩ := matches_one.mp h
    rwa [(List.cons.inj heq).1]

theorem exponent_append (h : Rule.exponent.Matches w) (v : List Char) :
    exponent (w ++ v) = w ++ v.takeWhile isDigit := by
  obtain ⟨e, _, rfl, he, h⟩ := matches_one_seq.mp h
  obtain ⟨sign, digits, rfl, hsign, hdigits⟩ := matches_seq.mp h
  obtain ⟨hne, hdigits⟩ := matches_several.mp hdigits
  have htake : (digits ++ v).takeWhile isDigit = digits ++ v.takeWhile isDigit :=
    List.takeWhile_append_of_pos hdigits
  have hone : oneOf (fun c => c = '+' || c = '-') (sign ++ (digits ++ v)) = sign := by
    rcases matches_opt.mp hsign with rfl | hsign
    · obtain ⟨d, ds, rfl⟩ := List.exists_cons_of_ne_nil hne
      have hd := hdigits d (by simp)
      have hplus : ¬ (d = '+' ∨ d = '-') := by
        rintro (rfl | rfl) <;> exact absurd hd (by decide)
      simpa [oneOf] using hplus
    · obtain ⟨c, rfl, hc⟩ := matches_one.mp hsign
      simp only [oneOf, List.cons_append, hc, if_true]
  simp only [List.cons_append, List.append_assoc, exponent, he, if_true, hone, List.drop_left,
    htake]
  simp [hne]

theorem exponent_matches (l : List Char) :
    exponent l = [] ∨ Rule.exponent.Matches (exponent l) := by
  cases l with
  | nil => exact .inl rfl
  | cons e cs =>
    rw [exponent]
    split
    · rename_i he
      dsimp only
      split
      · exact .inl rfl
      · rename_i hne
        refine .inr (matches_one_seq.mpr ⟨e, _, rfl, he, .seq (oneOf_matches _ cs) ?_⟩)
        exact matches_several.mpr ⟨by simpa using hne, fun c hc => forall_takeWhile _ _ c hc⟩
    · exact .inl rfl

theorem head_of_exponent (h : Rule.exponent.Matches (c :: w)) : (c = 'e' || c = 'E') = true := by
  obtain ⟨e, _, heq, he, -⟩ := matches_one_seq.mp h
  rwa [(List.cons.inj heq).1]

theorem head_of_floatTail (h : Rule.floatTail.Matches w) :
    ∀ c u, w = c :: u → isDigit c = false := by
  rintro c u rfl
  have hc : (c = 'e' || c = 'E') = true ∨ isFloatMark c = true := by
    obtain ⟨x, f, heq, hx, hf⟩ := matches_seq.mp h
    cases x with
    | nil =>
      rw [List.nil_append] at heq
      exact .inr (head_of_opt_one (heq ▸ hf))
    | cons d x =>
      obtain ⟨rfl, -⟩ := List.cons.inj heq
      exact .inl (head_of_exponent ((matches_opt.mp hx).resolve_left (by simp)))
  simp only [isFloatMark, Bool.or_eq_true, decide_eq_true_eq] at hc
  rcases hc with (rfl | rfl) | (rfl | rfl) <;> decide

theorem floatTail_matches (l : List Char) : Rule.floatTail.Matches (floatTail l) := by
  refine .seq ?_ (oneOf_matches _ _)
  rcases exponent_matches l with h | h
  · rw [h]
    exact .absent
  · exact .present h

theorem exponent_eq_nil (h : (c = 'e' || c = 'E') = false) : exponent (c :: l) = [] := by
  simp [exponent, h]

theorem prefix_floatTail (h : Rule.floatTail.Matches w) (hl : w <+: l) : w <+: floatTail l := by
  obtain ⟨x, f, rfl, hx, hf⟩ := matches_seq.mp h
  obtain ⟨v, rfl⟩ := hl
  rw [List.append_assoc]
  rcases matches_opt.mp hx with rfl | hx
  · cases f with
    | nil => exact List.nil_prefix
    | cons c f =>
      have hc := head_of_opt_one hf
      have hnil : exponent (c :: (f ++ v)) = [] := by
        refine exponent_eq_nil ?_
        simp only [isFloatMark, Bool.or_eq_true, decide_eq_true_eq] at hc
        rcases hc with rfl | rfl <;> decide
      simp only [List.nil_append, List.cons_append, floatTail, hnil, List.length_nil,
        List.drop_zero]
      exact prefix_oneOf hf ⟨v, rfl⟩
  · cases f with
    | nil =>
      rw [List.append_nil, List.nil_append, floatTail, exponent_append hx, List.append_assoc]
      exact List.prefix_append _ _
    | cons c f =>
      have hc := head_of_opt_one hf
      have hdigit : isDigit c = false := by
        simp only [isFloatMark, Bool.or_eq_true, decide_eq_true_eq] at hc
        rcases hc with rfl | rfl <;> decide
      have hexponent : exponent (x ++ (c :: f ++ v)) = x := by
        rw [exponent_append hx, List.cons_append, List.takeWhile_cons_of_neg (by simp [hdigit]),
          List.append_nil]
      rw [floatTail, hexponent, List.drop_left]
      exact (List.prefix_append_right_inj x).mpr (prefix_oneOf hf ⟨v, rfl⟩)

theorem prefix_int (h : Rule.int.Matches w) (hl : w <+: l) :
    w <+: l.takeWhile isDigit ++ oneOf isUnsignedMark (l.drop (l.takeWhile isDigit).length) := by
  obtain ⟨digits, mark, rfl, hdigits, hmark⟩ := matches_seq.mp h
  refine prefix_run (matches_several.mp hdigits).2 ?_ (fun _ => prefix_oneOf hmark) hl
  rintro c u rfl
  have hc := head_of_opt_one hmark
  simp only [isUnsignedMark, Bool.or_eq_true, decide_eq_true_eq] at hc
  rcases hc with rfl | rfl <;> decide

theorem prefix_hexInt (h : Rule.hexInt.Matches w) (hl : w <+: l) :
    (∃ x cs, l = '0' :: x :: cs ∧ (x = 'x' || x = 'X') = true) ∧ hexLiteral l ≠ [] ∧
      w <+: hexLiteral l := by
  obtain ⟨_, rfl, hrest⟩ := matches_literal_seq.mp h
  obtain ⟨x, _, rfl, hx, hnumber⟩ := matches_one_seq.mp hrest
  obtain ⟨digits, mark, rfl, hdigits, hmark⟩ := matches_seq.mp hnumber
  obtain ⟨hne, hdigits⟩ := matches_several.mp hdigits
  obtain ⟨v, rfl⟩ := hl
  have hrun : digits ++ mark <+: _ :=
    prefix_run (p := isHexDigit) (l := digits ++ mark ++ v) hdigits (fun c u heq => by
      subst heq
      have hc := head_of_opt_one hmark
      simp only [isUnsignedMark, Bool.or_eq_true, decide_eq_true_eq] at hc
      rcases hc with rfl | rfl <;> decide) (fun _ => prefix_oneOf hmark) (List.prefix_append _ _)
  have hsome : ((digits ++ mark ++ v).takeWhile isHexDigit).isEmpty = false := by
    rw [List.append_assoc, List.takeWhile_append_of_pos hdigits]
    simp [hne]
  refine ⟨⟨x, _, rfl, hx⟩, ?_⟩
  simp only [List.cons_append, List.nil_append, hexLiteral, hx, hsome, Bool.not_false,
    Bool.and_self, if_true]
  refine ⟨List.cons_ne_nil _ _, ?_⟩
  exact (List.prefix_cons_inj _).mpr ((List.prefix_cons_inj _).mpr hrun)

theorem prefix_pointFloat (h : Rule.pointFloat.Matches w) (hl : w <+: l) :
    ∃ after, l.drop (l.takeWhile isDigit).length = '.' :: after ∧
      w <+: l.takeWhile isDigit ++
        '.' :: (after.takeWhile isDigit ++
          floatTail (after.drop (after.takeWhile isDigit).length)) := by
  obtain ⟨digits, _, rfl, hdigits, hrest⟩ := matches_seq.mp h
  obtain ⟨_, rfl, hbehind⟩ := matches_literal_seq.mp hrest
  obtain ⟨fraction, tail, rfl, hfraction, htail⟩ := matches_seq.mp hbehind
  obtain ⟨-, hdigits⟩ := matches_several.mp hdigits
  obtain ⟨v, rfl⟩ := hl
  have htake : (digits ++ ('.' :: (fraction ++ tail) ++ v)).takeWhile isDigit = digits :=
    takeWhile_stop hdigits fun c u heq => by
      obtain ⟨rfl, -⟩ := List.cons.inj heq
      decide
  rw [List.append_assoc, List.cons_append, List.nil_append, htake, List.drop_left]
  refine ⟨fraction ++ tail ++ v, rfl, ?_⟩
  refine (List.prefix_append_right_inj _).mpr ((List.prefix_cons_inj _).mpr ?_)
  exact prefix_run (matches_run.mp hfraction) (head_of_floatTail htail)
    (fun _ => prefix_floatTail htail) (List.prefix_append _ _)

theorem prefix_exponentFloat (h : Rule.exponentFloat.Matches w) (hl : w <+: l) :
    exponent (l.drop (l.takeWhile isDigit).length) ≠ [] ∧
      w <+: l.takeWhile isDigit ++ floatTail (l.drop (l.takeWhile isDigit).length) := by
  obtain ⟨digits, _, rfl, hdigits, h⟩ := matches_seq.mp h
  obtain ⟨x, f, rfl, hx, hf⟩ := matches_seq.mp h
  obtain ⟨-, hdigits⟩ := matches_several.mp hdigits
  have htail : Rule.floatTail.Matches (x ++ f) := .seq (.present hx) hf
  have hne : x ≠ [] := by
    obtain ⟨e, y, rfl, -⟩ := matches_one_seq.mp hx
    simp
  refine ⟨?_, prefix_run hdigits (head_of_floatTail htail) (fun _ => prefix_floatTail htail) hl⟩
  obtain ⟨v, rfl⟩ := hl
  have htake : (digits ++ ((x ++ f) ++ v)).takeWhile isDigit = digits :=
    takeWhile_stop hdigits fun c u heq => by
      obtain ⟨d, y, rfl⟩ := List.exists_cons_of_ne_nil hne
      obtain ⟨rfl, -⟩ := List.cons.inj heq
      exact head_of_floatTail htail _ _ rfl
  rw [List.append_assoc, htake, List.drop_left, List.append_assoc, exponent_append hx]
  simp [hne]

theorem length_lt_or_eq (h : w <+: t) : w.length < t.length ∨ w = t := by
  rcases Nat.lt_or_ge w.length t.length with hlt | hge
  · exact .inl hlt
  · exact .inr (h.eq_of_length_le hge)

/-- The rules for pieces that start with a digit. -/
def numberRules : List Rule :=
  [.int, .hexInt, .pointFloat, .exponentFloat]

theorem hexInt_digits {x : Char} {cs : List Char} (hl : l = '0' :: x :: cs)
    (hx : (x = 'x' || x = 'X') = true) :
    l.takeWhile isDigit = ['0'] ∧ l.drop (l.takeWhile isDigit).length = x :: cs := by
  have hdigit : isDigit x = false := by
    simp only [Bool.or_eq_true, decide_eq_true_eq] at hx
    rcases hx with rfl | rfl <;> decide
  have htake : l.takeWhile isDigit = ['0'] := by
    rw [hl, List.takeWhile_cons_of_pos (by decide), List.takeWhile_cons_of_neg (by simp [hdigit])]
  exact ⟨htake, by rw [htake, hl]; rfl⟩

theorem hexLiteral_matches (l : List Char) :
    hexLiteral l = [] ∨ Rule.hexInt.Matches (hexLiteral l) := by
  unfold hexLiteral
  split
  · rename_i x cs
    dsimp only
    split
    · rename_i hx
      rw [Bool.and_eq_true] at hx
      refine .inr (matches_literal_seq.mpr ⟨_, rfl, matches_one_seq.mpr ⟨x, _, rfl, hx.1, ?_⟩⟩)
      refine .seq (matches_several.mpr ⟨by simpa using hx.2, forall_takeWhile _ _⟩) ?_
      exact oneOf_matches _ _
    · exact .inl rfl
  · exact .inl rfl

/-- The rule `r` takes less than `text`, or all of it for the same token or for an identifier where
the token is a keyword. -/
def Yields (text : List Char) (kind : Option TokenKind) (r : Rule) (w : List Char) : Prop :=
  w.length < text.length ∨
    w = text ∧ (r.kind? text = kind ∨ r = .identifier ∧ ∃ k, kind = some (.keyword k))

theorem yields_of_front {kind : Option TokenKind} {r : Rule} (h : w <+: t)
    (hkind : r.kind? t = kind) : Yields t kind r w := by
  rcases length_lt_or_eq h with hlt | heq
  · exact .inl hlt
  · exact .inr ⟨heq, .inl hkind⟩

theorem oneOf_eq_nil_of_exponent (h : exponent l ≠ []) : oneOf isUnsignedMark l = [] := by
  cases l with
  | nil => rfl
  | cons c l =>
    have hc : (c = 'e' || c = 'E') = true := by
      rw [← Bool.not_eq_false]
      exact fun hc => h (exponent_eq_nil hc)
    simp only [Bool.or_eq_true, decide_eq_true_eq] at hc
    rcases hc with rfl | rfl <;> rfl

theorem int_lt_hexLiteral (hw : Rule.int.Matches w) (hl : w <+: l) (h : hexLiteral l ≠ []) :
    w.length < (hexLiteral l).length := by
  have hhex := (hexLiteral_matches l).resolve_left h
  obtain ⟨⟨x, cs, rfl, hx⟩, -⟩ := prefix_hexInt hhex (isPrefix_hexLiteral l)
  have hmark : oneOf isUnsignedMark (x :: cs) = [] := by
    simp only [Bool.or_eq_true, decide_eq_true_eq] at hx
    rcases hx with rfl | rfl <;> rfl
  have hlen := (prefix_int hw hl).length_le
  rw [(hexInt_digits rfl hx).2, (hexInt_digits rfl hx).1, hmark] at hlen
  obtain ⟨y, z, heq⟩ : ∃ y z, hexLiteral ('0' :: x :: cs) = '0' :: y :: z := by
    obtain ⟨_, hzero, hrest⟩ := matches_literal_seq.mp hhex
    obtain ⟨y, z, rfl, -⟩ := matches_one_seq.mp hrest
    exact ⟨y, z, hzero⟩
  rw [heq]
  simp at hlen ⊢
  omega

theorem number_yields {r : Rule} (hr : r ∈ numberRules) (hw : r.Matches w) (hl : w <+: l) :
    Yields (number l).2 (some (number l).1) r w := by
  simp only [numberRules, List.mem_cons, List.not_mem_nil, or_false] at hr
  unfold number
  dsimp only
  -- A point decides for a float, then an exponent does; an integer is what is left.
  split
  · rename_i after hafter
    rcases hr with rfl | rfl | rfl | rfl
    · refine .inl ?_
      have hlen := (prefix_int hw hl).length_le
      simp only [hafter, oneOf, isUnsignedMark] at hlen
      simp at hlen ⊢
      omega
    · obtain ⟨⟨x, cs, rfl, hx⟩, -⟩ := prefix_hexInt hw hl
      rw [(hexInt_digits rfl hx).2] at hafter
      obtain ⟨rfl, -⟩ := List.cons.inj hafter
      exact absurd hx (by decide)
    · obtain ⟨after', hafter', hprefix⟩ := prefix_pointFloat hw hl
      obtain ⟨-, rfl⟩ := List.cons.inj (hafter.symm.trans hafter')
      rw [List.append_assoc]
      exact yields_of_front hprefix rfl
    · have hne := (prefix_exponentFloat hw hl).1
      rw [hafter, exponent_eq_nil (by decide)] at hne
      exact absurd rfl hne
  · rename_i hpoint
    have hnopoint : r ≠ .pointFloat := by
      rintro rfl
      obtain ⟨after, hafter, -⟩ := prefix_pointFloat hw hl
      exact hpoint after hafter
    split
    · rename_i hexponent
      have hne : exponent (l.drop (l.takeWhile isDigit).length) ≠ [] := by simpa using hexponent
      rcases hr with rfl | rfl | rfl | rfl
      · refine .inl ?_
        have hlen := (prefix_int hw hl).length_le
        have hpos := List.length_pos_iff.mpr hne
        rw [oneOf_eq_nil_of_exponent hne] at hlen
        simp [floatTail] at hlen ⊢
        omega
      · obtain ⟨⟨x, cs, rfl, hx⟩, -⟩ := prefix_hexInt hw hl
        rw [(hexInt_digits rfl hx).2] at hne
        refine absurd (exponent_eq_nil ?_) hne
        simp only [Bool.or_eq_true, decide_eq_true_eq] at hx
        rcases hx with rfl | rfl <;> decide
      · exact absurd rfl hnopoint
      · exact yields_of_front (prefix_exponentFloat hw hl).2 rfl
    · rename_i hexponent
      rcases hr with rfl | rfl | rfl | rfl
      · dsimp only
        split
        · exact yields_of_front (prefix_int hw hl) rfl
        · rename_i hhex
          exact .inl (int_lt_hexLiteral hw hl (by simpa using hhex))
      · obtain ⟨-, hne, hprefix⟩ := prefix_hexInt hw hl
        rw [if_neg (by simpa using hne)]
        exact yields_of_front hprefix rfl
      · exact absurd rfl hnopoint
      · have hne := (prefix_exponentFloat hw hl).1
        exact absurd hne (by simpa using hexponent)

theorem number_matches (hc : isDigit c = true) :
    ∃ r : Rule, r.Matches (number (c :: l)).2 ∧
      r.kind? (number (c :: l)).2 = some (number (c :: l)).1 := by
  generalize hl : c :: l = l'
  have hdigits : (Pattern.several Rule.digit).Matches (l'.takeWhile isDigit) := by
    refine matches_several.mpr ⟨?_, forall_takeWhile _ _⟩
    rw [← hl, List.takeWhile_cons_of_pos hc]
    exact List.cons_ne_nil _ _
  unfold number
  dsimp only
  split
  · rename_i after hafter
    refine ⟨.pointFloat, ?_, rfl⟩
    rw [List.append_assoc]
    refine .seq hdigits (matches_literal_seq.mpr ⟨_, rfl, ?_⟩)
    exact .seq (matches_run.mpr (forall_takeWhile _ _)) (floatTail_matches _)
  · split
    · rename_i hexponent
      have hne : exponent (l'.drop (l'.takeWhile isDigit).length) ≠ [] := by simpa using hexponent
      refine ⟨.exponentFloat, .seq hdigits (.seq ?_ (oneOf_matches _ _)), rfl⟩
      exact (exponent_matches _).resolve_left hne
    · dsimp only
      split
      · exact ⟨.int, .seq hdigits (oneOf_matches _ _), rfl⟩
      · rename_i hhex
        exact ⟨.hexInt, (hexLiteral_matches l').resolve_left (by simpa using hhex), rfl⟩

end Scan
end Shader
