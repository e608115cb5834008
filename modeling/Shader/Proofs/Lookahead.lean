import Shader.Bind
import Shader.Check
import Shader.Proofs.Check.Expr
import Shader.Proofs.Parse.Spelled

/-! Telling declarations from expressions. Where a declaration is said to start, no expression
statement can be read; elsewhere, no declaration that declares anything can be. -/

namespace Shader

theorem Cursor.afterClosing_eq_some {depth : Nat} {ts us : List Token}
    (h : afterClosing depth ts = some us) :
    ∃ vs r, ts = vs ++ r :: us ∧ r.kind = .mark .rBracket ∧
      ∀ t ∈ vs, t.kind ≠ .mark .semi ∧ t.kind ≠ .eof := by
  induction ts generalizing depth with
  | nil => cases depth <;> cases h
  | cons t ts ih =>
    have hstep {depth : Nat} (hkind : t.kind ≠ .mark .semi ∧ t.kind ≠ .eof)
        (h : afterClosing depth ts = some us) : ∃ vs r, t :: ts = vs ++ r :: us ∧
          r.kind = .mark .rBracket ∧ ∀ t ∈ vs, t.kind ≠ .mark .semi ∧ t.kind ≠ .eof := by
      obtain ⟨vs, r, rfl, hr, hvs⟩ := ih h
      exact ⟨t :: vs, r, rfl, hr, List.forall_mem_cons.mpr ⟨hkind, hvs⟩⟩
    by_cases hopen : t.kind = .mark .lBracket
    · rw [afterClosing_open hopen] at h
      exact hstep (by simp [hopen]) h
    by_cases hclose : t.kind = .mark .rBracket
    · cases depth with
      | zero =>
        simp only [afterClosing, hclose, reduceCtorEq, TokenKind.mark.injEq, if_false, if_true] at h
        obtain rfl := Option.some.inj h
        exact ⟨[], t, rfl, hclose, by simp⟩
      | succ depth =>
        rw [afterClosing_close hclose] at h
        exact hstep (by simp [hclose]) h
    by_cases hstop : t.kind = .mark .semi ∨ t.kind = .eof
    · cases depth <;> simp [afterClosing, hopen, hclose, hstop] at h
    · rw [not_or] at hstop
      rw [afterClosing_plain ⟨hopen, hclose, hstop⟩] at h
      exact hstep hstop h

theorem Apart.not_after {b : Bool} {us vs : List Token} {t u : Token}
    (h : Apart b (us ++ t :: u :: vs)) (ht : t.kind.endsName = true) :
    u.kind.isIdentifier = false := by
  induction us generalizing b with
  | nil =>
    have hu := h.2.1
    rw [ht] at hu
    simpa using hu
  | cons _ us ih => exact ih h.2

theorem Cursor.takes_of_tokens {c : Cursor} {ts us : List Token} {u : Token}
    (h : c.tokens = ts ++ u :: us) (hts : ∀ t ∈ ts, t.kind ≠ .eof) :
    ∃ c', c.Takes ts c' ∧ c'.token = u := by
  induction ts generalizing c with
  | nil => exact ⟨c, .nil c, (List.cons.inj h).1⟩
  | cons t ts ih =>
    obtain ⟨rfl, hrest⟩ := List.cons.inj h
    obtain ⟨ht, hts'⟩ := List.forall_mem_cons.mp hts
    have hne : c.rest ≠ [] := by
      rw [hrest]
      simp
    have hnext : c.next.tokens = ts ++ u :: us := by
      rw [tokens_eq_cons hne] at h
      exact (List.cons.inj h).2
    obtain ⟨c', hc', hu⟩ := ih hnext hts'
    exact ⟨c', .cons ht hc', hu⟩

theorem Cursor.takes_of_behindBrackets? {c : Cursor} {k : TokenKind}
    (h : c.behindBrackets? = some k) (hkind : c.kind ≠ .eof) (hsemi : c.kind ≠ .mark .semi) :
    ∃ us r d, c.Takes (us ++ [r]) d ∧ d.kind = k ∧ r.kind = .mark .rBracket ∧
      ∀ t ∈ us ++ [r], t.kind ≠ .mark .semi := by
  unfold behindBrackets? at h
  split at h
  · cases h
  rename_i l ts hrest
  split at h
  · rename_i hl
    split at h
    · rename_i u more hclosing
      obtain rfl := Option.some.inj h
      obtain ⟨vs, r, rfl, hr, hvs⟩ := afterClosing_eq_some hclosing
      have htokens : c.tokens = (c.token :: l :: vs ++ [r]) ++ u :: more := by
        rw [tokens, hrest]
        simp
      obtain ⟨d, hd, rfl⟩ := takes_of_tokens htokens (by
        simp only [List.mem_append, List.mem_cons, List.not_mem_nil, or_false]
        rintro t ((rfl | rfl | ht) | rfl)
        · exact hkind
        · simp [hl]
        · exact (hvs t ht).2
        · simp [hr])
      refine ⟨c.token :: l :: vs, r, d, hd, rfl, hr, ?_⟩
      simp only [List.mem_append, List.mem_cons, List.not_mem_nil, or_false]
      rintro t ((rfl | rfl | ht) | rfl)
      · exact hsemi
      · simp [hl]
      · exact (hvs t ht).1
      · simp [hr]
    · cases h
  · cases h

theorem Cursor.behindBrackets?_of_takes {c c' : Cursor} {l r : Token} {vs : List Token}
    (h : c.Takes (c.token :: l :: (vs ++ [r])) c') (hl : l.kind = .mark .lBracket)
    (hr : r.kind = .mark .rBracket) (hvs : Clear vs) (hkind : c'.kind ≠ .mark .rBracket) :
    c.behindBrackets? = some c'.kind := by
  obtain ⟨d, hd, hlast⟩ := Takes.split (show c.Takes ((c.token :: l :: vs) ++ [r]) c' from h)
  cases hlast with
  | cons _ hend =>
    cases hend
    have hrest : d.rest ≠ [] := fun hnil => hkind (by rwa [next_of_rest hnil])
    have htokens := hd.tokens_eq hrest
    rw [tokens_eq_cons hrest, List.cons_append] at htokens
    have hrest' : c.rest = l :: (vs ++ d.token :: d.next.tokens) := (List.cons.inj htokens).2
    unfold behindBrackets?
    simp only [hrest', hl, if_true, hvs 0 _]
    simp [afterClosing, hr, tokens, Cursor.kind]

namespace Parse

variable {n : Nat} {c c' : Cursor}

theorem takes_of_expressionStatement {s : Stmt} (h : expressionStatement n c = .ok (s, c')) :
    ∃ ts semi, c.Takes (ts ++ [semi]) c' ∧ Fits ts ∧ semi.kind = .mark .semi := by
  unfold expressionStatement at h
  rw [run_here] at h
  obtain ⟨e, c₁, he, h⟩ := run_bind h
  obtain ⟨hsemi, h⟩ := run_expectMark _ _ _ h
  obtain ⟨rfl, rfl⟩ := run_pure_spanFrom h
  obtain ⟨ts, hts, he⟩ := (spellings False n).expression (fun hx => hx.elim) he
  exact ⟨ts, c₁.token, hts.snoc (by simp [hsemi]), he.fits, hsemi⟩

theorem prefix_of_takes {d : Cursor} {ts us : List Token} {semi : Token}
    (h : c.Takes (ts ++ [semi]) c') (hsemi : semi.kind = .mark .semi) (hus : c.Takes us d)
    (hplain : ∀ t ∈ us, t.kind ≠ .mark .semi) : us <+: ts := by
  rcases h.prefix_or hus with hprefix | hprefix
  · have hmem : semi ∈ us := hprefix.subset (by simp)
    exact absurd hsemi (hplain semi hmem)
  · rcases List.prefix_concat_iff.mp hprefix with rfl | hprefix
    · exact absurd hsemi (hplain semi (by simp))
    · exact hprefix

/-- No expression statement can be read where a name follows a name or a bracket. -/
theorem not_expressionStatement {us : List Token} {t : Token} {d : Cursor} {s : Stmt}
    (hus : c.Takes (us ++ [t]) d) (hplain : ∀ u ∈ us ++ [t], u.kind ≠ .mark .semi)
    (ht : t.kind.endsName = true) (hd : d.kind.isIdentifier = true) :
    expressionStatement n c ≠ .ok (s, c') := by
  intro h
  obtain ⟨ts, semi, htakes, hfits, hsemi⟩ := takes_of_expressionStatement h
  have hkind : d.kind ≠ .eof ∧ d.kind ≠ .mark .semi := by
    constructor <;> (intro hk; rw [hk] at hd; cases hd)
  have hprefix := prefix_of_takes htakes hsemi (hus.snoc hkind.1)
    (List.forall_mem_append.mpr ⟨hplain, List.forall_mem_singleton.mpr hkind.2⟩)
  obtain ⟨vs, rfl⟩ := hprefix
  have hapart := hfits.apart
  rw [List.append_assoc, List.append_assoc] at hapart
  have hnot := Apart.not_after hapart ht
  rw [show d.token.kind.isIdentifier = true from hd] at hnot
  cases hnot

theorem expressionStatement_of_startsDeclaration {s : Stmt} (h : c.startsDeclaration = true) :
    expressionStatement n c ≠ .ok (s, c') := by
  unfold Cursor.startsDeclaration at h
  cases hkind : c.kind with
  | keyword k =>
    -- No keyword but the boolean constants starts an expression.
    intro hs
    obtain ⟨ts, semi, htakes, hfits, hsemi⟩ := takes_of_expressionStatement hs
    obtain ⟨t, us, rfl, ht⟩ := hfits.starts
    rw [List.cons_append] at htakes
    cases htakes
    rw [hkind] at h
    rcases ht k hkind with rfl | rfl <;> cases h
  | identifier x =>
    have hname : c.token.kind.endsName = true := by
      simp [TokenKind.endsName, show c.token.kind = _ from hkind, TokenKind.isIdentifier]
    have hplain : c.token.kind ≠ .mark .semi ∧ c.token.kind ≠ .eof := by
      simp [show c.token.kind = _ from hkind]
    rw [hkind] at h
    rcases Bool.or_eq_true_iff.mp h with hnext | hbehind
    · have hone : c.Takes ([] ++ [c.token]) c.next := .one hplain.2
      exact not_expressionStatement hone (by simpa using hplain.1) hname hnext
    · obtain ⟨k, hk, hident⟩ := (Option.any_eq_true _ _).mp hbehind
      obtain ⟨us, r, d, hus, rfl, hr, hsemi⟩ := Cursor.takes_of_behindBrackets? hk hplain.2 hplain.1
      exact not_expressionStatement hus hsemi (by simp [TokenKind.endsName, hr]) hident
  | _ =>
    rw [hkind] at h
    cases h

theorem run_qualifiers (h : c.kind.startsQualifier = false) :
    qualifiers n c =
      .ok (⟨none, none, false, none, [], ⟨c.token.span.start, c.token.span.start⟩⟩, c) := by
  unfold qualifiers
  rw [run_here, run_get]
  simp only [h, Bool.false_eq_true, if_false]
  rfl

theorem not_name_of_typeSpec {spec : TypeSpec} (hstart : c.startsDeclaration = false)
    (h : typeSpec n c = .ok (spec, c')) : spec.isStruct = false ∧ c'.kind.isIdentifier = false := by
  cases n with
  | zero => cases h
  | succ n =>
  unfold typeSpec at h
  rw [run_here, run_kind] at h
  unfold Cursor.startsDeclaration at hstart
  cases hkind : c.kind with
  | keyword k =>
    rw [hkind] at hstart
    cases k with
    | structWord => cases hstart
    | _ =>
      simp only [hkind] at h
      cases h
  | identifier x =>
    rw [hkind] at hstart
    obtain ⟨hnext, hbehind⟩ := Bool.or_eq_false_iff.mp hstart
    simp only [hkind, run_advance] at h
    obtain ⟨note, c₁, hnote, h⟩ := run_bind h
    have hspec : c₁ = c' ∧ spec.isStruct = false := by
      cases hbasic : BasicTy.ofName? x with
      | some b =>
        simp only [hbasic] at h
        obtain ⟨rfl, rfl⟩ := run_pure h
        exact ⟨rfl, rfl⟩
      | none =>
        simp only [hbasic] at h
        obtain ⟨rfl, rfl⟩ := run_pure h
        exact ⟨rfl, rfl⟩
    obtain ⟨rfl, hspec⟩ := hspec
    refine ⟨hspec, ?_⟩
    unfold specNote at hnote
    obtain ⟨array, c₂, harray, hnote⟩ := run_bind hnote
    rw [run_spanFrom] at hnote
    obtain ⟨rfl, rfl⟩ := run_pure hnote
    obtain ⟨ss, hss, hsuffix⟩ := (spellings False n).arraySuffix (fun hx => hx.elim) harray
    -- Without brackets the lookahead has seen this token; with brackets it has searched for the one
    -- behind them.
    rcases hsuffix.enclosed with rfl | ⟨l, vs, r, rfl, hl, hr, hclear⟩
    · cases hss
      exact hnext
    · by_cases hclose : c₂.kind = .mark .rBracket
      · rw [hclose]
        rfl
      · have htakes : c.Takes (c.token :: l :: (vs ++ [r])) c₂ := .cons (by simp [hkind]) hss
        rw [Cursor.behindBrackets?_of_takes htakes hl hr hclear hclose] at hbehind
        exact hbehind
  | _ =>
    simp only [hkind] at h
    cases h

/-- Where no declaration is said to start, only a type can be read as one. -/
theorem declaration_of_not_startsDeclaration {d : Declaration}
    (hstart : c.startsDeclaration = false) (h : localDeclaration n c = .ok (d, c')) :
    ∃ q spec span, d = .vars q spec [] span ∧ spec.isStruct = false := by
  have hqualifier : c.kind.startsQualifier = false := by
    unfold Cursor.startsDeclaration at hstart
    cases hkind : c.kind with
    | keyword k =>
      rw [hkind] at hstart
      exact (Bool.or_eq_false_iff.mp (Bool.or_eq_false_iff.mp hstart).1).1
    | _ => rfl
  have hprecision : c.kind ≠ .keyword .precisionWord := by
    intro hkind
    simp [Cursor.startsDeclaration, hkind] at hstart
  have hinvariant : c.kind ≠ .keyword .invariantWord := by
    intro hkind
    rw [hkind] at hqualifier
    cases hqualifier
  -- No precision, no list of invariants and no qualifier starts here, so a type comes first.
  unfold localDeclaration at h
  obtain ⟨parsed, c₁, hhead, h⟩ := run_bind h
  unfold head at hhead
  rw [run_here, run_accept, if_neg hprecision] at hhead
  simp only [Bool.false_eq_true, if_false, run_atInvariantList, hinvariant, decide_false,
    Bool.false_and] at hhead
  obtain ⟨q, c₂, hq, hhead⟩ := run_bind hhead
  rw [run_qualifiers hqualifier] at hq
  obtain ⟨rfl, rfl⟩ := Prod.mk.inj (Except.ok.inj hq)
  rw [run_get] at hhead
  rw [if_neg (by simp [Qualifiers.isEmpty])] at hhead
  obtain ⟨spec, c₃, hspec, hhead⟩ := run_bind hhead
  obtain ⟨hstruct, hident⟩ := not_name_of_typeSpec hstart hspec
  rw [run_acceptMark] at hhead
  split at hhead
  · simp only [if_true, run_spanFrom] at hhead
    obtain ⟨rfl, rfl⟩ := run_pure hhead
    obtain ⟨rfl, rfl⟩ := run_pure h
    exact ⟨_, _, _, rfl, hstruct⟩
  · simp only [Bool.false_eq_true, if_false] at hhead
    obtain ⟨x, hx, -⟩ := run_name _ _ hhead
    rw [hx] at hident
    cases hident

end Parse

theorem Bind.isStruct_typeSpec {spec : TypeSpec} (h : spec.isStruct = false) (s : BindState) :
    ((Bind.typeSpec spec).run s).1.isStruct = false := by
  cases spec with
  | basic b note =>
    unfold Bind.typeSpec
    rfl
  | named x note =>
    unfold Bind.typeSpec
    rfl
  | struct => cases h

theorem Check.isStruct_typeSpec {spec : TypeSpec} (h : spec.isStruct = false) (stage : Stage) :
    (Check.typeSpec stage spec).value.isStruct = false := by
  cases spec with
  | basic b note =>
    unfold Check.typeSpec
    rfl
  | named x note =>
    unfold Check.typeSpec
    rfl
  | struct => cases h

theorem Check.declaresNothing_mem {spec : TypeSpec} (h : spec.isStruct = false) (q : Qualifiers)
    (span : Span) (s : BindState) (place : Check.Place) :
    ⟨span, .decl .declaresNothing⟩ ∈
      (Check.declaration place ((Bind.declaration (.vars q spec [] span)).run s).1).problems := by
  have hbound := Check.isStruct_typeSpec (Bind.isStruct_typeSpec h s) place.stage
  have hvars : ((Bind.declaration (.vars q spec [] span)).run s).1 =
      .vars q ((Bind.typeSpec spec).run s).1 [] span := rfl
  rw [hvars, Check.declaration]
  simp only [Checked.problems_bind, List.mem_append]
  refine .inr (.inr (.inl ?_))
  rw [hbound]
  simp [Check.require, Check.report]

namespace Parse

/-- Where the lookahead sees a declaration, no expression statement can be read. Where it sees none,
a declaration that can be read declares nothing, which is refused wherever it stands. So what it
chooses reads every expression statement, and every declaration that has declarators or is not one
of variables. -/
theorem startsDeclaration_decides (n : Nat) (c : Cursor) :
    (c.startsDeclaration = true → ∃ e, expressionStatement n c = .error e) ∧
    (c.startsDeclaration = false → ∀ d c', localDeclaration n c = .ok (d, c') →
      ∃ q spec span, d = .vars q spec [] span ∧ ∀ s place, ⟨span, .decl .declaresNothing⟩ ∈
        (Check.declaration place ((Bind.declaration d).run s).1).problems) ∧
    (∀ s c', expressionStatement n c = .ok (s, c') → simpleStatement n c = .ok (s, c')) ∧
    (∀ d c', localDeclaration n c = .ok (d, c') →
      simpleStatement n c = .ok (.decl d d.span, c') ∨
        ∃ q spec span, d = .vars q spec [] span) := by
  have hexpression : c.startsDeclaration = true → ∃ e, expressionStatement n c = .error e := by
    intro hstart
    cases hs : expressionStatement n c with
    | error e => exact ⟨e, rfl⟩
    | ok r => exact absurd hs (expressionStatement_of_startsDeclaration hstart)
  refine ⟨hexpression, fun hstart d c' h => ?_, fun s c' h => ?_, fun d c' h => ?_⟩
  · obtain ⟨q, spec, span, rfl, hstruct⟩ := declaration_of_not_startsDeclaration hstart h
    exact ⟨q, spec, span, rfl, fun s place => Check.declaresNothing_mem hstruct q span s place⟩
  · unfold simpleStatement
    rw [run_get]
    split
    · rename_i hstart
      obtain ⟨e, he⟩ := hexpression hstart
      rw [h] at he
      cases he
    · exact h
  · cases hstart : c.startsDeclaration with
    | true =>
      refine .inl ?_
      unfold simpleStatement
      rw [run_get, if_pos hstart]
      show (localDeclaration n c >>= fun r => _) = _
      rw [h]
      rfl
    | false =>
      obtain ⟨q, spec, span, rfl, -⟩ := declaration_of_not_startsDeclaration hstart h
      exact .inr ⟨q, spec, span, rfl⟩

def arrayDeclaration : Cursor :=
  .ofTokens ⟨.identifier "T", ⟨0, 1⟩⟩ [⟨.mark .lBracket, ⟨1, 2⟩⟩, ⟨.intLiteral "2", ⟨2, 3⟩⟩,
    ⟨.mark .rBracket, ⟨3, 4⟩⟩, ⟨.identifier "x", ⟨5, 6⟩⟩, ⟨.mark .semi, ⟨6, 7⟩⟩, ⟨.eof, ⟨7, 7⟩⟩]

def arrayOnly : Cursor :=
  .ofTokens ⟨.identifier "T", ⟨0, 1⟩⟩ [⟨.mark .lBracket, ⟨1, 2⟩⟩, ⟨.intLiteral "2", ⟨2, 3⟩⟩,
    ⟨.mark .rBracket, ⟨3, 4⟩⟩, ⟨.mark .semi, ⟨4, 5⟩⟩, ⟨.eof, ⟨5, 5⟩⟩]

/-- Both a type that declares nothing and an element of an array can be read from the same
tokens. -/
theorem startsDeclaration_decides_array :
    (arrayDeclaration.startsDeclaration = true ∧
      ∃ e, expressionStatement 64 arrayDeclaration = .error e) ∧
    (arrayOnly.startsDeclaration = false ∧ (∃ d c', localDeclaration 64 arrayOnly = .ok (d, c') ∧
      ∃ q spec span, d = .vars q spec [] span ∧ ∀ s place, ⟨span, .decl .declaresNothing⟩ ∈
        (Check.declaration place ((Bind.declaration d).run s).1).problems)) ∧
    ∃ s c', expressionStatement 64 arrayOnly = .ok (s, c') ∧
      simpleStatement 64 arrayOnly = .ok (s, c') := by
  refine ⟨⟨rfl, (startsDeclaration_decides 64 _).1 rfl⟩, ⟨rfl, _, _, rfl, ?_⟩, _, _, rfl, ?_⟩
  · exact (startsDeclaration_decides 64 arrayOnly).2.1 rfl _ _ rfl
  · exact (startsDeclaration_decides 64 arrayOnly).2.2.1 _ _ rfl

end Parse

end Shader
