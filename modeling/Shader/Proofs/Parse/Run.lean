import Shader.Parse
import Shader.Proofs.Parse.Reads

/-! What a run of a parser has done. A run that succeeds has taken the tokens between the cursor
where it started and the one where it stopped. -/

namespace Shader

namespace Cursor

/-- Some token is the last one and marks the end of the source. -/
def Ended (c : Cursor) : Prop :=
  ∃ t, c.tokens.getLast? = some t ∧ t.kind = .eof

/-- Step by step the tokens are taken. The end of the source never is; the last token of a list that
does not mark its end is taken again and again. -/
inductive Takes : Cursor → List Token → Cursor → Prop where
  | nil (c : Cursor) : Takes c [] c
  | cons {c c' : Cursor} {ts : List Token} :
    c.kind ≠ .eof → Takes c.next ts c' → Takes c (c.token :: ts) c'

variable {c c' d : Cursor} {ts us : List Token} {t u : Token}

namespace Takes

theorem one (h : c.kind ≠ .eof) : Takes c [c.token] c.next :=
  .cons h (.nil _)

theorem trans (h : Takes c ts d) (h' : Takes d us c') : Takes c (ts ++ us) c' := by
  induction h with
  | nil => exact h'
  | cons hkind _ ih => exact .cons hkind (ih h')

theorem snoc (h : Takes c ts d) (hkind : d.kind ≠ .eof) : Takes c (ts ++ [d.token]) d.next :=
  h.trans (.one hkind)

theorem split (h : Takes c (ts ++ us) c') : ∃ d, Takes c ts d ∧ Takes d us c' := by
  induction ts generalizing c with
  | nil => exact ⟨c, .nil c, h⟩
  | cons t ts ih =>
    cases h with
    | cons hkind h =>
      obtain ⟨d, hd, h⟩ := ih h
      exact ⟨d, .cons hkind hd, h⟩

/-- Of two ways to go on from one place, one goes on from the other. -/
theorem prefix_or (h : Takes c ts d) (h' : Takes c us c') : ts <+: us ∨ us <+: ts := by
  induction h generalizing us with
  | nil => exact .inl List.nil_prefix
  | cons _ _ ih =>
    cases h' with
    | nil => exact .inr List.nil_prefix
    | cons _ h' =>
      simp only [List.cons_prefix_cons, true_and]
      exact ih h'

end Takes

theorem next_of_rest (h : c.rest = []) : c.next = c := by
  unfold next
  rw [h]

theorem tokens_eq_cons (h : c.rest ≠ []) : c.tokens = c.token :: c.next.tokens := by
  obtain ⟨t, ts, hrest⟩ := List.exists_cons_of_ne_nil h
  unfold next tokens
  rw [hrest]

theorem Takes.rest_eq_nil (h : Takes c ts c') (hrest : c.rest = []) : c' = c := by
  induction h with
  | nil => rfl
  | @cons c c' ts _ _ ih =>
    have hnext := next_of_rest hrest
    rw [ih (by rw [hnext, hrest]), hnext]

theorem Takes.tokens_eq (h : Takes c ts c') (hrest : c'.rest ≠ []) :
    c.tokens = ts ++ c'.tokens := by
  induction h with
  | nil => rfl
  | @cons c c' ts _ h ih =>
    have hne : c.rest ≠ [] := by
      intro hnil
      have hnext := next_of_rest hnil
      exact hrest (by rw [h.rest_eq_nil (by rw [hnext, hnil]), hnext, hnil])
    rw [tokens_eq_cons hne, ih hrest, List.cons_append]

theorem Ended.rest_ne_nil (h : c.Ended) (hkind : c.kind ≠ .eof) : c.rest ≠ [] := by
  intro hrest
  obtain ⟨t, ht, heof⟩ := h
  rw [tokens, hrest] at ht
  obtain rfl := Option.some.inj ht
  exact hkind heof

theorem Ended.next (h : c.Ended) : c.next.Ended := by
  by_cases hrest : c.rest = []
  · rwa [next_of_rest hrest]
  · obtain ⟨t, ht, heof⟩ := h
    refine ⟨t, ?_, heof⟩
    rw [tokens_eq_cons hrest, List.getLast?_cons_of_ne_nil (by simp [tokens])] at ht
    exact ht

theorem Ended.takes (hc : c.Ended) (h : Takes c ts c') : c'.Ended ∧ c.tokens = ts ++ c'.tokens := by
  induction h with
  | nil => exact ⟨hc, rfl⟩
  | cons hkind _ ih =>
    obtain ⟨hend, htokens⟩ := ih hc.next
    exact ⟨hend, by rw [tokens_eq_cons (hc.rest_ne_nil hkind), htokens, List.cons_append]⟩

theorem Ended.before_next (hc : c.Ended) (hkind : c.kind ≠ .eof) :
    c.next.before = c.token.span := by
  obtain ⟨t, ts, hrest⟩ := List.exists_cons_of_ne_nil (hc.rest_ne_nil hkind)
  unfold Cursor.next
  rw [hrest]

theorem Ended.before (hc : c.Ended) (h : Takes c ts c') (hne : ts ≠ []) :
    c'.before = (ts.getLast hne).span := by
  induction h with
  | nil => exact absurd rfl hne
  | @cons c c' ts hkind h ih =>
    by_cases hts : ts = []
    · subst hts
      cases h
      exact hc.before_next hkind
    · rw [ih hc.next hts, List.getLast_cons hts]

end Cursor

namespace Parse

section Run

variable {α β : Type} (c : Cursor) (m : Mark)

theorem run_pure {c c' : Cursor} {a b : α} (h : (pure a : Parser α) c = .ok (b, c')) :
    a = b ∧ c = c' := by
  simpa using Except.ok.inj h

theorem run_get (f : Cursor → Parser α) : (get >>= f) c = f c c :=
  rfl

theorem run_kind (f : TokenKind → Parser α) : (kind >>= f) c = f c.kind c :=
  rfl

theorem run_here (f : Span → Parser α) : (here >>= f) c = f c.token.span c :=
  rfl

theorem run_spanFrom (start : Span) (f : Span → Parser α) :
    (spanFrom start >>= f) c = f (start.merge c.before) c :=
  rfl

theorem run_pure_spanFrom {c c' : Cursor} {start : Span} {f : Span → α} {a : α}
    (h : (spanFrom start >>= fun span => pure (f span)) c = .ok (a, c')) :
    f (start.merge c.before) = a ∧ c = c' :=
  run_pure h

theorem run_advance (f : Unit → Parser α) : (advance >>= f) c = f () c.next :=
  rfl

theorem run_atMark (f : Bool → Parser α) : (atMark m >>= f) c = f (c.kind = .mark m) c :=
  rfl

theorem run_atVoidList (f : Bool → Parser α) :
    (atVoidList >>= f) c =
      f (c.kind = .identifier "void" && c.nextKind = .mark .rParen) c :=
  rfl

theorem run_isAt (what : TokenKind) (f : Bool → Parser α) :
    (isAt what >>= f) c = f (c.kind = what) c :=
  rfl

theorem run_atIdentifier (f : Bool → Parser α) :
    (atIdentifier >>= f) c = f c.kind.isIdentifier c :=
  rfl

theorem run_atInvariantList (f : Bool → Parser α) :
    (atInvariantList >>= f) c = f (c.kind = .keyword .invariantWord && c.nextKind.isIdentifier &&
      (c.next.nextKind = .mark .semi || c.next.nextKind = .mark .comma)) c :=
  rfl

theorem run_accept (what : TokenKind) (f : Bool → Parser α) :
    (accept what >>= f) c = if c.kind = what then f true c.next else f false c := by
  by_cases h : c.kind = what
  · rw [if_pos h]
    simp only [accept, isAt, bind_assoc, run_get, pure_bind, h, decide_true, if_true]
    rfl
  · rw [if_neg h]
    simp only [accept, isAt, bind_assoc, run_get, pure_bind, h, decide_false, Bool.false_eq_true,
      if_false]

theorem run_acceptMark (f : Bool → Parser α) :
    (acceptMark m >>= f) c = if c.kind = .mark m then f true c.next else f false c :=
  run_accept c _ f

theorem run_expect (what : TokenKind) (f : Unit → Parser α) {r : α × Cursor}
    (h : (expect what >>= f) c = .ok r) : c.kind = what ∧ f () c.next = .ok r := by
  by_cases hkind : c.kind = what
  · simp only [expect, isAt, bind_assoc, run_get, pure_bind, hkind, decide_true, if_true] at h
    exact ⟨hkind, h⟩
  · simp only [expect, isAt, bind_assoc, run_get, pure_bind, hkind, decide_false,
      Bool.false_eq_true, if_false] at h
    cases h

theorem run_expectMark (f : Unit → Parser α) {r : α × Cursor}
    (h : (expectMark m >>= f) c = .ok r) : c.kind = .mark m ∧ f () c.next = .ok r :=
  run_expect c _ f h

theorem run_name (f : String × Span → Parser α) {r : α × Cursor}
    (h : (name >>= f) c = .ok r) :
    ∃ x, c.kind = .identifier x ∧ f (x, c.token.span) c.next = .ok r := by
  unfold name at h
  rw [bind_assoc, run_kind] at h
  cases hkind : c.kind with
  | identifier x =>
    simp only [hkind] at h
    split at h
    · cases h
    · rw [bind_assoc, run_here, bind_assoc, run_advance, pure_bind] at h
      exact ⟨x, rfl, h⟩
  | _ =>
    simp only [hkind] at h
    cases h

theorem run_bind {x : Parser α} {f : α → Parser β} {c : Cursor} {r : β × Cursor}
    (h : (x >>= f) c = .ok r) : ∃ a c', x c = .ok (a, c') ∧ f a c' = .ok r := by
  change (x c >>= fun s => f s.1 s.2) = .ok r at h
  cases hx : x c with
  | error e =>
    rw [hx] at h
    cases h
  | ok s =>
    rw [hx] at h
    exact ⟨s.1, s.2, rfl, h⟩

end Run

end Parse

end Shader
