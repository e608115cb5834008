import Shader.Proofs.Parse.Laid

/-! Parsers finish. With fuel in proportion to the tokens that are left no parser runs out of it,
and what a parser complains about is always one of the tokens.

The fuel that a parser needs is 32 for every token behind the cursor and a constant of its own. The
constant grows with the calls that can follow each other before a token is taken. -/

namespace Shader

namespace Cursor

/-- The cursor stands in a list of tokens that marks its end. -/
structure Within (tokens : List Token) (c : Cursor) : Prop where
  ended : c.Ended
  suffix : c.tokens <:+ tokens

namespace Within

variable {tokens ts : List Token} {c c' : Cursor} {os : List Outline}

theorem takes (h : c.Within tokens) (hts : c.Takes ts c') :
    c'.Within tokens ∧ c'.rest.length + ts.length = c.rest.length := by
  obtain ⟨hended, heq⟩ := h.ended.takes hts
  refine ⟨⟨hended, (List.suffix_append ts c'.tokens).trans (heq ▸ h.suffix)⟩, ?_⟩
  have hlength := congrArg List.length heq
  simp only [Cursor.tokens, List.length_append, List.length_cons] at hlength
  omega

theorem next (h : c.Within tokens) (hkind : c.kind ≠ .eof) :
    c.next.Within tokens ∧ c.next.rest.length < c.rest.length := by
  obtain ⟨hnext, hlength⟩ := h.takes (.one hkind)
  exact ⟨hnext, by simp only [List.length_singleton] at hlength; omega⟩

theorem lays (h : c.Within tokens) (hl : Parse.Lays True c os c') :
    c'.Within tokens ∧ c'.rest.length ≤ c.rest.length := by
  obtain ⟨ts, hts, -⟩ := hl
  obtain ⟨hwithin, hlength⟩ := h.takes hts
  exact ⟨hwithin, by omega⟩

theorem advances (h : c.Within tokens) (ha : Parse.Advances True c os c') :
    c'.Within tokens ∧ c'.rest.length < c.rest.length := by
  obtain ⟨ts, hne, hts, -⟩ := ha
  obtain ⟨hwithin, hlength⟩ := h.takes hts
  have := List.length_pos_iff.mpr hne
  exact ⟨hwithin, by omega⟩

theorem token_mem (h : c.Within tokens) : c.token ∈ tokens :=
  h.suffix.subset (by simp [Cursor.tokens])

end Within

end Cursor

namespace Parse

/-- The parser finishes at the cursor: if it fails, then with a complaint about one of the
tokens. -/
def Settles {α : Type} (tokens : List Token) (p : Parser α) (c : Cursor) : Prop :=
  ∀ e, p c = .error e → e.problem ≠ .unfinished ∧ ∃ t ∈ tokens, e.span = t.span

section Settles

variable {α β : Type} {tokens : List Token} {c : Cursor} {m : Mark}

theorem settles_pure (a : α) : Settles tokens (pure a) c :=
  fun e h => by cases h

theorem settles_get {f : Cursor → Parser α} :
    Settles tokens (get >>= f) c ↔ Settles tokens (f c) c :=
  .rfl

theorem settles_kind {f : TokenKind → Parser α} :
    Settles tokens (kind >>= f) c ↔ Settles tokens (f c.kind) c :=
  .rfl

theorem settles_here {f : Span → Parser α} :
    Settles tokens (here >>= f) c ↔ Settles tokens (f c.token.span) c :=
  .rfl

theorem settles_spanFrom {start : Span} {f : Span → Parser α} :
    Settles tokens (spanFrom start >>= f) c ↔ Settles tokens (f (start.merge c.before)) c :=
  .rfl

theorem settles_advance {f : Unit → Parser α} :
    Settles tokens (advance >>= f) c ↔ Settles tokens (f ()) c.next :=
  .rfl

theorem settles_isAt {what : TokenKind} {f : Bool → Parser α} :
    Settles tokens (isAt what >>= f) c ↔ Settles tokens (f (c.kind = what)) c :=
  .rfl

theorem settles_atMark {f : Bool → Parser α} :
    Settles tokens (atMark m >>= f) c ↔ Settles tokens (f (c.kind = .mark m)) c :=
  .rfl

theorem settles_atIdentifier {f : Bool → Parser α} :
    Settles tokens (atIdentifier >>= f) c ↔ Settles tokens (f c.kind.isIdentifier) c :=
  .rfl

theorem settles_atVoidList {f : Bool → Parser α} :
    Settles tokens (atVoidList >>= f) c ↔
      Settles tokens (f (c.kind = .identifier "void" && c.nextKind = .mark .rParen)) c :=
  .rfl

theorem settles_atInvariantList {f : Bool → Parser α} :
    Settles tokens (atInvariantList >>= f) c ↔
      Settles tokens (f (c.kind = .keyword .invariantWord && c.nextKind.isIdentifier &&
        (c.next.nextKind = .mark .semi || c.next.nextKind = .mark .comma))) c :=
  .rfl

theorem settles_bind {x : Parser α} {f : α → Parser β} (hx : Settles tokens x c)
    (hf : ∀ a c', x c = .ok (a, c') → Settles tokens (f a) c') : Settles tokens (x >>= f) c := by
  intro e h
  change (x c >>= fun s => f s.1 s.2) = .error e at h
  cases hrun : x c with
  | error e' =>
    rw [hrun] at h
    cases h
    exact hx e hrun
  | ok s =>
    rw [hrun] at h
    exact hf s.1 s.2 hrun e h

theorem settles_map {x : Parser α} {f : α → β} (hx : Settles tokens x c) :
    Settles tokens (f <$> x) c := by
  rw [map_eq_pure_bind]
  exact settles_bind hx fun _ _ _ => settles_pure _

theorem settles_throw {e : ParseError} {t : Token} (hproblem : e.problem ≠ .unfinished)
    (ht : t ∈ tokens) (hspan : e.span = t.span) : Settles tokens (throw e : Parser α) c := by
  intro e' h
  cases h
  exact ⟨hproblem, t, ht, hspan⟩

theorem settles_expected (hc : c.Within tokens) (what : Expectation) :
    Settles tokens (expected what : Parser α) c := by
  intro e h
  cases h
  exact ⟨by simp, c.token, hc.token_mem, rfl⟩

theorem settles_accept (what : TokenKind) {f : Bool → Parser α}
    (htrue : c.kind = what → Settles tokens (f true) c.next)
    (hfalse : c.kind ≠ what → Settles tokens (f false) c) :
    Settles tokens (accept what >>= f) c := by
  intro e h
  rw [run_accept] at h
  split at h
  · exact htrue ‹_› e h
  · exact hfalse ‹_› e h

theorem settles_expect (hc : c.Within tokens) (what : TokenKind) {f : Unit → Parser α}
    (hf : c.kind = what → Settles tokens (f ()) c.next) :
    Settles tokens (expect what >>= f) c := by
  by_cases hkind : c.kind = what
  · intro e h
    simp only [expect, isAt, bind_assoc, run_get, pure_bind, hkind, decide_true, if_true] at h
    exact hf hkind e h
  · intro e h
    simp only [expect, isAt, bind_assoc, run_get, pure_bind, hkind, decide_false,
      Bool.false_eq_true, if_false] at h
    cases h
    exact ⟨by simp, c.token, hc.token_mem, rfl⟩

theorem settles_name (hc : c.Within tokens) {f : String × Span → Parser α}
    (hf : ∀ x, c.kind = .identifier x → Settles tokens (f (x, c.token.span)) c.next) :
    Settles tokens (name >>= f) c := by
  refine settles_bind ?_ fun a c' h => ?_
  · unfold name
    intro e h
    rw [run_kind] at h
    cases hkind : c.kind with
    | identifier x =>
      simp only [hkind] at h
      split at h
      · exact settles_expected hc _ e h
      · cases h
    | _ =>
      simp only [hkind] at h
      exact settles_expected hc _ e h
  · rw [← bind_pure name] at h
    obtain ⟨x, hkind, h⟩ := run_name _ _ h
    obtain ⟨rfl, rfl⟩ := run_pure h
    exact hf x hkind

theorem settles_acceptMark {f : Bool → Parser α}
    (htrue : c.kind = .mark m → Settles tokens (f true) c.next)
    (hfalse : c.kind ≠ .mark m → Settles tokens (f false) c) :
    Settles tokens (acceptMark m >>= f) c :=
  settles_accept _ htrue hfalse

theorem settles_expectMark (hc : c.Within tokens) {f : Unit → Parser α}
    (hf : c.kind = .mark m → Settles tokens (f ()) c.next) :
    Settles tokens (expectMark m >>= f) c :=
  settles_expect hc _ hf

end Settles

/-- With enough fuel the parsers of expressions finish. -/
structure ExpressionsSettle (tokens : List Token) (n : Nat) : Prop where
  expression {c : Cursor} : c.Within tokens → 32 * c.rest.length + 18 ≤ n →
    Settles tokens (expression n) c
  commaTail {c : Cursor} {l : Expr} : c.Within tokens → 32 * c.rest.length + 1 ≤ n →
    Settles tokens (commaTail n l) c
  assignment {c : Cursor} : c.Within tokens → 32 * c.rest.length + 17 ≤ n →
    Settles tokens (assignment n) c
  conditional {c : Cursor} : c.Within tokens → 32 * c.rest.length + 16 ≤ n →
    Settles tokens (conditional n) c
  binary {level : Nat} {c : Cursor} : c.Within tokens → level ≤ BinaryOp.levels →
    32 * c.rest.length + (4 + (BinaryOp.levels - level)) ≤ n → Settles tokens (binary n level) c
  binaryTail {level : Nat} {c : Cursor} {l : Expr} : c.Within tokens → level < BinaryOp.levels →
    32 * c.rest.length + 1 ≤ n → Settles tokens (binaryTail n level l) c
  unary {c : Cursor} : c.Within tokens → 32 * c.rest.length + 3 ≤ n → Settles tokens (unary n) c
  accesses {c : Cursor} {e : Expr} : c.Within tokens → 32 * c.rest.length + 1 ≤ n →
    Settles tokens (accesses n e) c
  primary {c : Cursor} : c.Within tokens → 32 * c.rest.length + 2 ≤ n → Settles tokens (primary n) c
  call {x : String} {start : Span} {c : Cursor} : c.Within tokens → c.kind = .identifier x →
    32 * c.rest.length + 1 ≤ n → Settles tokens (call n x start) c
  arguments {c : Cursor} : c.Within tokens → 32 * c.rest.length + 18 ≤ n →
    Settles tokens (arguments n) c
  arraySuffix {c : Cursor} : c.Within tokens → 32 * c.rest.length + 1 ≤ n →
    Settles tokens (arraySuffix? n) c

namespace ExpressionsSettle

variable {tokens : List Token} {n : Nat} (ih : ExpressionsSettle tokens n) {c : Cursor}

include ih

theorem expression_step (hc : c.Within tokens) (hn : 32 * c.rest.length + 18 ≤ n + 1) :
    Settles tokens (Parse.expression (n + 1)) c := by
  unfold Parse.expression
  refine settles_bind (ih.assignment hc (by omega)) fun l c₁ hl => ?_
  obtain ⟨hc₁, hlt⟩ := hc.advances (advances_assignment (fun _ => hc.ended) hl)
  exact ih.commaTail hc₁ (by omega)

theorem commaTail_step {l : Expr} (hc : c.Within tokens) (hn : 32 * c.rest.length + 1 ≤ n + 1) :
    Settles tokens (Parse.commaTail (n + 1) l) c := by
  unfold Parse.commaTail
  refine settles_acceptMark (fun hcomma => ?_) fun _ => settles_pure _
  obtain ⟨hc₁, hlt⟩ := hc.next (by simp [hcomma])
  refine settles_bind (ih.assignment hc₁ (by omega)) fun r c₂ hr => ?_
  obtain ⟨hc₂, hlt'⟩ := hc₁.advances (advances_assignment (fun _ => hc₁.ended) hr)
  exact ih.commaTail hc₂ (by omega)

theorem assignment_step (hc : c.Within tokens) (hn : 32 * c.rest.length + 17 ≤ n + 1) :
    Settles tokens (Parse.assignment (n + 1)) c := by
  unfold Parse.assignment
  refine settles_bind (ih.conditional hc (by omega)) fun l c₁ hl => ?_
  obtain ⟨hc₁, hlt⟩ := hc.advances ((spellings True n).conditional (fun _ => hc.ended) hl).advances
  rw [settles_kind]
  cases hop : AssignOp.ofToken? c₁.kind with
  | some op =>
    obtain ⟨hc₂, hlt'⟩ := hc₁.next (by simp [AssignOp.kind_of_ofToken? hop])
    simp only [settles_advance]
    exact settles_bind (ih.assignment hc₂ (by omega)) fun _ _ _ => settles_pure _
  | none => exact settles_pure _

theorem conditional_step (hc : c.Within tokens) (hn : 32 * c.rest.length + 16 ≤ n + 1) :
    Settles tokens (Parse.conditional (n + 1)) c := by
  unfold Parse.conditional
  have hlevels : BinaryOp.levels = 11 := rfl
  refine settles_bind (ih.binary hc (Nat.zero_le _) (by omega)) fun l c₁ hl => ?_
  obtain ⟨hc₁, hlt⟩ := hc.advances ((spellings True n).binary (fun _ => hc.ended) hl).advances
  refine settles_acceptMark (fun hquestion => ?_) fun _ => settles_pure _
  obtain ⟨hc₂, hlt'⟩ := hc₁.next (by simp [hquestion])
  refine settles_bind (ih.expression hc₂ (by omega)) fun t c₃ ht => ?_
  obtain ⟨hc₃, hlt''⟩ := hc₂.advances (advances_expression (fun _ => hc₂.ended) ht)
  refine settles_expectMark hc₃ fun hcolon => ?_
  obtain ⟨hc₄, hlt'''⟩ := hc₃.next (by simp [hcolon])
  exact settles_bind (ih.assignment hc₄ (by omega)) fun _ _ _ => settles_pure _

theorem binary_step {level : Nat} (hc : c.Within tokens) (hlevel : level ≤ BinaryOp.levels)
    (hn : 32 * c.rest.length + (4 + (BinaryOp.levels - level)) ≤ n + 1) :
    Settles tokens (Parse.binary (n + 1) level) c := by
  unfold Parse.binary
  split
  · exact ih.unary hc (by omega)
  · refine settles_bind (ih.binary hc (by omega) (by omega)) fun l c₁ hl => ?_
    obtain ⟨hc₁, hlt⟩ := hc.advances ((spellings True n).binary (fun _ => hc.ended) hl).advances
    exact ih.binaryTail hc₁ (by omega) (by omega)

theorem binaryTail_step {level : Nat} {l : Expr} (hc : c.Within tokens)
    (hlevel : level < BinaryOp.levels) (hn : 32 * c.rest.length + 1 ≤ n + 1) :
    Settles tokens (Parse.binaryTail (n + 1) level l) c := by
  have hlevels : BinaryOp.levels = 11 := rfl
  unfold Parse.binaryTail
  rw [settles_kind]
  cases hop : BinaryOp.ofToken? level c.kind with
  | some op =>
    obtain ⟨hc₁, hlt⟩ := hc.next (by simp [BinaryOp.kind_of_ofToken? hop])
    simp only [settles_advance]
    refine settles_bind (ih.binary hc₁ (by omega) (by omega)) fun r c₂ hr => ?_
    obtain ⟨hc₂, hlt'⟩ := hc₁.advances ((spellings True n).binary (fun _ => hc₁.ended) hr).advances
    exact ih.binaryTail hc₂ hlevel (by omega)
  | none => exact settles_pure _

theorem unary_step (hc : c.Within tokens) (hn : 32 * c.rest.length + 3 ≤ n + 1) :
    Settles tokens (Parse.unary (n + 1)) c := by
  unfold Parse.unary
  rw [settles_here, settles_kind]
  cases hop : UnaryOp.ofToken? c.kind with
  | some op =>
    obtain ⟨hc₁, hlt⟩ := hc.next (by simp [UnaryOp.kind_of_ofToken? hop])
    simp only [settles_advance]
    exact settles_bind (ih.unary hc₁ (by omega)) fun _ _ _ => settles_pure _
  | none =>
    cases hupdate : UpdateOp.ofToken? c.kind with
    | some op =>
      obtain ⟨hc₁, hlt⟩ := hc.next (by simp [UpdateOp.kind_of_ofToken? hupdate])
      simp only [settles_advance]
      exact settles_bind (ih.unary hc₁ (by omega)) fun _ _ _ => settles_pure _
    | none =>
      refine settles_bind (ih.primary hc (by omega)) fun e c₁ he => ?_
      obtain ⟨hc₁, hlt⟩ := hc.advances ((spellings True n).primary (fun _ => hc.ended) he).advances
      exact ih.accesses hc₁ (by omega)

theorem accesses_step {e : Expr} (hc : c.Within tokens) (hn : 32 * c.rest.length + 1 ≤ n + 1) :
    Settles tokens (Parse.accesses (n + 1) e) c := by
  unfold Parse.accesses
  rw [settles_kind]
  split
  · rename_i hkind
    rw [settles_advance]
    obtain ⟨hc₁, hlt⟩ := hc.next (by simp [hkind])
    refine settles_bind (ih.expression hc₁ (by omega)) fun i c₂ hi => ?_
    obtain ⟨hc₂, hlt'⟩ := hc₁.advances (advances_expression (fun _ => hc₁.ended) hi)
    refine settles_expectMark hc₂ fun hclose => ?_
    obtain ⟨hc₃, hlt''⟩ := hc₂.next (by simp [hclose])
    exact ih.accesses hc₃ (by omega)
  split
  · rename_i hkind
    rw [settles_advance, settles_kind]
    obtain ⟨hc₁, hlt⟩ := hc.next (by simp [hkind])
    cases hfield : c.next.kind with
    | identifier field =>
      obtain ⟨hc₂, hlt'⟩ := hc₁.next (by simp [hfield])
      simp only [settles_advance, settles_get]
      split
      · rename_i hlength
        simp only [Bool.and_eq_true, decide_eq_true_eq] at hlength
        obtain ⟨hc₃, hlt''⟩ := hc₂.next (by simp [hlength.1.2])
        obtain ⟨hc₄, hlt'''⟩ := hc₃.next (by simp [show c.next.next.next.kind = _ from hlength.2])
        rw [settles_advance, settles_advance, settles_spanFrom]
        exact ih.accesses hc₄ (by omega)
      · rw [settles_spanFrom]
        exact ih.accesses hc₂ (by omega)
    | _ => exact settles_expected hc₁ _
  · cases hop : UpdateOp.ofToken? c.kind with
    | some op =>
      obtain ⟨hc₁, hlt⟩ := hc.next (by simp [UpdateOp.kind_of_ofToken? hop])
      simp only [settles_advance, settles_spanFrom]
      exact ih.accesses hc₁ (by omega)
    | none => exact settles_pure _

theorem primary_step (hc : c.Within tokens) (hn : 32 * c.rest.length + 2 ≤ n + 1) :
    Settles tokens (Parse.primary (n + 1)) c := by
  unfold Parse.primary
  rw [settles_here, settles_kind]
  cases hkind : c.kind with
  | intLiteral text | floatLiteral text => exact settles_pure _
  | keyword k =>
    cases k with
    | trueWord | falseWord => exact settles_pure _
    | _ => exact settles_expected hc _
  | mark m =>
    cases m with
    | lParen =>
      obtain ⟨hc₁, hlt⟩ := hc.next (by simp [hkind])
      simp only [settles_advance]
      refine settles_bind (ih.expression hc₁ (by omega)) fun e c₂ he => ?_
      obtain ⟨hc₂, -⟩ := hc₁.advances (advances_expression (fun _ => hc₁.ended) he)
      exact settles_expectMark hc₂ fun _ => settles_pure _
    | _ => exact settles_expected hc _
  | identifier x =>
    simp only [settles_get]
    split
    · exact ih.call hc hkind (by omega)
    · exact settles_pure _
  | _ => exact settles_expected hc _

theorem call_step {x : String} {start : Span} (hc : c.Within tokens)
    (hkind : c.kind = .identifier x) (hn : 32 * c.rest.length + 1 ≤ n + 1) :
    Settles tokens (Parse.call (n + 1) x start) c := by
  unfold Parse.call
  rw [settles_advance]
  obtain ⟨hc₁, hlt⟩ := hc.next (by simp [hkind])
  refine settles_bind (ih.arraySuffix hc₁ (by omega)) fun suffix c₂ hsuffix => ?_
  obtain ⟨hc₂, hle⟩ := hc₁.lays (lays_arraySuffix (fun _ => hc₁.ended) hsuffix)
  rw [settles_spanFrom]
  refine settles_expectMark hc₂ fun hopen => ?_
  obtain ⟨hc₃, hlt'⟩ := hc₂.next (by simp [hopen])
  rw [settles_atVoidList]
  split
  · rename_i hvoid
    simp only [Bool.and_eq_true, decide_eq_true_eq] at hvoid
    obtain ⟨hc₄, -⟩ := hc₃.next (by simp [hvoid.1])
    rw [settles_advance]
    exact settles_expectMark hc₄ fun _ => settles_pure _
  · simp only [settles_atMark]
    split
    · rw [pure_bind]
      exact settles_expectMark hc₃ fun _ => settles_pure _
    · refine settles_bind (ih.arguments hc₃ (by omega)) fun args c₄ hargs => ?_
      obtain ⟨ts, hts, -⟩ := (spellings True n).arguments (fun _ => hc₃.ended) hargs
      exact settles_expectMark (hc₃.takes hts).1 fun _ => settles_pure _

theorem arguments_step (hc : c.Within tokens) (hn : 32 * c.rest.length + 18 ≤ n + 1) :
    Settles tokens (Parse.arguments (n + 1)) c := by
  unfold Parse.arguments
  refine settles_bind (ih.assignment hc (by omega)) fun e c₁ he => ?_
  obtain ⟨hc₁, hlt⟩ := hc.advances (advances_assignment (fun _ => hc.ended) he)
  refine settles_acceptMark (fun hcomma => ?_) fun _ => settles_pure _
  obtain ⟨hc₂, hlt'⟩ := hc₁.next (by simp [hcomma])
  exact settles_bind (ih.arguments hc₂ (by omega)) fun _ _ _ => settles_pure _

theorem arraySuffix_step (hc : c.Within tokens) (hn : 32 * c.rest.length + 1 ≤ n + 1) :
    Settles tokens (Parse.arraySuffix? (n + 1)) c := by
  unfold Parse.arraySuffix?
  rw [settles_here]
  refine settles_acceptMark (fun hopen => ?_) fun _ => settles_pure _
  obtain ⟨hc₁, hlt⟩ := hc.next (by simp [hopen])
  simp only [if_true, settles_atMark]
  split
  · rw [pure_bind]
    exact settles_expectMark hc₁ fun _ => settles_pure _
  · rw [bind_map_left]
    refine settles_bind (ih.conditional hc₁ (by omega)) fun e c₂ he => ?_
    obtain ⟨hc₂, -⟩ :=
      hc₁.advances ((spellings True n).conditional (fun _ => hc₁.ended) he).advances
    exact settles_expectMark hc₂ fun _ => settles_pure _

end ExpressionsSettle

theorem expressionsSettle (tokens : List Token) (n : Nat) : ExpressionsSettle tokens n := by
  induction n with
  | zero => constructor <;> intros <;> omega
  | succ n ih =>
    exact {
      expression := ih.expression_step
      commaTail := ih.commaTail_step
      assignment := ih.assignment_step
      conditional := ih.conditional_step
      binary := ih.binary_step
      binaryTail := ih.binaryTail_step
      unary := ih.unary_step
      accesses := ih.accesses_step
      primary := ih.primary_step
      call := ih.call_step
      arguments := ih.arguments_step
      arraySuffix := ih.arraySuffix_step }

section Qualifiers

variable {tokens : List Token} {n : Nat} {c : Cursor}

theorem settles_layoutValue (hc : c.Within tokens) :
    Settles tokens layoutItems.layoutValue c := by
  unfold layoutItems.layoutValue
  refine settles_acceptMark (fun heq => ?_) fun _ => settles_pure _
  obtain ⟨hc₁, -⟩ := hc.next (by simp [heq])
  simp only [if_true, settles_kind]
  cases c.next.kind with
  | intLiteral text => exact settles_pure _
  | _ => exact settles_expected hc₁ _

theorem settles_layoutItems (hc : c.Within tokens) (hn : 32 * c.rest.length + 1 ≤ n) :
    Settles tokens (layoutItems n) c := by
  induction n generalizing c with
  | zero => omega
  | succ n ih =>
    unfold layoutItems
    rw [settles_here, settles_kind]
    cases hkind : c.kind with
    | identifier x =>
      obtain ⟨hc₁, hlt⟩ := hc.next (by simp [hkind])
      simp only [settles_advance]
      refine settles_bind (settles_layoutValue hc₁) fun value c₂ hvalue => ?_
      obtain ⟨hc₂, hle⟩ := hc₁.lays (lays_layoutValue hvalue)
      rw [settles_spanFrom]
      refine settles_acceptMark (fun hcomma => ?_) fun _ => ?_
      · obtain ⟨hc₃, hlt'⟩ := hc₂.next (by simp [hcomma])
        exact settles_bind (ih hc₃ (by omega)) fun _ _ _ => settles_pure _
      · exact settles_expectMark hc₂ fun _ => settles_pure _
    | _ => exact settles_expected hc _

theorem settles_qualifierRun {run : QualifierRun} (hc : c.Within tokens)
    (hn : 32 * c.rest.length + 1 ≤ n) : Settles tokens (qualifierRun n run) c := by
  induction n generalizing c run with
  | zero => omega
  | succ n ih =>
    have step {next : QualifierRun} (hkind : c.kind ≠ .eof) :
        Settles tokens (qualifierRun n next) c.next := by
      obtain ⟨hc₁, hlt⟩ := hc.next hkind
      exact ih hc₁ (by omega)
    unfold qualifierRun
    rw [settles_kind]
    cases hstorage : storage? c.kind with
    | some s =>
      have hkind : c.kind ≠ .eof := fun heof => by simp [heof, storage?] at hstorage
      simp only
      split
      · rw [settles_here]
        exact settles_throw (by simp) hc.token_mem rfl
      · exact step hkind
    | none =>
    cases hinterpolation : interpolation? c.kind with
    | some i =>
      exact step fun heof => by simp [heof, interpolation?] at hinterpolation
    | none =>
    cases hprecision : precision? c.kind with
    | some p =>
      exact step fun heof => by simp [heof, precision?] at hprecision
    | none =>
    simp only
    split
    · rename_i hkind
      exact step (by simp [hkind])
    split
    · rename_i hkind
      exact step (by simp [hkind])
    split
    · rename_i hkind
      obtain ⟨hc₁, hlt⟩ := hc.next (by simp [hkind])
      rw [settles_advance]
      refine settles_expectMark hc₁ fun hopen => ?_
      obtain ⟨hc₂, hlt'⟩ := hc₁.next (by simp [hopen])
      refine settles_bind (settles_layoutItems hc₂ (by omega)) fun items c₃ hitems => ?_
      obtain ⟨hc₃, hlt''⟩ := hc₂.advances (advances_layoutItems (fun _ => hc₂.ended) hitems)
      exact ih hc₃ (by omega)
    · exact settles_pure _

theorem settles_qualifiers (hc : c.Within tokens) (hn : 32 * c.rest.length + 1 ≤ n) :
    Settles tokens (qualifiers n) c := by
  unfold qualifiers
  rw [settles_here, settles_get]
  dsimp only
  split
  · refine settles_bind (settles_qualifierRun hc hn) fun run c₁ hrun => ?_
    rw [settles_spanFrom]
    split
    · cases hstorage : run.qualifiers.storage with
      | some storage =>
        cases storage with
        | input | output => exact settles_pure _
        | _ => exact settles_throw (by simp) hc.token_mem rfl
      | none => exact settles_throw (by simp) hc.token_mem rfl
    · exact settles_pure _
  · exact settles_pure _

end Qualifiers

section Declarations

variable {tokens : List Token} {n : Nat} {c : Cursor}

theorem settles_memberNames (hc : c.Within tokens) (hn : 32 * c.rest.length + 1 ≤ n) :
    Settles tokens (memberNames n) c := by
  induction n generalizing c with
  | zero => omega
  | succ n ih =>
    unfold memberNames
    refine settles_name hc fun x hkind => ?_
    obtain ⟨hc₁, hlt⟩ := hc.next (by simp [hkind])
    refine settles_bind ((expressionsSettle tokens n).arraySuffix hc₁ (by omega))
      fun array c₂ harray => ?_
    obtain ⟨hc₂, hle⟩ := hc₁.lays (lays_arraySuffix (fun _ => hc₁.ended) harray)
    rw [settles_spanFrom]
    refine settles_acceptMark (fun hcomma => ?_) fun _ => ?_
    · obtain ⟨hc₃, hlt'⟩ := hc₂.next (by simp [hcomma])
      exact settles_bind (ih hc₃ (by omega)) fun _ _ _ => settles_pure _
    · exact settles_expectMark hc₂ fun _ => settles_pure _

theorem settles_specNote {start : Span} (hc : c.Within tokens) (hn : 32 * c.rest.length + 1 ≤ n) :
    Settles tokens (specNote n start) c :=
  settles_bind ((expressionsSettle tokens n).arraySuffix hc hn) fun _ _ _ => settles_pure _

/-- With enough fuel the parsers of types finish. -/
structure TypesSettle (tokens : List Token) (n : Nat) : Prop where
  typeSpec {c : Cursor} : c.Within tokens → 32 * c.rest.length + 1 ≤ n →
    Settles tokens (typeSpec n) c
  memberLines {c : Cursor} : c.Within tokens → 32 * c.rest.length + 2 ≤ n →
    Settles tokens (memberLines n) c

theorem TypesSettle.structRest (ih : TypesSettle tokens n) (hc : c.Within tokens)
    (hn : 32 * c.rest.length ≤ n) (tag : Option String) (start : Span) :
    Settles tokens (Parse.structRest n tag start) c := by
  unfold Parse.structRest
  refine settles_expectMark hc fun hopen => ?_
  obtain ⟨hc₁, hlt⟩ := hc.next (by simp [hopen])
  refine settles_bind (ih.memberLines hc₁ (by omega)) fun members c₂ hmembers => ?_
  obtain ⟨hc₂, hlt'⟩ :=
    hc₁.advances ((typeLayouts True n).memberLines (fun _ => hc₁.ended) hmembers)
  rw [settles_spanFrom]
  exact settles_bind (settles_specNote hc₂ (by omega)) fun _ _ _ => settles_pure _

theorem TypesSettle.typeSpec_step (ih : TypesSettle tokens n) (hc : c.Within tokens)
    (hn : 32 * c.rest.length + 1 ≤ n + 1) : Settles tokens (Parse.typeSpec (n + 1)) c := by
  unfold Parse.typeSpec
  rw [settles_here, settles_kind]
  cases hkind : c.kind with
  | keyword k =>
    cases k with
    | structWord =>
      obtain ⟨hc₁, hlt⟩ := hc.next (by simp [hkind])
      simp only [settles_advance, settles_atIdentifier]
      split
      · rw [bind_map_left]
        refine settles_name hc₁ fun x hx => ?_
        obtain ⟨hc₂, hlt'⟩ := hc₁.next (by simp [hx])
        exact ih.structRest hc₂ (by omega) (some x) c.token.span
      · rw [pure_bind]
        exact ih.structRest hc₁ (by omega) none c.token.span
    | _ => exact settles_expected hc _
  | identifier x =>
    obtain ⟨hc₁, hlt⟩ := hc.next (by simp [hkind])
    simp only [settles_advance]
    refine settles_bind (settles_specNote hc₁ (by omega)) fun note c₂ _ => ?_
    cases BasicTy.ofName? x with
    | some b => exact settles_pure _
    | none => exact settles_pure _
  | _ => exact settles_expected hc _

theorem TypesSettle.memberLines_step (ih : TypesSettle tokens n) (hc : c.Within tokens)
    (hn : 32 * c.rest.length + 2 ≤ n + 1) : Settles tokens (Parse.memberLines (n + 1)) c := by
  unfold Parse.memberLines
  rw [settles_kind]
  split
  · exact settles_expectMark hc fun _ => settles_pure _
  · rw [settles_here]
    refine settles_bind (settles_qualifiers hc (by omega)) fun quals c₁ hquals => ?_
    obtain ⟨⟨os, hlays⟩, -⟩ := lays_qualifiers (fun _ => hc.ended) hquals
    obtain ⟨hc₁, hle⟩ := hc.lays hlays
    refine settles_bind (ih.typeSpec hc₁ (by omega)) fun spec c₂ hspec => ?_
    obtain ⟨hc₂, hlt⟩ := hc₁.advances ((typeLayouts True n).typeSpec (fun _ => hc₁.ended) hspec)
    refine settles_bind (settles_memberNames hc₂ (by omega)) fun names c₃ hnames => ?_
    obtain ⟨hc₃, hlt'⟩ := hc₂.advances (advances_memberNames (fun _ => hc₂.ended) hnames)
    rw [settles_spanFrom]
    exact settles_bind (ih.memberLines hc₃ (by omega)) fun _ _ _ => settles_pure _

theorem typesSettle (tokens : List Token) (n : Nat) : TypesSettle tokens n := by
  induction n with
  | zero => constructor <;> intros <;> omega
  | succ n ih => exact ⟨ih.typeSpec_step, ih.memberLines_step⟩

theorem settles_declarator {x : String} {start : Span} (hc : c.Within tokens)
    (hn : 32 * c.rest.length + 18 ≤ n) : Settles tokens (declarator n x start) c := by
  unfold declarator
  refine settles_bind ((expressionsSettle tokens n).arraySuffix hc (by omega))
    fun array c₁ harray => ?_
  obtain ⟨hc₁, hle⟩ := hc.lays (lays_arraySuffix (fun _ => hc.ended) harray)
  refine settles_acceptMark (fun heq => ?_) fun _ => settles_pure _
  obtain ⟨hc₂, hlt⟩ := hc₁.next (by simp [heq])
  simp only [if_true, bind_map_left]
  exact settles_bind ((expressionsSettle tokens n).assignment hc₂ (by omega))
    fun _ _ _ => settles_pure _

theorem settles_moreDeclarators (hc : c.Within tokens) (hn : 32 * c.rest.length + 1 ≤ n) :
    Settles tokens (moreDeclarators n) c := by
  induction n generalizing c with
  | zero => omega
  | succ n ih =>
    unfold moreDeclarators
    refine settles_acceptMark (fun hcomma => ?_) fun _ => ?_
    · obtain ⟨hc₁, hlt⟩ := hc.next (by simp [hcomma])
      simp only [if_true]
      refine settles_name hc₁ fun x hkind => ?_
      obtain ⟨hc₂, hlt'⟩ := hc₁.next (by simp [hkind])
      refine settles_bind (settles_declarator hc₂ (by omega)) fun d c₃ hd => ?_
      obtain ⟨hc₃, hlt''⟩ := hc₁.advances (advances_declarator (fun _ => hc₁.ended) hkind hd)
      exact settles_bind (ih hc₃ (by omega)) fun _ _ _ => settles_pure _
    · exact settles_expectMark hc fun _ => settles_pure _

theorem settles_invariantTargets (hc : c.Within tokens) (hn : 32 * c.rest.length + 1 ≤ n) :
    Settles tokens (invariantTargets n) c := by
  induction n generalizing c with
  | zero => omega
  | succ n ih =>
    unfold invariantTargets
    refine settles_name hc fun x hkind => ?_
    obtain ⟨hc₁, hlt⟩ := hc.next (by simp [hkind])
    refine settles_acceptMark (fun hcomma => ?_) fun _ => ?_
    · obtain ⟨hc₂, hlt'⟩ := hc₁.next (by simp [hcomma])
      exact settles_bind (ih hc₂ (by omega)) fun _ _ _ => settles_pure _
    · exact settles_expectMark hc₁ fun _ => settles_pure _

theorem settles_interfaceBlock {quals : Qualifiers} (hc : c.Within tokens)
    (hn : 32 * c.rest.length + 1 ≤ n) : Settles tokens (interfaceBlock n quals) c := by
  unfold interfaceBlock
  refine settles_name hc fun x hkind => ?_
  obtain ⟨hc₁, hlt⟩ := hc.next (by simp [hkind])
  refine settles_expectMark hc₁ fun hopen => ?_
  obtain ⟨hc₂, hlt'⟩ := hc₁.next (by simp [hopen])
  refine settles_bind ((typesSettle tokens n).memberLines hc₂ (by omega))
    fun members c₃ hmembers => ?_
  obtain ⟨hc₃, hlt''⟩ :=
    hc₂.advances ((typeLayouts True n).memberLines (fun _ => hc₂.ended) hmembers)
  rw [settles_atIdentifier]
  split
  · refine settles_name hc₃ fun y hy => ?_
    obtain ⟨hc₄, hlt'''⟩ := hc₃.next (by simp [hy])
    refine settles_bind ((expressionsSettle tokens n).arraySuffix hc₄ (by omega))
      fun array c₅ harray => ?_
    obtain ⟨hc₅, -⟩ := hc₄.lays (lays_arraySuffix (fun _ => hc₄.ended) harray)
    rw [settles_spanFrom]
    exact settles_expectMark hc₅ fun _ => settles_pure _
  · exact settles_expectMark hc₃ fun _ => settles_pure _

theorem settles_head (hc : c.Within tokens) (hn : 32 * c.rest.length + 1 ≤ n) :
    Settles tokens (head n) c := by
  unfold head
  rw [settles_here]
  refine settles_accept _ (fun hkind => ?_) fun _ => ?_
  · obtain ⟨hc₁, hlt⟩ := hc.next (by simp [hkind])
    simp only [if_true, settles_kind]
    cases hprecision : precision? c.next.kind with
    | some p =>
      have hword : c.next.kind ≠ .eof := fun heof => by simp [heof, precision?] at hprecision
      obtain ⟨hc₂, hlt'⟩ := hc₁.next hword
      simp only [settles_advance]
      refine settles_bind ((typesSettle tokens n).typeSpec hc₂ (by omega)) fun spec c₃ hspec => ?_
      obtain ⟨hc₃, -⟩ := hc₂.advances ((typeLayouts True n).typeSpec (fun _ => hc₂.ended) hspec)
      exact settles_expectMark hc₃ fun _ => settles_pure _
    | none =>
      rw [settles_here]
      exact settles_throw (by simp) hc₁.token_mem rfl
  · simp only [Bool.false_eq_true, if_false]
    rw [settles_atInvariantList]
    split
    · rename_i hlist
      simp only [Bool.and_eq_true, decide_eq_true_eq] at hlist
      obtain ⟨hc₁, hlt⟩ := hc.next (by simp [hlist.1.1])
      rw [settles_advance]
      exact settles_bind (settles_invariantTargets hc₁ (by omega)) fun _ _ _ => settles_pure _
    · refine settles_bind (settles_qualifiers hc hn) fun quals c₁ hquals => ?_
      obtain ⟨⟨os, hlays⟩, -⟩ := lays_qualifiers (fun _ => hc.ended) hquals
      obtain ⟨hc₁, hle⟩ := hc.lays hlays
      rw [settles_get]
      split
      · exact settles_bind (settles_interfaceBlock hc₁ (by omega)) fun _ _ _ => settles_pure _
      · refine settles_bind ((typesSettle tokens n).typeSpec hc₁ (by omega)) fun spec c₂ hspec => ?_
        obtain ⟨hc₂, hlt⟩ := hc₁.advances ((typeLayouts True n).typeSpec (fun _ => hc₁.ended) hspec)
        refine settles_acceptMark (fun _ => settles_pure _) fun _ => ?_
        simp only [Bool.false_eq_true, if_false]
        refine settles_name hc₂ fun x hx => ?_
        obtain ⟨hc₃, hlt'⟩ := hc₂.next (by simp [hx])
        dsimp only
        rw [settles_atMark]
        split
        · exact settles_pure _
        · refine settles_bind (settles_declarator hc₃ (by omega)) fun d c₄ hd => ?_
          obtain ⟨hc₄, hlt''⟩ := hc₂.advances (advances_declarator (fun _ => hc₂.ended) hx hd)
          exact settles_bind (settles_moreDeclarators hc₄ (by omega)) fun _ _ _ => settles_pure _

theorem settles_localDeclaration (hc : c.Within tokens) (hn : 32 * c.rest.length + 1 ≤ n) :
    Settles tokens (localDeclaration n) c := by
  unfold localDeclaration
  refine settles_bind (settles_head hc hn) fun r c₁ hr => ?_
  cases r with
  | declaration d => exact settles_pure _
  | function quals spec x nameSpan =>
    -- The complaint is about the name, which is the last token that was taken.
    obtain ⟨⟨ts, hne, hts, -⟩, hplaced⟩ := advances_head (fun _ : True => hc.ended) hr
    have hmem : ts.getLast hne ∈ tokens :=
      hc.suffix.subset ((hc.ended.takes hts).2 ▸ List.mem_append_left _ (List.getLast_mem hne))
    exact settles_throw (by simp) hmem ((hplaced trivial).trans (hc.ended.before hts hne))

end Declarations

section Statements

variable {tokens : List Token} {n : Nat} {c : Cursor}

theorem settles_simpleStatement (hc : c.Within tokens) (hn : 32 * c.rest.length + 18 ≤ n) :
    Settles tokens (simpleStatement n) c := by
  unfold simpleStatement
  rw [settles_get]
  split
  · exact settles_bind (settles_localDeclaration hc (by omega)) fun _ _ _ => settles_pure _
  · unfold expressionStatement
    rw [settles_here]
    refine settles_bind ((expressionsSettle tokens n).expression hc hn) fun e c₁ he => ?_
    obtain ⟨hc₁, -⟩ := hc.advances (advances_expression (fun _ => hc.ended) he)
    exact settles_expectMark hc₁ fun _ => settles_pure _

theorem settles_enclosed {α : Type} {f : Expr → Parser α} (hc : c.Within tokens)
    (hn : 32 * c.rest.length ≤ n)
    (hf : ∀ e c', c'.Within tokens → c'.rest.length < c.rest.length → Settles tokens (f e) c') :
    Settles tokens (enclosed n >>= f) c := by
  refine settles_bind ?_ fun e c' he => ?_
  · unfold enclosed
    refine settles_expectMark hc fun hopen => ?_
    obtain ⟨hc₁, hlt⟩ := hc.next (by simp [hopen])
    refine settles_bind ((expressionsSettle tokens n).expression hc₁ (by omega)) fun e c₂ he => ?_
    obtain ⟨hc₂, -⟩ := hc₁.advances (advances_expression (fun _ => hc₁.ended) he)
    exact settles_expectMark hc₂ fun _ => settles_pure _
  · obtain ⟨hc', hlt⟩ := hc.advances (advances_enclosed (fun _ => hc.ended) he)
    exact hf e c' hc' hlt

theorem settles_expressionBefore {α : Type} {stop : Mark} {f : Option Expr → Parser α}
    (hc : c.Within tokens) (hn : 32 * c.rest.length + 18 ≤ n)
    (hf : ∀ e c', c'.Within tokens → c'.rest.length ≤ c.rest.length → Settles tokens (f e) c') :
    Settles tokens (expressionBefore? n stop >>= f) c := by
  refine settles_bind ?_ fun e c' he => ?_
  · unfold expressionBefore?
    rw [settles_atMark]
    split
    · exact settles_pure _
    · exact settles_map ((expressionsSettle tokens n).expression hc hn)
  · obtain ⟨hc', hle⟩ := hc.lays (lays_expressionBefore (fun _ => hc.ended) he)
    exact hf e c' hc' hle

/-- With enough fuel the parsers of statements finish. -/
structure StatementsSettle (tokens : List Token) (n : Nat) : Prop where
  statement {c : Cursor} : c.Within tokens → 32 * c.rest.length + 19 ≤ n →
    Settles tokens (statement n) c
  block {c : Cursor} : c.Within tokens → 32 * c.rest.length + 1 ≤ n → Settles tokens (block n) c
  statements {c : Cursor} : c.Within tokens → 32 * c.rest.length + 20 ≤ n →
    Settles tokens (statements n) c

theorem StatementsSettle.body {α : Type} (ih : StatementsSettle tokens n) {f : Stmt → Parser α}
    (hc : c.Within tokens) (hn : 32 * c.rest.length + 19 ≤ n)
    (hf : ∀ s c', c'.Within tokens → c'.rest.length < c.rest.length → Settles tokens (f s) c') :
    Settles tokens (Parse.statement n >>= f) c := by
  refine settles_bind (ih.statement hc hn) fun s c' hs => ?_
  obtain ⟨hc', hlt⟩ := hc.advances ((statementLayouts True n).statement (fun _ => hc.ended) hs)
  exact hf s c' hc' hlt

theorem StatementsSettle.block_step (ih : StatementsSettle tokens n) (hc : c.Within tokens)
    (hn : 32 * c.rest.length + 1 ≤ n + 1) : Settles tokens (Parse.block (n + 1)) c := by
  unfold Parse.block
  rw [settles_here]
  refine settles_expectMark hc fun hopen => ?_
  obtain ⟨hc₁, hlt⟩ := hc.next (by simp [hopen])
  exact settles_bind (ih.statements hc₁ (by omega)) fun _ _ _ => settles_pure _

theorem StatementsSettle.statements_step (ih : StatementsSettle tokens n) (hc : c.Within tokens)
    (hn : 32 * c.rest.length + 20 ≤ n + 1) : Settles tokens (Parse.statements (n + 1)) c := by
  unfold Parse.statements
  rw [settles_kind]
  split
  · exact settles_expectMark hc fun _ => settles_pure _
  · refine ih.body hc (by omega) fun s c₁ hc₁ hlt => ?_
    exact settles_bind (ih.statements hc₁ (by omega)) fun _ _ _ => settles_pure _

theorem StatementsSettle.forRest (ih : StatementsSettle tokens n) (hc : c.Within tokens)
    (hn : 32 * c.rest.length + 18 ≤ n) (init? : Option Stmt) (start : Span) :
    Settles tokens (Parse.forRest n init? start) c := by
  unfold Parse.forRest
  refine settles_expressionBefore hc hn fun e c₁ hc₁ hle => ?_
  refine settles_expectMark hc₁ fun hsemi => ?_
  obtain ⟨hc₂, hlt⟩ := hc₁.next (by simp [hsemi])
  refine settles_expressionBefore hc₂ (by omega) fun u c₃ hc₃ hle' => ?_
  refine settles_expectMark hc₃ fun hclose => ?_
  obtain ⟨hc₄, hlt'⟩ := hc₃.next (by simp [hclose])
  exact ih.body hc₄ (by omega) fun _ _ _ _ => settles_pure _

theorem StatementsSettle.statement_step (ih : StatementsSettle tokens n) (hc : c.Within tokens)
    (hn : 32 * c.rest.length + 19 ≤ n + 1) : Settles tokens (Parse.statement (n + 1)) c := by
  have simple : Settles tokens (simpleStatement n) c := settles_simpleStatement hc (by omega)
  unfold Parse.statement
  rw [settles_here, settles_kind]
  cases hkind : c.kind with
  | mark m =>
    cases m with
    | lBrace => exact settles_bind (ih.block hc (by omega)) fun _ _ _ => settles_pure _
    | semi => exact settles_pure _
    | _ => exact simple
  | keyword k =>
    obtain ⟨hc₁, hlt⟩ := hc.next (by simp [hkind])
    cases k with
    | ifWord =>
      simp only [settles_advance]
      refine settles_enclosed hc₁ (by omega) fun e c₂ hc₂ hlt' => ?_
      refine ih.body hc₂ (by omega) fun s c₃ hc₃ hlt'' => ?_
      refine settles_accept _ (fun helse => ?_) fun _ => settles_pure _
      obtain ⟨hc₄, hlt'''⟩ := hc₃.next (by simp [helse])
      exact ih.body hc₄ (by omega) fun _ _ _ _ => settles_pure _
    | switchWord =>
      simp only [settles_advance]
      refine settles_enclosed hc₁ (by omega) fun e c₂ hc₂ hlt' => ?_
      exact settles_bind (ih.block hc₂ (by omega)) fun _ _ _ => settles_pure _
    | caseWord =>
      simp only [settles_advance]
      refine settles_bind ((expressionsSettle tokens n).expression hc₁ (by omega)) fun e c₂ he => ?_
      obtain ⟨hc₂, -⟩ := hc₁.advances (advances_expression (fun _ => hc₁.ended) he)
      exact settles_expectMark hc₂ fun _ => settles_pure _
    | defaultWord | continueWord | breakWord | discardWord =>
      simp only [settles_advance]
      exact settles_expectMark hc₁ fun _ => settles_pure _
    | whileWord =>
      simp only [settles_advance]
      refine settles_enclosed hc₁ (by omega) fun e c₂ hc₂ hlt' => ?_
      exact ih.body hc₂ (by omega) fun _ _ _ _ => settles_pure _
    | doWord =>
      simp only [settles_advance]
      refine ih.body hc₁ (by omega) fun s c₂ hc₂ hlt' => ?_
      refine settles_expect hc₂ _ fun hwhile => ?_
      obtain ⟨hc₃, hlt''⟩ := hc₂.next (by simp [hwhile])
      refine settles_enclosed hc₃ (by omega) fun e c₄ hc₄ _ => ?_
      exact settles_expectMark hc₄ fun _ => settles_pure _
    | forWord =>
      simp only [settles_advance]
      refine settles_expectMark hc₁ fun hopen => ?_
      obtain ⟨hc₂, hlt'⟩ := hc₁.next (by simp [hopen])
      refine settles_acceptMark (fun hsemi => ?_) fun _ => ?_
      · obtain ⟨hc₃, hlt''⟩ := hc₂.next (by simp [hsemi])
        simp only [if_true, pure_bind]
        exact ih.forRest hc₃ (by omega) none c.token.span
      · simp only [Bool.false_eq_true, if_false, bind_map_left]
        refine settles_bind (settles_simpleStatement hc₂ (by omega)) fun init c₃ hinit => ?_
        obtain ⟨hc₃, hlt''⟩ := hc₂.advances (advances_simpleStatement (fun _ => hc₂.ended) hinit)
        exact ih.forRest hc₃ (by omega) (some init) c.token.span
    | returnWord =>
      simp only [settles_advance]
      refine settles_expressionBefore hc₁ (by omega) fun e c₂ hc₂ _ => ?_
      exact settles_expectMark hc₂ fun _ => settles_pure _
    | _ => exact simple
  | _ => exact simple

theorem statementsSettle (tokens : List Token) (n : Nat) : StatementsSettle tokens n := by
  induction n with
  | zero => constructor <;> intros <;> omega
  | succ n ih => exact ⟨ih.statement_step, ih.block_step, ih.statements_step⟩

end Statements

section Functions

variable {tokens : List Token} {n : Nat} {c : Cursor}

theorem settles_parameter (hc : c.Within tokens) (hn : 32 * c.rest.length + 1 ≤ n) :
    Settles tokens (parameter n) c := by
  unfold parameter
  rw [settles_here]
  refine settles_bind (settles_qualifiers hc hn) fun quals c₁ hquals => ?_
  obtain ⟨⟨os, hlays⟩, -⟩ := lays_qualifiers (fun _ => hc.ended) hquals
  obtain ⟨hc₁, hle⟩ := hc.lays hlays
  refine settles_bind ((typesSettle tokens n).typeSpec hc₁ (by omega)) fun spec c₂ hspec => ?_
  obtain ⟨hc₂, hlt⟩ := hc₁.advances ((typeLayouts True n).typeSpec (fun _ => hc₁.ended) hspec)
  rw [settles_atIdentifier]
  split
  · refine settles_name hc₂ fun x hx => ?_
    obtain ⟨hc₃, hlt'⟩ := hc₂.next (by simp [hx])
    exact settles_bind ((expressionsSettle tokens n).arraySuffix hc₃ (by omega))
      fun _ _ _ => settles_pure _
  · exact settles_pure _

theorem settles_parameters (hc : c.Within tokens) (hn : 32 * c.rest.length + 2 ≤ n) :
    Settles tokens (parameters n) c := by
  induction n generalizing c with
  | zero => omega
  | succ n ih =>
    unfold parameters
    refine settles_bind (settles_parameter hc (by omega)) fun p c₁ hp => ?_
    obtain ⟨hc₁, hlt⟩ := hc.advances (advances_parameter (fun _ => hc.ended) hp)
    refine settles_acceptMark (fun hcomma => ?_) fun _ => settles_pure _
    obtain ⟨hc₂, hlt'⟩ := hc₁.next (by simp [hcomma])
    exact settles_bind (ih hc₂ (by omega)) fun _ _ _ => settles_pure _

section Function

variable {quals : Qualifiers} {spec : TypeSpec} {x : String} {start : Span}

theorem settles_functionBody (hc : c.Within tokens) (hn : 32 * c.rest.length ≤ n)
    (params : List ParamDecl) :
    Settles tokens (functionBody n quals spec x params start) c := by
  unfold functionBody
  refine settles_expectMark hc fun hclose => ?_
  obtain ⟨hc₁, hlt⟩ := hc.next (by simp [hclose])
  refine settles_acceptMark (fun _ => settles_pure _) fun _ => ?_
  simp only [Bool.false_eq_true, if_false, bind_map_left]
  exact settles_bind ((statementsSettle tokens n).block hc₁ (by omega)) fun _ _ _ => settles_pure _

theorem settles_functionRest (hc : c.Within tokens) (hn : 32 * c.rest.length ≤ n) :
    Settles tokens (functionRest n quals spec x start) c := by
  unfold functionRest
  refine settles_expectMark hc fun hopen => ?_
  obtain ⟨hc₁, hlt⟩ := hc.next (by simp [hopen])
  rw [settles_atVoidList]
  split
  · rename_i hvoid
    simp only [Bool.and_eq_true, decide_eq_true_eq] at hvoid
    obtain ⟨hc₂, hlt'⟩ := hc₁.next (by simp [hvoid.1])
    exact settles_functionBody hc₂ (by omega) []
  · simp only [settles_atMark]
    split
    · exact settles_functionBody hc₁ (by omega) []
    · refine settles_bind (settles_parameters hc₁ (by omega)) fun params c₂ hparams => ?_
      obtain ⟨hc₂, hlt'⟩ := hc₁.advances (advances_parameters (fun _ => hc₁.ended) hparams)
      exact settles_functionBody hc₂ (by omega) params

end Function

theorem settles_topLevel (hc : c.Within tokens) (hn : 32 * c.rest.length + 1 ≤ n) :
    Settles tokens (topLevel n) c := by
  unfold topLevel
  rw [settles_here]
  refine settles_bind (settles_head hc hn) fun r c₁ hr => ?_
  obtain ⟨hc₁, hlt⟩ := hc.advances (advances_head (fun _ => hc.ended) hr).1
  cases r with
  | declaration d => exact settles_pure _
  | function quals spec x nameSpan =>
    exact settles_bind (settles_functionRest hc₁ (by omega)) fun _ _ _ => settles_pure _

theorem settles_topLevels (hc : c.Within tokens) (hn : 32 * c.rest.length + 2 ≤ n) :
    Settles tokens (topLevels n) c := by
  induction n generalizing c with
  | zero => omega
  | succ n ih =>
    unfold topLevels
    rw [settles_isAt]
    split
    · exact settles_pure _
    · refine settles_bind (settles_topLevel hc (by omega)) fun d c₁ hd => ?_
      obtain ⟨hc₁, hlt⟩ := hc.advances (advances_topLevel (fun _ => hc.ended) hd)
      exact settles_bind (ih hc₁ (by omega)) fun _ _ _ => settles_pure _

end Functions

end Parse

end Shader
