import Shader.Parse.Expr
import Shader.Proofs.Token
import Shader.Proofs.Tree

/-! Trees as they come from the parser: no node has a type, no name is resolved, and structs are
named by words that no basic type goes by. -/

namespace Shader

/-- Nothing is recorded at the node itself. -/
def Expr.Bare (e : Expr) : Prop :=
  e.ty = none ∧
    match e with
    | .var _ binding _ => binding = none
    | .call _ _ _ target _ => target = .unresolved
    | _ => True

def Part.Bare : Part → Prop
  | .node e => e.Bare
  | .binding _ => False
  | .tag x => IsTag x

def Cursor.IsScanned (c : Cursor) : Prop :=
  c.token.kind.IsScanned ∧ ∀ t ∈ c.rest, t.kind.IsScanned

theorem Cursor.IsScanned.next {c : Cursor} (hc : c.IsScanned) : c.next.IsScanned := by
  unfold Cursor.next
  split
  · exact hc
  · rename_i t ts hrest
    have hall := hc.2
    rw [hrest] at hall
    exact ⟨hall t (by simp), fun u hu => hall u (by simp [hu])⟩

namespace Parse

/-- Where the parser succeeds on tokens of a source, it leaves such tokens, and what it returns has
the property. -/
def Gives {α : Type} (x : Parser α) (Q : α → Prop) : Prop :=
  ∀ c, c.IsScanned → ∀ a c', x c = .ok (a, c') → c'.IsScanned ∧ Q a

section Gives

variable {α β : Type} {x : Parser α} {P Q : α → Prop}

theorem Gives.pure {a : α} (h : Q a) : Gives (pure a) Q := by
  intro c hc b c' heq
  obtain ⟨rfl, rfl⟩ : a = b ∧ c = c' := by simpa using Except.ok.inj heq
  exact ⟨hc, h⟩

theorem Gives.bind {f : α → Parser β} {R : β → Prop} (hx : Gives x P)
    (hf : ∀ a, P a → Gives (f a) R) : Gives (x >>= f) R := by
  intro c hc b c' heq
  change (x c >>= fun r => f r.1 r.2) = .ok (b, c') at heq
  cases hxc : x c with
  | error e =>
    rw [hxc] at heq
    cases heq
  | ok r =>
    rw [hxc] at heq
    obtain ⟨hd, ha⟩ := hx c hc r.1 r.2 hxc
    exact hf r.1 ha r.2 hd b c' heq

theorem Gives.map {f : α → β} {R : β → Prop} (hx : Gives x P) (hf : ∀ a, P a → R (f a)) :
    Gives (f <$> x) R := by
  rw [map_eq_pure_bind]
  exact hx.bind fun a ha => .pure (hf a ha)

theorem Gives.ite {b : Prop} [Decidable b] {y : Parser α} (hx : Gives x Q) (hy : Gives y Q) :
    Gives (if b then x else y) Q := by
  split
  · exact hx
  · exact hy

theorem Gives.throw {e : ParseError} : Gives (throw e : Parser α) Q := by
  intro c _ a c' heq
  cases heq

end Gives

theorem gives_get : Gives get Cursor.IsScanned := by
  intro c hc a c' heq
  obtain ⟨rfl, rfl⟩ : c = a ∧ c = c' := by simpa using Except.ok.inj heq
  exact ⟨hc, hc⟩

theorem gives_advance : Gives advance fun _ => True := by
  intro c hc a c' heq
  obtain rfl : c.next = c' := by simpa using Except.ok.inj heq
  exact ⟨hc.next, trivial⟩

theorem gives_unfinished {α : Type} {Q : α → Prop} : Gives unfinished Q :=
  gives_get.bind fun _ _ => .throw

theorem gives_expected {α : Type} {Q : α → Prop} (what : Expectation) : Gives (expected what) Q :=
  gives_get.bind fun _ _ => .throw

theorem gives_kind : Gives kind TokenKind.IsScanned :=
  gives_get.bind fun _ hc => .pure hc.1

theorem gives_here : Gives here fun _ => True :=
  gives_get.bind fun _ _ => .pure trivial

theorem gives_spanFrom (start : Span) : Gives (spanFrom start) fun _ => True :=
  gives_get.bind fun _ _ => .pure trivial

theorem gives_isAt (what : TokenKind) : Gives (isAt what) fun _ => True :=
  gives_get.bind fun _ _ => .pure trivial

theorem gives_atIdentifier : Gives atIdentifier fun _ => True :=
  gives_get.bind fun _ _ => .pure trivial

theorem gives_accept (what : TokenKind) : Gives (accept what) fun _ => True :=
  (gives_isAt what).bind fun _ _ =>
    .ite (gives_advance.bind fun _ _ => .pure trivial) (.pure trivial)

theorem gives_expect (what : TokenKind) : Gives (expect what) fun _ => True :=
  (gives_isAt what).bind fun _ _ => .ite gives_advance (gives_expected _)

theorem gives_name : Gives name fun p => IsTag p.1 := by
  refine gives_kind.bind fun k hk => ?_
  split
  · split
    · exact gives_expected _
    · rename_i hfresh
      refine gives_here.bind fun _ _ => gives_advance.bind fun _ _ => .pure ⟨hk, ?_⟩
      simpa using hfresh
  · exact gives_expected _

theorem gives_atVoidList : Gives atVoidList fun _ => True :=
  gives_get.bind fun _ _ => .pure trivial

/-- Nothing is recorded in the tree. -/
def Plain (e : Expr) : Prop :=
  Part.All Part.Bare e.parts

def PlainSuffix (s : Option (ArraySuffix Expr)) : Prop :=
  Part.All Part.Bare (suffixParts s)

theorem plain_node {e : Expr} {ps : List Part} (hparts : e.parts = .node e :: ps) (he : e.Bare)
    (hps : Part.All Part.Bare ps) : Plain e := by
  rw [Plain, hparts, Part.all_cons]
  exact ⟨he, hps⟩

theorem plain_withSpan {e : Expr} (h : Plain e) (span : Span) : Plain (e.withSpan span) := by
  cases e <;> simpa [Plain, Expr.withSpan, Expr.mapNote, Expr.parts, Part.Bare, Expr.Bare, Expr.ty,
    Expr.note] using h

mutual

theorem gives_expression : ∀ n, Gives (expression n) Plain
  | 0 => by
    unfold expression
    exact gives_unfinished
  | n + 1 => by
    unfold expression
    exact (gives_assignment n).bind fun l hl => gives_commaTail n l hl

theorem gives_commaTail : ∀ n l, Plain l → Gives (commaTail n l) Plain
  | 0, _, _ => by
    unfold commaTail
    exact gives_unfinished
  | n + 1, l, hl => by
    unfold commaTail
    refine (gives_accept _).bind fun _ _ => .ite ?_ (.pure hl)
    refine (gives_assignment n).bind fun r hr => gives_commaTail n _ ?_
    exact plain_node rfl ⟨rfl, trivial⟩ (Part.all_append.mpr ⟨hl, hr⟩)

theorem gives_assignment : ∀ n, Gives (assignment n) Plain
  | 0 => by
    unfold assignment
    exact gives_unfinished
  | n + 1 => by
    unfold assignment
    refine (gives_conditional n).bind fun t ht => gives_kind.bind fun k _ => ?_
    split
    · refine gives_advance.bind fun _ _ => (gives_assignment n).bind fun v hv => .pure ?_
      exact plain_node rfl ⟨rfl, trivial⟩ (Part.all_append.mpr ⟨ht, hv⟩)
    · exact .pure ht

theorem gives_conditional : ∀ n, Gives (conditional n) Plain
  | 0 => by
    unfold conditional
    exact gives_unfinished
  | n + 1 => by
    unfold conditional
    refine (gives_binary n 0).bind fun c hc => (gives_accept _).bind fun _ _ => .ite ?_ (.pure hc)
    refine (gives_expression n).bind fun t ht => (gives_expect _).bind fun _ _ => ?_
    refine (gives_assignment n).bind fun e he => .pure ?_
    exact plain_node rfl ⟨rfl, trivial⟩
      (Part.all_append.mpr ⟨Part.all_append.mpr ⟨hc, ht⟩, he⟩)

theorem gives_binary : ∀ n level, Gives (binary n level) Plain
  | 0, _ => by
    unfold binary
    exact gives_unfinished
  | n + 1, level => by
    unfold binary
    refine .ite (gives_unary n) ?_
    exact (gives_binary n (level + 1)).bind fun l hl => gives_binaryTail n level l hl

theorem gives_binaryTail : ∀ n level l, Plain l → Gives (binaryTail n level l) Plain
  | 0, _, _, _ => by
    unfold binaryTail
    exact gives_unfinished
  | n + 1, level, l, hl => by
    unfold binaryTail
    refine gives_kind.bind fun k _ => ?_
    split
    · refine gives_advance.bind fun _ _ => (gives_binary n (level + 1)).bind fun r hr => ?_
      refine gives_binaryTail n level _ ?_
      exact plain_node rfl ⟨rfl, trivial⟩ (Part.all_append.mpr ⟨hl, hr⟩)
    · exact .pure hl

theorem gives_unary : ∀ n, Gives (unary n) Plain
  | 0 => by
    unfold unary
    exact gives_unfinished
  | n + 1 => by
    unfold unary
    refine gives_here.bind fun _ _ => gives_kind.bind fun k _ => ?_
    split
    · refine gives_advance.bind fun _ _ => (gives_unary n).bind fun e he => .pure ?_
      exact plain_node rfl ⟨rfl, trivial⟩ he
    · refine gives_advance.bind fun _ _ => (gives_unary n).bind fun e he => .pure ?_
      exact plain_node rfl ⟨rfl, trivial⟩ he
    · exact (gives_primary n).bind fun e he => gives_accesses n e he

theorem gives_accesses : ∀ n e, Plain e → Gives (accesses n e) Plain
  | 0, _, _ => by
    unfold accesses
    exact gives_unfinished
  | n + 1, e, he => by
    unfold accesses
    refine gives_kind.bind fun k _ => .ite ?_ (.ite ?_ ?_)
    · refine gives_advance.bind fun _ _ => (gives_expression n).bind fun i hi => ?_
      refine (gives_expect _).bind fun _ _ => (gives_spanFrom _).bind fun _ _ => ?_
      exact gives_accesses n _ (plain_node rfl ⟨rfl, trivial⟩ (Part.all_append.mpr ⟨he, hi⟩))
    · refine gives_advance.bind fun _ _ => gives_kind.bind fun k _ => ?_
      split
      · refine gives_advance.bind fun _ _ => gives_get.bind fun c _ => .ite ?_ ?_
        · refine gives_advance.bind fun _ _ => gives_advance.bind fun _ _ => ?_
          refine (gives_spanFrom _).bind fun _ _ => gives_accesses n _ ?_
          exact plain_node rfl ⟨rfl, trivial⟩ he
        · refine (gives_spanFrom _).bind fun _ _ => gives_accesses n _ ?_
          exact plain_node rfl ⟨rfl, trivial⟩ he
      · exact gives_expected _
    · split
      · refine gives_advance.bind fun _ _ => (gives_spanFrom _).bind fun _ _ => ?_
        exact gives_accesses n _ (plain_node rfl ⟨rfl, trivial⟩ he)
      · exact .pure he

theorem gives_primary : ∀ n, Gives (primary n) Plain
  | 0 => by
    unfold primary
    exact gives_unfinished
  | n + 1 => by
    unfold primary
    refine gives_here.bind fun start _ => gives_kind.bind fun k _ => ?_
    split
    · exact gives_advance.bind fun _ _ => .pure (plain_node rfl ⟨rfl, trivial⟩ Part.all_nil)
    · exact gives_advance.bind fun _ _ => .pure (plain_node rfl ⟨rfl, trivial⟩ Part.all_nil)
    · exact gives_advance.bind fun _ _ => .pure (plain_node rfl ⟨rfl, trivial⟩ Part.all_nil)
    · exact gives_advance.bind fun _ _ => .pure (plain_node rfl ⟨rfl, trivial⟩ Part.all_nil)
    · refine gives_advance.bind fun _ _ => (gives_expression n).bind fun e he => ?_
      refine (gives_expect _).bind fun _ _ => (gives_spanFrom _).bind fun span _ => .pure ?_
      exact plain_withSpan he span
    · refine gives_get.bind fun c _ => .ite (gives_call n _ start) ?_
      exact gives_advance.bind fun _ _ => .pure (plain_node rfl ⟨rfl, rfl⟩ Part.all_nil)
    · exact gives_expected _

theorem gives_call : ∀ n x start, Gives (call n x start) Plain
  | 0, _, _ => by
    unfold call
    exact gives_unfinished
  | n + 1, x, start => by
    unfold call
    refine gives_advance.bind fun _ _ => (gives_arraySuffix n).bind fun suffix hsuffix => ?_
    refine (gives_spanFrom _).bind fun _ _ => (gives_expect _).bind fun _ _ => ?_
    refine gives_atVoidList.bind fun _ _ => .ite ?_ ?_
    · refine gives_advance.bind fun _ _ => (gives_expect _).bind fun _ _ => ?_
      refine (gives_spanFrom _).bind fun _ _ => .pure ?_
      exact plain_node rfl ⟨rfl, rfl⟩ (Part.all_append.mpr ⟨hsuffix, Part.all_nil⟩)
    · refine (gives_isAt _).bind fun _ _ => ?_
      refine .ite (.bind (.pure (by simp)) ?rest) (.bind (gives_arguments n) ?rest)
      intro args hargs
      refine (gives_expect _).bind fun _ _ => (gives_spanFrom _).bind fun _ _ => .pure ?_
      exact plain_node rfl ⟨rfl, rfl⟩
        (Part.all_append.mpr ⟨hsuffix, Expr.all_allParts.mpr hargs⟩)

theorem gives_arguments : ∀ n, Gives (arguments n) fun es => ∀ e ∈ es, Plain e
  | 0 => by
    unfold arguments
    exact gives_unfinished
  | n + 1 => by
    unfold arguments
    refine (gives_assignment n).bind fun e he => (gives_accept _).bind fun _ _ => .ite ?_ ?_
    · refine (gives_arguments n).bind fun es hes => .pure ?_
      simpa using ⟨he, hes⟩
    · exact .pure (by simpa using he)

theorem gives_arraySuffix : ∀ n, Gives (arraySuffix? n) PlainSuffix
  | 0 => by
    unfold arraySuffix?
    exact gives_unfinished
  | n + 1 => by
    unfold arraySuffix?
    refine gives_here.bind fun _ _ => (gives_accept _).bind fun _ _ => .ite ?_ (.pure Part.all_nil)
    refine (gives_isAt _).bind fun _ _ => ?_
    refine .ite (.bind (P := fun e => ∀ a ∈ e, Plain a) (.pure (by simp)) ?close)
      (.bind (.map (gives_conditional n) fun a ha b hb => Option.some.inj hb ▸ ha) ?close)
    intro size hsize
    refine (gives_expect _).bind fun _ _ => (gives_spanFrom _).bind fun _ _ => .pure ?_
    cases size with
    | none => exact Part.all_nil
    | some e => exact hsize e rfl

end

end Parse

end Shader
