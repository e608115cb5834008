import Shader.Parse.Expr

/-! Parsers that succeed. Only the kinds of the tokens decide, so what a parser reads is stated on
the kinds in front of it and behind it. -/

namespace Shader

def Cursor.tokens (c : Cursor) : List Token :=
  c.token :: c.rest

def Cursor.kinds (c : Cursor) : List TokenKind :=
  c.kind :: c.rest.map Token.kind

namespace Cursor

variable {c : Cursor} {k l : TokenKind} {ks : List TokenKind}

theorem kind_eq (h : c.kinds = k :: ks) : c.kind = k :=
  (List.cons.inj h).1

theorem kinds_next (h : c.kinds = k :: l :: ks) : c.next.kinds = l :: ks := by
  have hrest := (List.cons.inj h).2
  unfold next
  split
  · rename_i hnil
    simp [hnil] at hrest
  · rename_i t ts hcons
    simpa [kinds, Cursor.kind, hcons] using hrest

theorem nextKind_eq (h : c.kinds = k :: l :: ks) : c.nextKind = l :=
  kind_eq (kinds_next h)

theorem tokens_next (c : Cursor) : c.next.tokens <:+ c.tokens := by
  unfold next
  split
  · exact List.suffix_refl _
  · rename_i t ts hrest
    have htokens : c.tokens = c.token :: t :: ts := congrArg (c.token :: ·) hrest
    rw [htokens]
    exact List.suffix_cons _ _

end Cursor

namespace Parse

/-- From tokens of the first kinds the parser gets on to those of the second, and what it returns
has the property. -/
def Reads {α : Type} (x : Parser α) (start stop : List TokenKind) (Q : α → Prop) : Prop :=
  ∀ c : Cursor, c.kinds = start →
    ∃ a c', x c = .ok (a, c') ∧ c'.tokens <:+ c.tokens ∧ c'.kinds = stop ∧ Q a

section Reads

variable {α β : Type} {x : Parser α} {P Q : α → Prop} {i j o ks : List TokenKind}
  {k l : TokenKind} {m : Mark}

theorem Reads.mono (h : Reads x i o P) (hpq : ∀ a, P a → Q a) : Reads x i o Q := by
  intro c hc
  obtain ⟨a, c', hx, hle, ho, ha⟩ := h c hc
  exact ⟨a, c', hx, hle, ho, hpq a ha⟩

theorem Reads.pure {a : α} (h : Q a) : Reads (pure a) i i Q :=
  fun c hc => ⟨a, c, rfl, List.suffix_refl _, hc, h⟩

theorem Reads.bind {f : α → Parser β} {R : β → Prop} (hx : Reads x i j P)
    (hf : ∀ a, P a → Reads (f a) j o R) : Reads (x >>= f) i o R := by
  intro c hc
  obtain ⟨a, c', hx, hle, hj, ha⟩ := hx c hc
  obtain ⟨b, c'', hb, hle', ho, hr⟩ := hf a ha c' hj
  refine ⟨b, c'', ?_, hle'.trans hle, ho, hr⟩
  show (x c >>= fun r => f r.1 r.2) = _
  rw [hx]
  exact hb

theorem Reads.map {f : α → β} {R : β → Prop} (hx : Reads x i o P) (hf : ∀ a, P a → R (f a)) :
    Reads (f <$> x) i o R := by
  rw [← bind_pure_comp]
  exact hx.bind fun a ha => .pure (hf a ha)

theorem reads_get : Reads (get : Parser Cursor) i i fun c => c.kinds = i :=
  fun c hc => ⟨c, c, rfl, List.suffix_refl _, hc, hc⟩

theorem reads_kind : Reads kind (k :: ks) (k :: ks) (· = k) :=
  reads_get.bind fun _ hc => .pure (Cursor.kind_eq hc)

theorem reads_here : Reads here i i fun _ => True :=
  reads_get.bind fun _ _ => .pure trivial

theorem reads_spanFrom (start : Span) : Reads (spanFrom start) i i fun _ => True :=
  reads_get.bind fun _ _ => .pure trivial

theorem reads_advance : Reads advance (k :: l :: ks) (l :: ks) fun _ => True :=
  fun c hc => ⟨(), c.next, rfl, c.tokens_next, Cursor.kinds_next hc, trivial⟩

theorem reads_isAt (what : TokenKind) :
    Reads (isAt what) (k :: ks) (k :: ks) (· = decide (k = what)) :=
  reads_get.bind fun _ hc => .pure (by rw [Cursor.kind_eq hc])

theorem reads_acceptMark :
    Reads (acceptMark m) (.mark m :: l :: ks) (l :: ks) (· = true) := by
  refine (reads_isAt _).bind fun b hb => ?_
  simp only [decide_true] at hb
  subst hb
  exact reads_advance.bind fun _ _ => .pure rfl

theorem reads_acceptMark_ne (h : k ≠ .mark m) :
    Reads (acceptMark m) (k :: ks) (k :: ks) (· = false) := by
  refine (reads_isAt _).bind fun b hb => ?_
  simp only [h, decide_false] at hb
  subst hb
  exact .pure rfl

theorem reads_expectMark : Reads (expectMark m) (.mark m :: l :: ks) (l :: ks) fun _ => True := by
  refine (reads_isAt _).bind fun b hb => ?_
  simp only [decide_true] at hb
  subst hb
  exact reads_advance

end Reads

/-- No access follows an operand here. -/
def EndsOperand (k : TokenKind) : Prop :=
  k ≠ .mark .lBracket ∧ k ≠ .mark .dot ∧ UpdateOp.ofToken? k = none

/-- The token stands behind a whole expression. -/
def Closes (k : TokenKind) : Prop :=
  k ∈ [.mark .comma, .mark .rParen, .mark .rBracket, .eof]

section Closes

variable {k : TokenKind}

theorem Closes.endsOperand (h : Closes k) : EndsOperand k := by
  unfold Closes at h
  simp only [List.mem_cons, List.not_mem_nil, or_false] at h
  rcases h with rfl | rfl | rfl | rfl <;> exact ⟨by decide, by decide, rfl⟩

theorem Closes.not_binary (h : Closes k) (level : Nat) : BinaryOp.ofToken? level k = none := by
  unfold Closes at h
  simp only [List.mem_cons, List.not_mem_nil, or_false] at h
  rcases h with rfl | rfl | rfl | rfl <;> refine List.find?_eq_none.mpr fun op _ => ?_ <;>
    cases op <;> simp [BinaryOp.mark]

theorem Closes.not_question (h : Closes k) : k ≠ .mark .question := by
  rintro rfl
  simp [Closes] at h

theorem Closes.not_assign (h : Closes k) : AssignOp.ofToken? k = none := by
  unfold Closes at h
  simp only [List.mem_cons, List.not_mem_nil, or_false] at h
  rcases h with rfl | rfl | rfl | rfl <;> rfl

end Closes

variable {i ks : List TokenKind} {k : TokenKind} {Q : Expr → Prop}

theorem reads_accesses {n : Nat} (hn : 1 ≤ n) (hk : EndsOperand k) {e : Expr} (he : Q e) :
    Reads (accesses n e) (k :: ks) (k :: ks) Q := by
  obtain ⟨n, rfl⟩ : ∃ m, n = m + 1 := ⟨n - 1, by omega⟩
  unfold accesses
  refine reads_kind.bind fun l hl => ?_
  subst hl
  rw [if_neg hk.1, if_neg hk.2.1]
  simp only [hk.2.2]
  exact .pure he

theorem reads_unary {first : TokenKind} {n : Nat} (hn : 1 ≤ n)
    (hop : UnaryOp.ofToken? first = none ∧ UpdateOp.ofToken? first = none) (hk : EndsOperand k)
    (h : Reads (primary n) (first :: i) (k :: ks) Q) :
    Reads (unary (n + 1)) (first :: i) (k :: ks) Q := by
  unfold unary
  refine reads_here.bind fun _ _ => ?_
  refine reads_kind.bind fun l hl => ?_
  subst hl
  simp only [hop.1, hop.2]
  exact h.bind fun e he => reads_accesses hn hk he

theorem reads_negation {n : Nat} {first : TokenKind}
    (h : Reads (unary n) (first :: i) ks Q) :
    Reads (unary (n + 1)) (.mark .minus :: first :: i) ks fun e =>
      ∃ d note, e = .unary .neg d note ∧ Q d := by
  unfold unary
  refine reads_here.bind fun _ _ => ?_
  refine reads_kind.bind fun l hl => ?_
  subst hl
  exact reads_advance.bind fun _ _ => h.bind fun d hd => .pure ⟨d, _, rfl, hd⟩

theorem reads_binary {N top : Nat} (hk : Closes k) (htop : top ≤ BinaryOp.levels) (hN : 0 < N)
    (h : ∀ n, N ≤ n → Reads (binary n top) i (k :: ks) Q) {level d : Nat} (hd : level + d = top) :
    ∀ n, N + d ≤ n → Reads (binary n level) i (k :: ks) Q := by
  induction d generalizing level with
  | zero =>
    obtain rfl : level = top := by omega
    exact h
  | succ d ih =>
    intro n hn
    obtain ⟨n, rfl⟩ : ∃ m, n = m + 2 := ⟨n - 2, by omega⟩
    unfold binary
    rw [if_neg (by omega)]
    refine (ih (by omega) (n + 1) (by omega)).bind fun e he => ?_
    unfold binaryTail
    refine reads_kind.bind fun l hl => ?_
    subst hl
    simp only [hk.not_binary]
    exact .pure he

theorem reads_conditional {N top : Nat} (hk : Closes k) (htop : top ≤ BinaryOp.levels)
    (hN : 0 < N) (h : ∀ n, N ≤ n → Reads (binary n top) i (k :: ks) Q) {n : Nat}
    (hn : N + top + 1 ≤ n) : Reads (conditional n) i (k :: ks) Q := by
  obtain ⟨n, rfl⟩ : ∃ m, n = m + 1 := ⟨n - 1, by omega⟩
  unfold conditional
  refine (reads_binary hk htop hN h (Nat.zero_add top) n (by omega)).bind fun e he => ?_
  refine (reads_acceptMark_ne hk.not_question).bind fun b hb => ?_
  subst hb
  exact .pure he

theorem reads_assignment {N top : Nat} (hk : Closes k) (htop : top ≤ BinaryOp.levels)
    (hN : 0 < N) (h : ∀ n, N ≤ n → Reads (binary n top) i (k :: ks) Q) {n : Nat}
    (hn : N + top + 2 ≤ n) : Reads (assignment n) i (k :: ks) Q := by
  obtain ⟨n, rfl⟩ : ∃ m, n = m + 1 := ⟨n - 1, by omega⟩
  unfold assignment
  refine (reads_conditional hk htop hN h (by omega)).bind fun e he => ?_
  refine reads_kind.bind fun l hl => ?_
  subst hl
  simp only [hk.not_assign]
  exact .pure he

theorem reads_expression {N : Nat} (hcomma : k ≠ .mark .comma)
    (h : ∀ n, N ≤ n → Reads (assignment n) i (k :: ks) Q) {n : Nat} (hn : N + 2 ≤ n) :
    Reads (expression n) i (k :: ks) Q := by
  obtain ⟨n, rfl⟩ : ∃ m, n = m + 2 := ⟨n - 2, by omega⟩
  unfold expression
  refine (h (n + 1) (by omega)).bind fun e he => ?_
  unfold commaTail
  refine (reads_acceptMark_ne hcomma).bind fun b hb => ?_
  subst hb
  exact .pure he

theorem reads_tightest {N : Nat} (h : ∀ n, N ≤ n → Reads (unary n) i (k :: ks) Q) {n : Nat}
    (hn : N + 1 ≤ n) : Reads (binary n BinaryOp.levels) i (k :: ks) Q := by
  obtain ⟨n, rfl⟩ : ∃ m, n = m + 1 := ⟨n - 1, by omega⟩
  unfold binary
  rw [if_pos rfl]
  exact h n (by omega)

theorem reads_quotient {N : Nat} {j : List TokenKind} {first : TokenKind} {P : Expr → Prop}
    (hk : Closes k) (hl : ∀ n, N ≤ n → Reads (unary n) i (.mark .slash :: first :: j) P)
    (hr : ∀ n, N ≤ n → Reads (unary n) (first :: j) (k :: ks) Q) {n : Nat} (hn : N + 4 ≤ n) :
    Reads (binary n BinaryOp.div.level) i (k :: ks) fun e =>
      ∃ l r note, e = .binary .div l r note ∧ P l ∧ Q r := by
  obtain ⟨n, rfl⟩ : ∃ m, n = m + 3 := ⟨n - 3, by omega⟩
  unfold binary
  rw [if_neg (by decide)]
  refine (reads_tightest hl (by omega)).bind fun l hleft => ?_
  unfold binaryTail
  refine reads_kind.bind fun m hm => ?_
  subst hm
  refine reads_advance.bind fun _ _ => ?_
  refine (reads_tightest hr (by omega)).bind fun r hright => ?_
  unfold binaryTail
  refine reads_kind.bind fun m hm => ?_
  subst hm
  simp only [hk.not_binary]
  exact .pure ⟨l, r, _, rfl, hleft, hright⟩

variable {l first : TokenKind} {n : Nat}

theorem reads_int (text : String) :
    Reads (primary (n + 1)) (.intLiteral text :: l :: ks) (l :: ks) fun e =>
      ∃ span, e = .int text (untyped span) := by
  unfold primary
  refine reads_here.bind fun _ _ => ?_
  refine reads_kind.bind fun m hm => ?_
  subst hm
  exact reads_advance.bind fun _ _ => .pure ⟨_, rfl⟩

theorem reads_float (text : String) :
    Reads (primary (n + 1)) (.floatLiteral text :: l :: ks) (l :: ks) fun e =>
      ∃ span, e = .float text (untyped span) := by
  unfold primary
  refine reads_here.bind fun _ _ => ?_
  refine reads_kind.bind fun m hm => ?_
  subst hm
  exact reads_advance.bind fun _ _ => .pure ⟨_, rfl⟩

theorem reads_bool (b : Bool) :
    Reads (primary (n + 1)) (.keyword (if b then .trueWord else .falseWord) :: l :: ks) (l :: ks)
      fun e => ∃ span, e = .bool b (untyped span) := by
  unfold primary
  refine reads_here.bind fun _ _ => ?_
  refine reads_kind.bind fun m hm => ?_
  subst hm
  cases b <;> exact reads_advance.bind fun _ _ => .pure ⟨_, rfl⟩

theorem reads_parenthesized
    (h : Reads (expression n) (first :: i) (.mark .rParen :: l :: ks) Q) :
    Reads (primary (n + 1)) (.mark .lParen :: first :: i) (l :: ks) fun e =>
      ∃ d span, e = d.withSpan span ∧ Q d := by
  unfold primary
  refine reads_here.bind fun _ _ => ?_
  refine reads_kind.bind fun m hm => ?_
  subst hm
  refine reads_advance.bind fun _ _ => ?_
  refine h.bind fun d hd => ?_
  refine reads_expectMark.bind fun _ _ => ?_
  exact (reads_spanFrom _).bind fun span _ => .pure ⟨d, span, rfl, hd⟩

theorem reads_noSuffix (h : k ≠ .mark .lBracket) :
    Reads (arraySuffix? (n + 1)) (k :: ks) (k :: ks) (· = none) := by
  unfold arraySuffix?
  refine reads_here.bind fun _ _ => ?_
  refine (reads_acceptMark_ne h).bind fun b hb => ?_
  subst hb
  exact .pure rfl

theorem reads_suffix (hfirst : first ≠ .mark .rBracket)
    (h : Reads (conditional n) (first :: i) (.mark .rBracket :: l :: ks) Q) :
    Reads (arraySuffix? (n + 1)) (.mark .lBracket :: first :: i) (l :: ks) fun s =>
      ∃ e span, s = some ⟨some e, span⟩ ∧ Q e := by
  unfold arraySuffix?
  refine reads_here.bind fun _ _ => ?_
  refine reads_acceptMark.bind fun b hb => ?_
  subst hb
  simp only [if_true]
  refine (reads_isAt _).bind fun b hb => ?_
  simp only [hfirst, decide_false] at hb
  subst hb
  simp only [Bool.false_eq_true, if_false]
  refine (h.map (R := fun s => ∃ e, s = some e ∧ Q e) fun e he => ⟨e, rfl, he⟩).bind ?_
  rintro _ ⟨e, rfl, he⟩
  refine reads_expectMark.bind fun _ _ => ?_
  exact (reads_spanFrom _).bind fun span _ => .pure ⟨e, span, rfl, he⟩

/-- The kinds between the parentheses of a call are nothing or a list of arguments. -/
def ReadsList (n : Nat) (start stop : List TokenKind) (A : List Expr → Prop) : Prop :=
  start = stop ∧ A [] ∨
    (∃ first i, start = first :: i ∧ first ≠ .mark .rParen ∧ first ≠ .identifier "void") ∧
      Reads (arguments n) start stop A

theorem reads_atVoidList
    (h : first = .identifier "void" → ∃ l ls, i = l :: ls ∧ l ≠ .mark .rParen) :
    Reads atVoidList (first :: i) (first :: i) (· = false) := by
  refine reads_get.bind fun c hc => .pure ?_
  by_cases hfirst : first = .identifier "void"
  · obtain ⟨l, ls, rfl, hl⟩ := h hfirst
    simp [Cursor.nextKind_eq hc, hl]
  · simp [Cursor.kind_eq hc, hfirst]

theorem reads_call_of_list {S : Option (ArraySuffix Expr) → Prop} {A : List Expr → Prop}
    {j : List TokenKind} {x : String} {start : Span}
    (hs : Reads (arraySuffix? n) (l :: i) (.mark .lParen :: first :: j) S)
    (hvoid : first = .identifier "void" → ∃ l ls, j = l :: ls ∧ l ≠ .mark .rParen)
    (hargs : Reads (if first = .mark .rParen then pure [] else arguments n) (first :: j)
      (.mark .rParen :: k :: ks) A) :
    Reads (call (n + 1) x start) (.identifier x :: l :: i) (k :: ks) fun e =>
      ∃ suffix args span last, e = .call ⟨calleeName x, span⟩ suffix args .unresolved
        (untyped last) ∧ S suffix ∧ A args := by
  unfold call
  refine reads_advance.bind fun _ _ => ?_
  refine hs.bind fun suffix hsuffix => ?_
  refine (reads_spanFrom _).bind fun span _ => ?_
  dsimp only
  refine reads_expectMark.bind fun _ _ => ?_
  refine (reads_atVoidList hvoid).bind fun b hb => ?_
  subst hb
  simp only [Bool.false_eq_true, if_false]
  refine (reads_isAt _).bind fun b hb => ?_
  subst hb
  simp only [decide_eq_true_eq]
  by_cases hfirst : first = .mark .rParen
  · rw [if_pos hfirst] at hargs ⊢
    refine hargs.bind fun args hargs => reads_expectMark.bind fun _ _ => ?_
    exact (reads_spanFrom _).bind fun last _ => .pure ⟨_, _, _, _, rfl, hsuffix, hargs⟩
  · rw [if_neg hfirst] at hargs ⊢
    refine hargs.bind fun args hargs => reads_expectMark.bind fun _ _ => ?_
    exact (reads_spanFrom _).bind fun last _ => .pure ⟨_, _, _, _, rfl, hsuffix, hargs⟩

theorem reads_call {S : Option (ArraySuffix Expr) → Prop} {A : List Expr → Prop}
    {j : List TokenKind} {x : String} {start : Span}
    (hs : Reads (arraySuffix? n) (l :: i) (.mark .lParen :: j) S)
    (hargs : ReadsList n j (.mark .rParen :: k :: ks) A) :
    Reads (call (n + 1) x start) (.identifier x :: l :: i) (k :: ks) fun e =>
      ∃ suffix args span note, e = .call ⟨calleeName x, span⟩ suffix args .unresolved note ∧
        S suffix ∧ A args := by
  refine Reads.mono (P := fun e => ∃ suffix args span last, e =
    .call ⟨calleeName x, span⟩ suffix args .unresolved (untyped last) ∧ S suffix ∧ A args) ?_ ?_
  · rcases hargs with ⟨rfl, hnil⟩ | ⟨⟨first, i, rfl, hparen, hvoid⟩, hargs⟩
    · refine reads_call_of_list hs (fun h => by simp at h) ?_
      rw [if_pos rfl]
      exact .pure hnil
    · refine reads_call_of_list hs (fun h => (hvoid h).elim) ?_
      rw [if_neg hparen]
      exact hargs
  · rintro _ ⟨suffix, args, span, last, rfl, hsuffix, hargs⟩
    exact ⟨_, _, _, _, rfl, hsuffix, hargs⟩

theorem reads_primary_call {x : String} (hstart : ∀ c : Cursor, c.kinds = .identifier x :: i →
      c.startsCall = true)
    (h : ∀ start, Reads (call n x start) (.identifier x :: i) (k :: ks) Q) :
    Reads (primary (n + 1)) (.identifier x :: i) (k :: ks) Q := by
  unfold primary
  refine reads_here.bind fun start _ => ?_
  refine reads_kind.bind fun m hm => ?_
  subst hm
  refine reads_get.bind fun c hc => ?_
  rw [if_pos (hstart c hc)]
  exact h start

theorem startsCall_lParen {c : Cursor} (h : c.kinds = k :: .mark .lParen :: ks) :
    c.startsCall = true := by
  simp [Cursor.startsCall, Cursor.nextKind_eq h]

theorem startsCall_brackets {c : Cursor} {text : String}
    (h : c.kinds = k :: .mark .lBracket :: .intLiteral text :: .mark .rBracket :: .mark .lParen ::
      ks) : c.startsCall = true := by
  obtain ⟨before, t, rest⟩ := c
  have hrest := (List.cons.inj h).2
  obtain ⟨t₁, rest, rfl, h₁, hrest⟩ := List.map_eq_cons_iff.mp hrest
  obtain ⟨t₂, rest, rfl, h₂, hrest⟩ := List.map_eq_cons_iff.mp hrest
  obtain ⟨t₃, rest, rfl, h₃, hrest⟩ := List.map_eq_cons_iff.mp hrest
  obtain ⟨t₄, rest, rfl, h₄, -⟩ := List.map_eq_cons_iff.mp hrest
  simp [Cursor.startsCall, Cursor.behindBrackets?, Cursor.afterClosing, h₁, h₂, h₃, h₄]

theorem reads_arguments_one {A : List Expr → Prop}
    (h : Reads (assignment n) i (.mark .rParen :: ks) Q) (hA : ∀ e, Q e → A [e]) :
    Reads (arguments (n + 1)) i (.mark .rParen :: ks) A := by
  unfold arguments
  refine h.bind fun e he => ?_
  refine (reads_acceptMark_ne (by decide)).bind fun b hb => ?_
  subst hb
  exact .pure (hA e he)

theorem reads_arguments_cons {A B : List Expr → Prop} {j : List TokenKind}
    (h : Reads (assignment n) i (.mark .comma :: first :: j) Q)
    (hrest : Reads (arguments n) (first :: j) ks A) (hB : ∀ e es, Q e → A es → B (e :: es)) :
    Reads (arguments (n + 1)) i ks B := by
  unfold arguments
  refine h.bind fun e he => ?_
  refine reads_acceptMark.bind fun b hb => ?_
  subst hb
  simp only [if_true]
  exact hrest.bind fun es hes => .pure (hB e es he hes)

end Parse

end Shader
