import Shader.Proofs.Parse.Expr
import Shader.Proofs.Parse.Reads

/-! Expressions written as tokens with as few parentheses as the grammar allows. A part is put into
parentheses exactly where it holds together less tightly than its place asks for. -/

namespace Shader

/-- How tightly the outermost construct of an expression holds together. The places of the grammar
are counted alike: a sequence is read at 0, an assignment at 1, a conditional at 2, the operands of
binary operators from 3 on, a prefixed operand at 14 and one with accesses behind it at 15. -/
def Expr.rank : Expr → Nat
  | .comma .. => 0
  | .assign .. => 1
  | .ternary .. => 2
  | .binary op .. => op.level + 3
  | .unary .. | .update _ true .. => 14
  | .update _ false .. | .field .. | .index .. | .length .. => 15
  | .int .. | .float .. | .bool .. | .var .. | .call .. => 16

/-- The tokens of a construct of the given rank, at a place that asks for a rank. -/
def parenthesize (place rank : Nat) (kinds : List TokenKind) : List TokenKind :=
  if rank < place then .mark .lParen :: (kinds ++ [.mark .rParen]) else kinds

def CalleeName.text : CalleeName → String
  | .basic b => b.name
  | .named x => x

mutual

/-- The tokens that write an expression. The target of an assignment is written as an operand: a
conditional there would take the assignment into its last part. -/
def Expr.printed : Expr → List TokenKind
  | .int text _ => [.intLiteral text]
  | .float text _ => [.floatLiteral text]
  | .bool b _ => [.keyword (if b then .trueWord else .falseWord)]
  | .var x _ _ => [.identifier x]
  | .unary op e _ => .mark op.mark :: parenthesize 14 e.rank e.printed
  | .update op true e _ => .mark op.mark :: parenthesize 14 e.rank e.printed
  | .update op false e _ => parenthesize 15 e.rank e.printed ++ [.mark op.mark]
  | .binary op l r _ =>
    parenthesize (op.level + 3) l.rank l.printed ++
      .mark op.mark :: parenthesize (op.level + 4) r.rank r.printed
  | .assign op t v _ =>
    parenthesize 3 t.rank t.printed ++ .mark op.mark :: parenthesize 1 v.rank v.printed
  | .ternary c t e _ =>
    parenthesize 3 c.rank c.printed ++ .mark .question ::
      (t.printed ++ .mark .colon :: parenthesize 1 e.rank e.printed)
  | .comma l r _ => l.printed ++ .mark .comma :: parenthesize 1 r.rank r.printed
  | .call callee suffix args _ _ =>
    .identifier callee.name.text ::
      (suffixPrinted suffix ++ .mark .lParen :: (argsPrinted args ++ [.mark .rParen]))
  | .field e x _ => parenthesize 15 e.rank e.printed ++ [.mark .dot, .identifier x]
  | .index a i _ =>
    parenthesize 15 a.rank a.printed ++ .mark .lBracket :: (i.printed ++ [.mark .rBracket])
  | .length e _ =>
    parenthesize 15 e.rank e.printed ++
      [.mark .dot, .identifier "length", .mark .lParen, .mark .rParen]

def argsPrinted : List Expr → List TokenKind
  | [] => []
  | e :: es => parenthesize 1 e.rank e.printed ++ morePrinted es

def morePrinted : List Expr → List TokenKind
  | [] => []
  | e :: es => .mark .comma :: (parenthesize 1 e.rank e.printed ++ morePrinted es)

def suffixPrinted : Option (ArraySuffix Expr) → List TokenKind
  | none => []
  | some ⟨none, _⟩ => [.mark .lBracket, .mark .rBracket]
  | some ⟨some e, _⟩ =>
    .mark .lBracket :: (parenthesize 2 e.rank e.printed ++ [.mark .rBracket])

end

def Note.unspanned (n : Note) : Note :=
  { n with span := ⟨0, 0⟩ }

mutual

/-- The expression without its spans. -/
def Expr.unspanned : Expr → Expr
  | .int text n => .int text n.unspanned
  | .float text n => .float text n.unspanned
  | .bool b n => .bool b n.unspanned
  | .var x binding n => .var x binding n.unspanned
  | .unary op e n => .unary op e.unspanned n.unspanned
  | .update op before e n => .update op before e.unspanned n.unspanned
  | .binary op l r n => .binary op l.unspanned r.unspanned n.unspanned
  | .assign op t v n => .assign op t.unspanned v.unspanned n.unspanned
  | .ternary c t e n => .ternary c.unspanned t.unspanned e.unspanned n.unspanned
  | .comma l r n => .comma l.unspanned r.unspanned n.unspanned
  | .call callee suffix args target n =>
    .call { callee with span := ⟨0, 0⟩ } (suffixUnspanned suffix) (argsUnspanned args) target
      n.unspanned
  | .field e x n => .field e.unspanned x n.unspanned
  | .index a i n => .index a.unspanned i.unspanned n.unspanned
  | .length e n => .length e.unspanned n.unspanned

def argsUnspanned : List Expr → List Expr
  | [] => []
  | e :: es => e.unspanned :: argsUnspanned es

def suffixUnspanned : Option (ArraySuffix Expr) → Option (ArraySuffix Expr)
  | none => none
  | some ⟨none, _⟩ => some ⟨none, ⟨0, 0⟩⟩
  | some ⟨some e, _⟩ => some ⟨some e.unspanned, ⟨0, 0⟩⟩

end

theorem unspanned_withSpan (e : Expr) (span : Span) :
    (e.withSpan span).unspanned = e.unspanned := by
  cases e <;> rfl

/-- The name is the one that its text stands for. -/
def CalleeName.Plain : CalleeName → Prop
  | .basic b => BasicTy.ofName? b.name = some b
  | .named x => BasicTy.ofName? x = none

/-- Tokens can write the node: nothing is recorded at it, and its names and operators have texts.
The word `void` is kept for empty lists of arguments. -/
def Expr.Writable (e : Expr) : Prop :=
  e.Bare ∧
    match e with
    | .var x _ _ => x ≠ "void"
    | .call callee .. => callee.name.Plain
    | .assign op .. => op ∈ AssignOp.all
    | _ => True

def Part.Writable : Part → Prop
  | .node e => e.Writable
  | _ => True

theorem CalleeName.Plain.calleeName_text {name : CalleeName} (h : name.Plain) :
    Parse.calleeName name.text = name := by
  unfold Parse.calleeName
  cases name with
  | basic b =>
    have hb : BasicTy.ofName? b.name = some b := h
    simp only [CalleeName.text, hb]
  | named x =>
    have hx : BasicTy.ofName? x = none := h
    simp only [CalleeName.text, hx]

/-- The kinds behind the bracket that closes `depth + 1` open ones, as `Cursor.afterClosing` has
the tokens. -/
def behindClosing : Nat → List TokenKind → Option (List TokenKind)
  | _, [] => none
  | depth, k :: ks =>
    if k = .mark .lBracket then behindClosing (depth + 1) ks
    else if k = .mark .rBracket then
      match depth with
      | 0 => some ks
      | depth + 1 => behindClosing depth ks
    else if k = .mark .semi || k = .eof then none
    else behindClosing depth ks

/-- Behind a name, these kinds would make it the name of a call. -/
def opensArguments : List TokenKind → Bool
  | [] => false
  | k :: ks => k = .mark .lParen ||
      k = .mark .lBracket && (behindClosing 0 ks).bind List.head? = some (.mark .lParen)

theorem behindClosing_kinds (depth : Nat) (ts : List Token) :
    behindClosing depth (ts.map Token.kind) =
      (Cursor.afterClosing depth ts).map (List.map Token.kind) := by
  induction ts generalizing depth with
  | nil => rfl
  | cons t ts ih =>
    simp only [List.map_cons, behindClosing, Cursor.afterClosing]
    by_cases hopen : t.kind = .mark .lBracket
    · rw [if_pos hopen, if_pos hopen, ih]
    · rw [if_neg hopen, if_neg hopen]
      by_cases hclose : t.kind = .mark .rBracket
      · rw [if_pos hclose, if_pos hclose]
        cases depth with
        | zero => rfl
        | succ depth => exact ih depth
      · rw [if_neg hclose, if_neg hclose]
        split
        · rfl
        · exact ih depth

theorem Cursor.behindBrackets?_eq {before : Span} {t u : Token} {us : List Token} :
    Cursor.behindBrackets? ⟨before, t, u :: us⟩ =
      if u.kind = .mark .lBracket then (behindClosing 0 (us.map Token.kind)).bind List.head?
      else none := by
  rw [behindClosing_kinds, Cursor.behindBrackets?]
  cases h : Cursor.afterClosing 0 us with
  | none => simp [h]
  | some vs => cases vs <;> simp [h]

/-- Whether a name starts a call is seen from the kinds behind it. -/
theorem Cursor.startsCall_eq {c : Cursor} {k : TokenKind} {ks : List TokenKind} (hks : ks ≠ [])
    (h : c.kinds = k :: ks) : c.startsCall = opensArguments ks := by
  obtain ⟨before, t, rest⟩ := c
  have hrest : rest.map Token.kind = ks := (List.cons.inj h).2
  subst hrest
  cases rest with
  | nil => simp at hks
  | cons u us =>
    have hnext : Cursor.nextKind ⟨before, t, u :: us⟩ = u.kind := rfl
    rw [Bool.eq_iff_iff, Cursor.startsCall, hnext, Cursor.behindBrackets?_eq]
    by_cases hopen : u.kind = .mark .lBracket
    · simp [opensArguments, hopen]
    · simp [opensArguments, hopen]

/-- Brackets are closed where they were opened, and the statement does not end. -/
def Balanced (kinds : List TokenKind) : Prop :=
  ∀ depth ks, behindClosing depth (kinds ++ ks) = behindClosing depth ks

namespace Balanced

variable {ks ls : List TokenKind} {k : TokenKind}

theorem nil : Balanced [] :=
  fun _ _ => rfl

theorem append (hk : Balanced ks) (hl : Balanced ls) : Balanced (ks ++ ls) := by
  intro depth rest
  rw [List.append_assoc, hk, hl]

theorem cons (hk : k ∉ [.mark .lBracket, .mark .rBracket, .mark .semi, .eof]) (h : Balanced ks) :
    Balanced (k :: ks) := by
  intro depth rest
  simp only [List.mem_cons, List.not_mem_nil, or_false, not_or] at hk
  obtain ⟨hopen, hclose, hsemi, heof⟩ := hk
  simp only [List.cons_append, behindClosing, hopen, hclose, hsemi, heof, if_false, decide_false,
    Bool.or_false, Bool.false_eq_true]
  exact h depth rest

theorem brackets (h : Balanced ks) : Balanced (.mark .lBracket :: (ks ++ [.mark .rBracket])) := by
  intro depth rest
  have hopen : behindClosing depth (.mark .lBracket :: (ks ++ [.mark .rBracket]) ++ rest) =
      behindClosing (depth + 1) (ks ++ [.mark .rBracket] ++ rest) := rfl
  rw [hopen, List.append_assoc, h]
  rfl

theorem parenthesize (h : Balanced ks) (place rank : Nat) :
    Balanced (parenthesize place rank ks) := by
  unfold Shader.parenthesize
  split
  · exact .cons (by decide) (h.append (.cons (by decide) .nil))
  · exact h

end Balanced

theorem opensArguments_brackets {ls ks : List TokenKind} (h : Balanced ls) (k : TokenKind) :
    opensArguments (.mark .lBracket :: (ls ++ .mark .rBracket :: k :: ks)) =
      decide (k = .mark .lParen) := by
  have hclosed : behindClosing 0 (ls ++ .mark .rBracket :: k :: ks) = some (k :: ks) := by
    rw [h]
    rfl
  simp [opensArguments, hclosed]

theorem balanced_argsPrinted {es : List Expr} (h : ∀ e ∈ es, Balanced e.printed) :
    Balanced (morePrinted es) ∧ Balanced (argsPrinted es) := by
  induction es with
  | nil => exact ⟨.nil, .nil⟩
  | cons e es ih =>
    obtain ⟨hmore, -⟩ := ih fun a ha => h a (by simp [ha])
    have he := (h e (by simp)).parenthesize 1 e.rank
    exact ⟨.cons (by decide) (he.append hmore), he.append hmore⟩

theorem balanced_printed (e : Expr) : Balanced e.printed := by
  induction e using Expr.induction with
  | int text n | float text n | var x binding n =>
    exact .cons (by simp) .nil
  | bool b n => exact .cons (by simp) .nil
  | unary op e n ih =>
    exact .cons (by cases op <;> decide) (ih.parenthesize _ _)
  | update op before e n ih =>
    have hop : Balanced [.mark op.mark] := .cons (by cases op <;> decide) .nil
    cases before with
    | true => exact hop.append (ih.parenthesize _ _)
    | false => exact (ih.parenthesize _ _).append hop
  | binary op l r n ihl ihr =>
    exact (ihl.parenthesize _ _).append (.cons (by cases op <;> decide) (ihr.parenthesize _ _))
  | assign op t v n iht ihv =>
    refine (iht.parenthesize _ _).append (.cons ?_ (ihv.parenthesize _ _))
    rcases op with _ | op
    · decide
    · cases op <;> decide
  | ternary c t e n ihc iht ihe =>
    refine (ihc.parenthesize _ _).append (.cons (by decide) (iht.append ?_))
    exact .cons (by decide) (ihe.parenthesize _ _)
  | comma l r n ihl ihr => exact ihl.append (.cons (by decide) (ihr.parenthesize _ _))
  | call callee suffix args target n ihsuffix ihargs =>
    have hclose : Balanced [.mark .rParen] := .cons (by decide) .nil
    have hargs := (balanced_argsPrinted ihargs).2.append hclose
    refine .cons (by simp) (Balanced.append ?_ (.cons (by decide) hargs))
    rcases suffix with _ | ⟨_ | e, span⟩
    · exact .nil
    · exact Balanced.nil.brackets
    · exact ((ihsuffix e span rfl).parenthesize _ _).brackets
  | field e x n ih =>
    exact (ih.parenthesize _ _).append (.cons (by decide) (.cons (by simp) .nil))
  | index a i n iha ihi => exact (iha.parenthesize _ _).append ihi.brackets
  | length e n ih =>
    refine (ih.parenthesize _ _).append (.cons (by decide) (.cons (by decide) ?_))
    exact .cons (by decide) (.cons (by decide) .nil)

/-- An expression starts here, and not the end of a list or brackets; a list of arguments that
starts with the word `void` goes on. -/
def Starts (kinds : List TokenKind) : Prop :=
  ∃ k ks, kinds = k :: ks ∧ k ≠ .mark .rParen ∧ k ≠ .mark .rBracket ∧
    (k = .identifier "void" → ∃ l ls, ks = l :: ls ∧ l ≠ .mark .rParen)

/-- An operand starts here that has no operator in front of it. -/
def StartsOperand (kinds : List TokenKind) : Prop :=
  ∃ k ks, kinds = k :: ks ∧ UnaryOp.ofToken? k = none ∧ UpdateOp.ofToken? k = none

section Starts

variable {ks ls : List TokenKind} {k : TokenKind}

theorem starts_cons (hk : k ∉ [.mark .rParen, .mark .rBracket, .identifier "void"])
    (ks : List TokenKind) : Starts (k :: ks) := by
  simp only [List.mem_cons, List.not_mem_nil, or_false, not_or] at hk
  obtain ⟨hparen, hbracket, hvoid⟩ := hk
  exact ⟨k, ks, rfl, hparen, hbracket, fun h => (hvoid h).elim⟩

theorem Starts.ne_nil (h : Starts ks) : ks ≠ [] := by
  obtain ⟨k, ks, rfl, -⟩ := h
  simp

theorem Starts.append (h : Starts ks) (ls : List TokenKind) : Starts (ks ++ ls) := by
  obtain ⟨k, ks, rfl, hparen, hbracket, hvoid⟩ := h
  refine ⟨k, ks ++ ls, rfl, hparen, hbracket, fun hk => ?_⟩
  obtain ⟨l, rest, rfl, hl⟩ := hvoid hk
  exact ⟨l, rest ++ ls, rfl, hl⟩

theorem Starts.parenthesize (h : Starts ks) (place rank : Nat) :
    Starts (parenthesize place rank ks) := by
  unfold Shader.parenthesize
  split
  · exact starts_cons (by decide) _
  · exact h

theorem StartsOperand.append (h : StartsOperand ks) (ls : List TokenKind) :
    StartsOperand (ks ++ ls) := by
  obtain ⟨k, ks, rfl, hk⟩ := h
  exact ⟨k, ks ++ ls, rfl, hk⟩

theorem startsOperand_parenthesize {rank : Nat} (h : 15 ≤ rank → StartsOperand ks) :
    StartsOperand (parenthesize 15 rank ks) := by
  unfold parenthesize
  split
  · exact ⟨_, _, rfl, rfl, rfl⟩
  · rename_i hrank
    exact h (Nat.le_of_not_lt hrank)

end Starts

theorem starts_printed {e : Expr} (h : Part.All Part.Writable e.parts) : Starts e.printed := by
  induction e using Expr.induction with
  | int text n | float text n => exact starts_cons (by simp) _
  | bool b n => exact starts_cons (by simp) _
  | var x binding n =>
    have hx : x ≠ "void" := (Part.all_cons.mp h).1.2
    exact starts_cons (by simpa using hx) _
  | unary op e n ih => exact starts_cons (by cases op <;> decide) _
  | update op before e n ih =>
    cases before with
    | true => exact starts_cons (by cases op <;> decide) _
    | false => exact ((ih (Part.all_cons.mp h).2).parenthesize _ _).append _
  | binary op l r n ihl ihr | assign op l r n ihl ihr =>
    exact ((ihl (Part.all_append.mp (Part.all_cons.mp h).2).1).parenthesize _ _).append _
  | ternary c t e n ihc iht ihe =>
    have hc := (Part.all_append.mp (Part.all_append.mp (Part.all_cons.mp h).2).1).1
    exact ((ihc hc).parenthesize _ _).append _
  | comma l r n ihl ihr => exact (ihl (Part.all_append.mp (Part.all_cons.mp h).2).1).append _
  | call callee suffix args target n ihsuffix ihargs =>
    refine ⟨_, _, rfl, by simp, by simp, fun _ => ?_⟩
    rcases suffix with _ | ⟨_ | e, span⟩
    · exact ⟨_, _, rfl, by decide⟩
    · exact ⟨_, _, rfl, by decide⟩
    · exact ⟨_, _, rfl, by decide⟩
  | field e x n ih | length e n ih => exact ((ih (Part.all_cons.mp h).2).parenthesize _ _).append _
  | index a i n iha ihi =>
    exact ((iha (Part.all_append.mp (Part.all_cons.mp h).2).1).parenthesize _ _).append _

theorem startsOperand_printed {e : Expr} (h : 15 ≤ e.rank) : StartsOperand e.printed := by
  induction e using Expr.induction with
  | int text n | float text n | bool b n | var x binding n =>
    exact ⟨_, _, rfl, by simp [UnaryOp.ofToken?], by simp [UpdateOp.ofToken?]⟩
  | call callee suffix args target n ihsuffix ihargs =>
    exact ⟨_, _, rfl, by simp [UnaryOp.ofToken?], by simp [UpdateOp.ofToken?]⟩
  | unary op e n ih | assign op l r n ihl ihr | comma l r n ihl ihr | ternary c t e n ihc iht ihe =>
    simp [Expr.rank] at h
  | binary op l r n ihl ihr =>
    simp only [Expr.rank] at h
    have hop : op.level < 11 := by cases op <;> decide
    omega
  | update op before e n ih =>
    cases before with
    | true => simp [Expr.rank] at h
    | false => exact (startsOperand_parenthesize ih).append _
  | field e x n ih | length e n ih | index e i n ih ihi =>
    exact (startsOperand_parenthesize ih).append _

end Shader
