import Shader.Parse
import Shader.Proofs.Printed

/-! The parser reads what is written. Each part is read at its place in the grammar, as far as the
tokens behind it let that place go on. -/

namespace Shader

namespace BinaryOp

theorem level_lt (op : BinaryOp) : op.level < levels := by
  cases op <;> decide

theorem mem_all (op : BinaryOp) : op ∈ all := by
  cases op <;> decide

theorem ofToken?_mark (op : BinaryOp) : ofToken? op.level (.mark op.mark) = some op := by
  cases op <;> rfl

theorem ofToken?_eq_none {k : TokenKind} (h : ∀ op ∈ all, k ≠ .mark op.mark) (level : Nat) :
    ofToken? level k = none :=
  List.find?_eq_none.mpr fun op hop => by simp [h op hop]

theorem ofToken?_mark_ne {op : BinaryOp} {level : Nat} (h : level ≠ op.level) :
    ofToken? level (.mark op.mark) = none := by
  have hmark : ∀ p ∈ all, ∀ q ∈ all, p.mark = q.mark → p.level = q.level := by decide
  refine List.find?_eq_none.mpr fun q hq hsame => ?_
  simp only [Bool.and_eq_true, decide_eq_true_eq, TokenKind.mark.injEq] at hsame
  exact h (hsame.1 ▸ (hmark op op.mem_all q hq hsame.2).symm)

end BinaryOp

theorem UnaryOp.ofToken?_mark (op : UnaryOp) : ofToken? (.mark op.mark) = some op := by
  cases op <;> rfl

theorem UpdateOp.ofToken?_mark (op : UpdateOp) : ofToken? (.mark op.mark) = some op := by
  cases op <;> rfl

theorem AssignOp.ofToken?_mark {op : AssignOp} (h : op ∈ all) :
    ofToken? (.mark op.mark) = some op := by
  revert op
  decide

theorem AssignOp.mark_ne_question {op : AssignOp} (h : op ∈ all) :
    TokenKind.mark op.mark ≠ .mark .question := by
  revert op
  decide

namespace Parse

/-- At these kinds, what stands at the place is over. -/
structure Stops (place : Nat) (k : TokenKind) (ks : List TokenKind) : Prop where
  arguments : opensArguments (k :: ks) = false
  access : place ≤ 15 → EndsOperand k
  operator : ∀ level, place ≤ level + 3 → BinaryOp.ofToken? level k = none
  question : place ≤ 2 → k ≠ .mark .question
  assign : place ≤ 2 → AssignOp.ofToken? k = none
  comma : place = 0 → k ≠ .mark .comma

namespace Stops

variable {place : Nat} {k : TokenKind} {ks : List TokenKind}

theorem opensArguments_of_ne (hparen : k ≠ .mark .lParen) (hbracket : k ≠ .mark .lBracket) :
    opensArguments (k :: ks) = false := by
  simp [opensArguments, hparen, hbracket]

theorem ne_lParen (h : Stops place k ks) : k ≠ .mark .lParen := by
  rintro rfl
  simpa [opensArguments] using h.arguments

theorem mono {place' : Nat} (h : Stops place k ks) (hle : place ≤ place') : Stops place' k ks where
  arguments := h.arguments
  access hp := h.access (by omega)
  operator level hp := h.operator level (by omega)
  question hp := h.question (by omega)
  assign hp := h.assign (by omega)
  comma hp := h.comma (by omega)

theorem assignment (h : Stops 2 k ks) : Stops 1 k ks where
  arguments := h.arguments
  access _ := h.access (by omega)
  operator level _ := h.operator level (by omega)
  question _ := h.question (by omega)
  assign _ := h.assign (by omega)
  comma hp := by omega

theorem closing {m : Mark} (hm : m ∈ [.semi, .rParen, .rBracket, .colon]) (ks : List TokenKind) :
    Stops 0 (.mark m) ks := by
  simp only [List.mem_cons, List.not_mem_nil, or_false] at hm
  rcases hm with rfl | rfl | rfl | rfl
  all_goals exact {
    arguments := opensArguments_of_ne (by decide) (by decide)
    access := fun _ => ⟨by decide, by decide, rfl⟩
    operator := fun _ _ => BinaryOp.ofToken?_eq_none (by decide) _
    question := fun _ => by decide
    assign := fun _ => rfl
    comma := fun _ => by decide }

theorem comma_mark (ks : List TokenKind) : Stops 1 (.mark .comma) ks where
  arguments := opensArguments_of_ne (by decide) (by decide)
  access _ := ⟨by decide, by decide, rfl⟩
  operator _ _ := BinaryOp.ofToken?_eq_none (by decide) _
  question _ := by decide
  assign _ := rfl
  comma h := by omega

theorem question_mark (ks : List TokenKind) : Stops 3 (.mark .question) ks where
  arguments := opensArguments_of_ne (by decide) (by decide)
  access _ := ⟨by decide, by decide, rfl⟩
  operator _ _ := BinaryOp.ofToken?_eq_none (by decide) _
  question h := by omega
  assign h := by omega
  comma h := by omega

theorem assign_mark {op : AssignOp} (hop : op ∈ AssignOp.all) (ks : List TokenKind) :
    Stops 3 (.mark op.mark) ks where
  arguments := opensArguments_of_ne (by revert op; decide) (by revert op; decide)
  access _ := by
    revert op
    unfold EndsOperand
    decide
  operator _ _ := BinaryOp.ofToken?_eq_none (by revert op; decide) _
  question h := by omega
  assign h := by omega
  comma h := by omega

theorem operator_mark (op : BinaryOp) (ks : List TokenKind) :
    Stops (op.level + 4) (.mark op.mark) ks where
  arguments := opensArguments_of_ne (by cases op <;> decide) (by cases op <;> decide)
  access _ := by cases op <;> exact ⟨by decide, by decide, rfl⟩
  operator level h := BinaryOp.ofToken?_mark_ne (by omega)
  question h := by omega
  assign h := by omega
  comma h := by omega

theorem operand (h : opensArguments (k :: ks) = false) : Stops 16 k ks where
  arguments := h
  access hp := by omega
  operator level hp := List.find?_eq_none.mpr fun op _ => by
    have := op.level_lt
    simp only [BinaryOp.levels] at this
    simp only [Bool.and_eq_true, decide_eq_true_eq, not_and]
    omega
  question h := by omega
  assign h := by omega
  comma h := by omega

end Stops

/-- The parser of a place. -/
def readerAt : (place : Nat) → Nat → Parser Expr
  | 0, n => expression n
  | 1, n => assignment n
  | 2, n => conditional n
  | 15, n => do accesses n (← primary n)
  | level + 3, n => binary n level

/-- The places that are read in a loop, which takes in one operand after the other. -/
inductive Loop : Nat → (Nat → Expr → Parser Expr) → Prop where
  | comma : Loop 0 commaTail
  | operator (level : Nat) : level < BinaryOp.levels → Loop (level + 3) fun n => binaryTail n level
  | access : Loop 15 accesses

/-- The parser of the place reads the kinds and no further, wherever the place ends behind them. -/
def ReadsAt (place : Nat) (kinds : List TokenKind) (Q : Expr → Prop) : Prop :=
  ∀ k ks n, Stops place k ks → 32 * kinds.length ≤ n + 2 * place →
    Reads (readerAt place n) (kinds ++ k :: ks) (k :: ks) Q

/-- The parser of the place reads the kinds and goes on with its loop behind them. -/
def Chains (place : Nat) (loop : Nat → Expr → Parser Expr) (kinds : List TokenKind)
    (Q : Expr → Prop) : Prop :=
  ∀ k ks stop R N n, Stops (place + 1) k ks → 0 < N →
    (∀ e m, Q e → N ≤ m → Reads (loop m e) (k :: ks) stop R) →
    32 * kinds.length + N ≤ n + 2 * place + 1 → Reads (readerAt place n) (kinds ++ k :: ks) stop R

theorem readerAt_operator (level n : Nat) (h : level ≤ BinaryOp.levels) :
    readerAt (level + 3) n = binary n level := by
  unfold readerAt
  split
  · omega
  · omega
  · omega
  · simp only [BinaryOp.levels] at h
    omega
  · rename_i hlevel
    obtain rfl := Nat.add_right_cancel hlevel
    rfl

section Places

variable {place : Nat} {loop : Nat → Expr → Parser Expr} {kinds ks : List TokenKind} {k : TokenKind}
  {Q : Expr → Prop}

theorem Loop.stops (hloop : Loop place loop) (hstop : Stops place k ks) {m : Nat} (hm : 0 < m)
    {e : Expr} (he : Q e) : Reads (loop m e) (k :: ks) (k :: ks) Q := by
  obtain ⟨m, rfl⟩ : ∃ p, m = p + 1 := ⟨m - 1, by omega⟩
  cases hloop with
  | comma =>
    unfold commaTail
    refine (reads_acceptMark_ne (hstop.comma rfl)).bind fun b hb => ?_
    subst hb
    exact .pure he
  | operator level hlevel =>
    dsimp only
    unfold binaryTail
    refine reads_kind.bind fun l hl => ?_
    subst hl
    simp only [hstop.operator level (Nat.le_refl _)]
    exact .pure he
  | access => exact reads_accesses hm (hstop.access (Nat.le_refl _)) he

theorem Chains.reads (hloop : Loop place loop) (h : Chains place loop kinds Q) :
    ReadsAt place kinds Q := by
  intro k ks n hstop hn
  refine h k ks _ Q 1 n (hstop.mono (by omega)) (by omega) (fun e m he hm => ?_) (by omega)
  exact hloop.stops hstop (by omega) he

theorem ReadsAt.chains (hloop : Loop place loop) (hplace : place < 15) (hkinds : kinds ≠ [])
    (h : ReadsAt (place + 1) kinds Q) : Chains place loop kinds Q := by
  have hlength := List.length_pos_iff.mpr hkinds
  intro k ks stop R N n hstop hN htail hn
  cases hloop with
  | comma =>
    obtain ⟨n, rfl⟩ : ∃ m, n = m + 1 := ⟨n - 1, by omega⟩
    show Reads (expression (n + 1)) _ _ _
    unfold expression
    exact (h k ks n hstop (by omega)).bind fun e he => htail e n he (by omega)
  | operator level hlevel =>
    simp only [BinaryOp.levels] at hlevel
    obtain ⟨n, rfl⟩ : ∃ m, n = m + 1 := ⟨n - 1, by omega⟩
    have hnext := h k ks n hstop (by omega)
    rw [readerAt_operator (level + 1) n (by simp only [BinaryOp.levels]; omega)] at hnext
    rw [readerAt_operator level (n + 1) (by simp only [BinaryOp.levels]; omega)]
    unfold binary
    rw [if_neg (by simp only [BinaryOp.levels]; omega)]
    exact hnext.bind fun e he => htail e n he (by omega)
  | access => omega

theorem ReadsAt.assignment (hkinds : kinds ≠ []) (h : ReadsAt 2 kinds Q) : ReadsAt 1 kinds Q := by
  have hlength := List.length_pos_iff.mpr hkinds
  intro k ks n hstop hn
  obtain ⟨n, rfl⟩ : ∃ m, n = m + 1 := ⟨n - 1, by omega⟩
  show Reads (Parse.assignment (n + 1)) _ _ _
  unfold Parse.assignment
  refine (h k ks n (hstop.mono (by omega)) (by omega)).bind fun e he => ?_
  refine reads_kind.bind fun l hl => ?_
  subst hl
  simp only [hstop.assign (by omega)]
  exact .pure he

theorem ReadsAt.conditional (hkinds : kinds ≠ []) (h : ReadsAt 3 kinds Q) : ReadsAt 2 kinds Q := by
  have hlength := List.length_pos_iff.mpr hkinds
  intro k ks n hstop hn
  obtain ⟨n, rfl⟩ : ∃ m, n = m + 1 := ⟨n - 1, by omega⟩
  show Reads (Parse.conditional (n + 1)) _ _ _
  unfold Parse.conditional
  refine (h k ks n (hstop.mono (by omega)) (by omega)).bind fun e he => ?_
  refine (reads_acceptMark_ne (hstop.question (by omega))).bind fun b hb => ?_
  subst hb
  exact .pure he

theorem readerAt_tightest (n : Nat) : readerAt 14 (n + 1) = unary n := by
  rw [readerAt_operator 11 (n + 1) (by decide)]
  unfold binary
  rfl

theorem ReadsAt.tightest (hkinds : StartsOperand kinds) (h : ReadsAt 15 kinds Q) :
    ReadsAt 14 kinds Q := by
  obtain ⟨first, rest, rfl, hunary, hupdate⟩ := hkinds
  intro k ks n hstop hn
  simp only [List.length_cons] at hn
  obtain ⟨n, rfl⟩ : ∃ m, n = m + 2 := ⟨n - 2, by omega⟩
  rw [readerAt_tightest]
  unfold unary
  refine reads_here.bind fun _ _ => ?_
  refine reads_kind.bind fun l hl => ?_
  subst hl
  simp only [hunary, hupdate]
  exact h k ks n (hstop.mono (by omega)) (by simp only [List.length_cons]; omega)

theorem ReadsAt.outward (hplace : place < 14) (hkinds : kinds ≠ [])
    (h : ReadsAt (place + 1) kinds Q) : ReadsAt place kinds Q := by
  by_cases hcomma : place = 0
  · subst hcomma
    exact (h.chains .comma (by omega) hkinds).reads .comma
  by_cases hassign : place = 1
  · subst hassign
    exact h.assignment hkinds
  by_cases hquestion : place = 2
  · subst hquestion
    exact h.conditional hkinds
  obtain ⟨level, rfl⟩ : ∃ level, place = level + 3 := ⟨place - 3, by omega⟩
  have hloop : Loop (level + 3) fun n => binaryTail n level :=
    .operator level (by simp only [BinaryOp.levels]; omega)
  exact (h.chains hloop (by omega) hkinds).reads hloop

/-- The kinds are read at the place and at every one outside of it. -/
structure ReadTo (place : Nat) (kinds : List TokenKind) (Q : Expr → Prop) : Prop where
  reads : ∀ p ≤ place, ReadsAt p kinds Q
  chains : ∀ p ≤ place, ∀ loop, Loop p loop → Chains p loop kinds Q

theorem ReadTo.mono {place' : Nat} (h : ReadTo place kinds Q) (hle : place' ≤ place) :
    ReadTo place' kinds Q :=
  ⟨fun p hp => h.reads p (by omega), fun p hp => h.chains p (by omega)⟩

theorem Loop.unique {loop' : Nat → Expr → Parser Expr} (h : Loop place loop)
    (h' : Loop place loop') : loop' = loop := by
  cases h with
  | comma =>
    cases h'
    rfl
  | operator level hlevel =>
    cases h' with
    | operator level' hlevel' => rfl
    | access => simp [BinaryOp.levels] at hlevel
  | access =>
    cases h' with
    | operator level' hlevel' => simp [BinaryOp.levels] at hlevel'
    | access => rfl

theorem not_loop_tightest (loop : Nat → Expr → Parser Expr) : ¬Loop 14 loop := by
  intro h
  cases h with
  | operator level hlevel => simp [BinaryOp.levels] at hlevel

theorem not_loop_assignment (loop : Nat → Expr → Parser Expr) : ¬Loop 1 loop :=
  nofun

theorem not_loop_conditional (loop : Nat → Expr → Parser Expr) : ¬Loop 2 loop :=
  nofun

theorem ReadsAt.all (hplace : place ≤ 15) (hkinds : kinds ≠ [])
    (hstart : place = 15 → StartsOperand kinds) (h : ReadsAt place kinds Q) :
    ∀ p ≤ place, ReadsAt p kinds Q := by
  have hall : ∀ d p, p + d = place → ReadsAt p kinds Q := by
    intro d
    induction d with
    | zero =>
      rintro p rfl
      exact h
    | succ d ih =>
      intro p hp
      have hnext := ih (p + 1) (by omega)
      by_cases htightest : p = 14
      · subst htightest
        exact hnext.tightest (hstart (by omega))
      · exact hnext.outward (by omega) hkinds
  exact fun p hp => hall (place - p) p (by omega)

theorem ReadTo.of_reads (hplace : place ≤ 14) (hkinds : kinds ≠ []) (h : ReadsAt place kinds Q)
    (hnone : ∀ loop, ¬Loop place loop) : ReadTo place kinds Q := by
  have hall := h.all (by omega) hkinds (by omega)
  refine ⟨hall, fun p hp loop hloop => ?_⟩
  have hne : p ≠ place := by
    rintro rfl
    exact hnone loop hloop
  exact (hall (p + 1) (by omega)).chains hloop (by omega) hkinds

theorem ReadTo.of_chains (hloop : Loop place loop) (hkinds : kinds ≠ [])
    (hstart : place = 15 → StartsOperand kinds) (h : Chains place loop kinds Q) :
    ReadTo place kinds Q := by
  have hplace : place ≤ 15 := by
    cases hloop with
    | comma => omega
    | operator level hlevel =>
      simp only [BinaryOp.levels] at hlevel
      omega
    | access => omega
  have hall := (h.reads hloop).all hplace hkinds hstart
  refine ⟨hall, fun p hp loop' hloop' => ?_⟩
  by_cases hp' : p = place
  · subst hp'
    rw [hloop.unique hloop']
    exact h
  · exact (hall (p + 1) (by omega)).chains hloop' (by omega) hkinds

/-- The kinds are an operand by themselves. -/
def ReadsPrimary (kinds : List TokenKind) (Q : Expr → Prop) : Prop :=
  ∀ k ks n, opensArguments (k :: ks) = false → 32 * kinds.length ≤ n + 31 →
    Reads (primary n) (kinds ++ k :: ks) (k :: ks) Q

theorem ReadsPrimary.readTo (hkinds : StartsOperand kinds) (h : ReadsPrimary kinds Q) :
    ReadTo 15 kinds Q := by
  obtain ⟨first, rest, rfl, -⟩ := id hkinds
  refine .of_chains .access (by simp) (fun _ => hkinds) ?_
  intro k ks stop R N n hstop hN htail hn
  simp only [List.length_cons] at hn
  have hprimary := h k ks n hstop.arguments (by simp only [List.length_cons]; omega)
  exact hprimary.bind fun e he => htail e n he (by omega)

/-- Parentheses make an operand of any expression. -/
theorem ReadTo.parenthesized (hkinds : kinds ≠ []) (h : ReadTo 0 kinds Q)
    (hQ : ∀ e span, Q e → Q (e.withSpan span)) :
    ReadTo 15 (.mark .lParen :: (kinds ++ [.mark .rParen])) Q := by
  refine ReadsPrimary.readTo ⟨_, _, rfl, rfl, rfl⟩ fun k ks n _ hn => ?_
  obtain ⟨first, rest, rfl⟩ := List.exists_cons_of_ne_nil hkinds
  simp only [List.length_cons, List.length_append, List.length_nil] at hn
  obtain ⟨n, rfl⟩ : ∃ m, n = m + 1 := ⟨n - 1, by omega⟩
  have hinner := h.reads 0 (Nat.le_refl _) _ (k :: ks) n (.closing (m := .rParen) (by decide) _)
    (by simp only [List.length_cons]; omega)
  have hread := (reads_parenthesized hinner).mono fun e he => by
    obtain ⟨d, span, rfl, hd⟩ := he
    exact hQ d span hd
  simpa using hread

theorem ReadTo.parenthesize {rank : Nat} (hkinds : kinds ≠ []) (h : ReadTo (min rank 15) kinds Q)
    (hQ : ∀ e span, Q e → Q (e.withSpan span)) (hplace : place ≤ 15) :
    ReadTo place (parenthesize place rank kinds) Q := by
  unfold Shader.parenthesize
  split
  · exact ((h.mono (Nat.zero_le _)).parenthesized hkinds hQ).mono hplace
  · exact h.mono (by omega)

end Places

def Same (e d : Expr) : Prop :=
  d.unspanned = e.unspanned

theorem Same.eq {e d : Expr} (h : Same e d) : d.unspanned = e.unspanned :=
  h

theorem unspanned_untyped {n : Note} (h : n.ty = none) (span : Span) :
    (untyped span).unspanned = n.unspanned := by
  simp only [untyped, Note.unspanned, h]

/-- The written form of the expression is read at its rank, and what is read is the expression. -/
def ReadBack (e : Expr) : Prop :=
  ReadTo (min e.rank 15) e.printed (Same e)

theorem ReadBack.parenthesize {e : Expr} (h : ReadBack e)
    (hwritable : Part.All Part.Writable e.parts) {place : Nat} (hplace : place ≤ 15) :
    ReadTo place (parenthesize place e.rank e.printed) (Same e) := by
  refine ReadTo.parenthesize (starts_printed hwritable).ne_nil h (fun d span hd => ?_) hplace
  exact (unspanned_withSpan d span).trans hd

theorem ReadBack.of_primary {e : Expr} (hrank : 15 ≤ e.rank)
    (h : ReadsPrimary e.printed (Same e)) : ReadBack e := by
  rw [ReadBack, Nat.min_eq_right hrank]
  exact h.readTo (startsOperand_printed hrank)

theorem ReadBack.of_access {e : Expr} (hrank : 15 ≤ e.rank)
    (h : Chains 15 accesses e.printed (Same e)) : ReadBack e := by
  have hstart := startsOperand_printed hrank
  have hne : e.printed ≠ [] := by
    obtain ⟨first, rest, hprinted, -⟩ := id hstart
    simp [hprinted]
  rw [ReadBack, Nat.min_eq_right hrank]
  exact .of_chains .access hne (fun _ => hstart) h

section Constructs

variable {kinds ls js : List TokenKind} {P Q R : Expr → Prop}

theorem readsPrimary_literal {l : TokenKind} {f : Note → Expr}
    (h : ∀ n k ks, Reads (primary (n + 1)) (l :: k :: ks) (k :: ks) fun e =>
      ∃ span, e = f (untyped span))
    (hQ : ∀ span, Q (f (untyped span))) : ReadsPrimary [l] Q := by
  intro k ks n _ hn
  obtain ⟨n, rfl⟩ : ∃ m, n = m + 1 := ⟨n - 1, by simp at hn; omega⟩
  refine (h n k ks).mono fun e he => ?_
  obtain ⟨span, rfl⟩ := he
  exact hQ span

theorem readsPrimary_var {x : String} (hQ : ∀ span, Q (.var x none (untyped span))) :
    ReadsPrimary [.identifier x] Q := by
  intro k ks n hopen hn
  obtain ⟨n, rfl⟩ : ∃ m, n = m + 1 := ⟨n - 1, by simp at hn; omega⟩
  unfold primary
  refine reads_here.bind fun start _ => ?_
  refine reads_kind.bind fun l hl => ?_
  subst hl
  refine reads_get.bind fun c hc => ?_
  have hcall : c.startsCall = false := (Cursor.startsCall_eq (by simp) hc).trans hopen
  rw [if_neg (by simp [hcall])]
  exact reads_advance.bind fun _ _ => .pure (hQ _)

theorem ReadTo.prefixed {k : TokenKind} {ks : List TokenKind} {n : Nat} (h : ReadTo 14 kinds P)
    (hstop : Stops 14 k ks) (hn : 32 * kinds.length ≤ n + 29) :
    Reads (unary n) (kinds ++ k :: ks) (k :: ks) P := by
  have hread := h.reads 14 (Nat.le_refl _) k ks (n + 1) hstop (by omega)
  rwa [readerAt_tightest] at hread

theorem readsAt_unary {op : UnaryOp} (h : ReadTo 14 kinds P) (hkinds : kinds ≠ [])
    (hQ : ∀ e span, P e → Q (.unary op e (untyped span))) :
    ReadsAt 14 (.mark op.mark :: kinds) Q := by
  obtain ⟨first, rest, rfl⟩ := List.exists_cons_of_ne_nil hkinds
  intro k ks n hstop hn
  simp only [List.length_cons] at hn
  obtain ⟨n, rfl⟩ : ∃ m, n = m + 2 := ⟨n - 2, by omega⟩
  have hoperand := h.prefixed (n := n) hstop (by simp only [List.length_cons]; omega)
  rw [readerAt_tightest]
  unfold unary
  refine reads_here.bind fun _ _ => ?_
  refine reads_kind.bind fun l hl => ?_
  subst hl
  simp only [UnaryOp.ofToken?_mark]
  exact reads_advance.bind fun _ _ => hoperand.bind fun e he => .pure (hQ e _ he)

theorem readsAt_update {op : UpdateOp} (h : ReadTo 14 kinds P) (hkinds : kinds ≠ [])
    (hQ : ∀ e span, P e → Q (.update op true e (untyped span))) :
    ReadsAt 14 (.mark op.mark :: kinds) Q := by
  obtain ⟨first, rest, rfl⟩ := List.exists_cons_of_ne_nil hkinds
  intro k ks n hstop hn
  simp only [List.length_cons] at hn
  obtain ⟨n, rfl⟩ : ∃ m, n = m + 2 := ⟨n - 2, by omega⟩
  have hoperand := h.prefixed (n := n) hstop (by simp only [List.length_cons]; omega)
  rw [readerAt_tightest]
  unfold unary
  refine reads_here.bind fun _ _ => ?_
  refine reads_kind.bind fun l hl => ?_
  subst hl
  have hunary : UnaryOp.ofToken? (.mark op.mark) = none := by cases op <;> rfl
  simp only [hunary, UpdateOp.ofToken?_mark]
  exact reads_advance.bind fun _ _ => hoperand.bind fun e he => .pure (hQ e _ he)

theorem chains_binary {op : BinaryOp} (hl : ReadTo (op.level + 3) kinds P)
    (hr : ReadTo (op.level + 4) ls R) (hls : ls ≠ [])
    (hQ : ∀ l r span, P l → R r → Q (.binary op l r (untyped span))) :
    Chains (op.level + 3) (fun n => binaryTail n op.level) (kinds ++ .mark op.mark :: ls) Q := by
  have hlevel := op.level_lt
  obtain ⟨first, rest, rfl⟩ := List.exists_cons_of_ne_nil hls
  intro k ks stop T N n hstop hN htail hn
  simp only [List.length_append, List.length_cons] at hn
  have hloop : Loop (op.level + 3) fun n => binaryTail n op.level := .operator _ hlevel
  rw [List.append_assoc]
  refine hl.chains _ (Nat.le_refl _) _ hloop _ _ _ _ (32 * (rest.length + 1) + N + 1) n
    (.operator_mark op _) (by omega) (fun l m hleft hm => ?_) (by omega)
  obtain ⟨m, rfl⟩ : ∃ p, m = p + 1 := ⟨m - 1, by omega⟩
  have hright := hr.reads (op.level + 4) (Nat.le_refl _) k ks m hstop
    (by simp only [List.length_cons]; omega)
  rw [readerAt_operator (op.level + 1) m (by omega)] at hright
  unfold binaryTail
  refine reads_kind.bind fun t ht => ?_
  subst ht
  simp only [BinaryOp.ofToken?_mark]
  refine reads_advance.bind fun _ _ => hright.bind fun r hright => ?_
  exact htail _ m (hQ l r _ hleft hright) (by omega)

theorem chains_comma (hl : ReadTo 0 kinds P) (hr : ReadTo 1 ls R) (hls : ls ≠ [])
    (hQ : ∀ l r span, P l → R r → Q (.comma l r (untyped span))) :
    Chains 0 commaTail (kinds ++ .mark .comma :: ls) Q := by
  obtain ⟨first, rest, rfl⟩ := List.exists_cons_of_ne_nil hls
  intro k ks stop T N n hstop hN htail hn
  simp only [List.length_append, List.length_cons] at hn
  rw [List.append_assoc]
  refine hl.chains _ (Nat.le_refl _) _ .comma _ _ _ _ (32 * (rest.length + 1) + N + 1) n
    (.comma_mark _) (by omega) (fun l m hleft hm => ?_) (by omega)
  obtain ⟨m, rfl⟩ : ∃ p, m = p + 1 := ⟨m - 1, by omega⟩
  have hright := hr.reads 1 (Nat.le_refl _) k ks m hstop (by simp only [List.length_cons]; omega)
  unfold commaTail
  refine reads_acceptMark.bind fun b hb => ?_
  subst hb
  simp only [if_true]
  exact hright.bind fun r hright => htail _ m (hQ l r _ hleft hright) (by omega)

/-- An assignment takes in all that follows it, and what stands before it is no conditional. -/
theorem readsAt_assign {op : AssignOp} (hop : op ∈ AssignOp.all) (ht : ReadTo 3 kinds P)
    (hkinds : kinds ≠ []) (hv : ReadTo 1 ls R) (hls : ls ≠ [])
    (hQ : ∀ t v span, P t → R v → Q (.assign op t v (untyped span))) :
    ReadsAt 1 (kinds ++ .mark op.mark :: ls) Q := by
  have hlength := List.length_pos_iff.mpr hkinds
  obtain ⟨first, rest, rfl⟩ := List.exists_cons_of_ne_nil hls
  intro k ks n hstop hn
  simp only [List.length_append, List.length_cons] at hn
  obtain ⟨n, rfl⟩ : ∃ m, n = m + 2 := ⟨n - 2, by omega⟩
  have htarget := ht.reads 3 (Nat.le_refl _) _ _ n (.assign_mark hop (first :: rest ++ k :: ks))
    (by omega)
  have hvalue := hv.reads 1 (Nat.le_refl _) k ks (n + 1) hstop
    (by simp only [List.length_cons]; omega)
  have hleft : Reads (conditional (n + 1)) (kinds ++ .mark op.mark :: (first :: rest ++ k :: ks))
      (.mark op.mark :: (first :: rest ++ k :: ks)) P := by
    unfold conditional
    refine htarget.bind fun t htarget => ?_
    refine (reads_acceptMark_ne (AssignOp.mark_ne_question hop)).bind fun b hb => ?_
    subst hb
    exact .pure htarget
  rw [List.append_assoc]
  show Reads (assignment (n + 2)) _ _ _
  unfold assignment
  refine hleft.bind fun t hleft => ?_
  refine reads_kind.bind fun l hl => ?_
  subst hl
  simp only [AssignOp.ofToken?_mark hop]
  exact reads_advance.bind fun _ _ => hvalue.bind fun v hvalue => .pure (hQ t v _ hleft hvalue)

theorem readsAt_ternary {ls js : List TokenKind} {S : Expr → Prop} (hc : ReadTo 3 kinds P)
    (hkinds : kinds ≠ []) (ht : ReadTo 0 ls R) (hls : ls ≠ []) (he : ReadTo 1 js S) (hjs : js ≠ [])
    (hQ : ∀ c t e span, P c → R t → S e → Q (.ternary c t e (untyped span))) :
    ReadsAt 2 (kinds ++ .mark .question :: (ls ++ .mark .colon :: js)) Q := by
  have hlength := List.length_pos_iff.mpr hkinds
  obtain ⟨first, rest, rfl⟩ := List.exists_cons_of_ne_nil hls
  obtain ⟨third, others, rfl⟩ := List.exists_cons_of_ne_nil hjs
  intro k ks n hstop hn
  simp only [List.length_append, List.length_cons] at hn
  obtain ⟨n, rfl⟩ : ∃ m, n = m + 1 := ⟨n - 1, by omega⟩
  have hcondition := hc.reads 3 (Nat.le_refl _) _ _ n
    (.question_mark (first :: rest ++ .mark .colon :: (third :: others ++ k :: ks))) (by omega)
  have htrue := ht.reads 0 (Nat.le_refl _) _ _ n
    (.closing (m := .colon) (by decide) (third :: others ++ k :: ks))
    (by simp only [List.length_cons]; omega)
  have hfalse := he.reads 1 (Nat.le_refl _) k ks n hstop.assignment
    (by simp only [List.length_cons]; omega)
  simp only [List.append_assoc, List.cons_append]
  show Reads (conditional (n + 1)) _ _ _
  unfold conditional
  refine hcondition.bind fun c hcondition => ?_
  refine reads_acceptMark.bind fun b hb => ?_
  subst hb
  simp only [if_true]
  refine htrue.bind fun t htrue => reads_expectMark.bind fun _ _ => ?_
  exact hfalse.bind fun e hfalse => .pure (hQ c t e _ hcondition htrue hfalse)

theorem chains_field {x : String} (h : ReadTo 15 kinds P)
    (hQ : ∀ e span, P e → Q (.field e x (untyped span))) :
    Chains 15 accesses (kinds ++ [.mark .dot, .identifier x]) Q := by
  intro k ks stop T N n hstop hN htail hn
  simp only [List.length_append, List.length_cons, List.length_nil] at hn
  have hdot : Stops 16 (.mark .dot) (.identifier x :: k :: ks) :=
    .operand (Stops.opensArguments_of_ne (by decide) (by decide))
  rw [List.append_assoc]
  refine h.chains _ (Nat.le_refl _) _ .access _ _ _ _ (N + 1) n hdot (by omega)
    (fun e m he hm => ?_) (by omega)
  obtain ⟨m, rfl⟩ : ∃ p, m = p + 1 := ⟨m - 1, by omega⟩
  unfold accesses
  refine reads_kind.bind fun l hl => ?_
  subst hl
  rw [if_neg (by decide), if_pos rfl]
  refine reads_advance.bind fun _ _ => reads_kind.bind fun l hl => ?_
  subst hl
  refine reads_advance.bind fun _ _ => reads_get.bind fun c hc => ?_
  rw [if_neg (by simp [Cursor.kind_eq hc, hstop.ne_lParen])]
  exact (reads_spanFrom _).bind fun span _ => htail _ m (hQ e _ he) (by omega)

theorem chains_length (h : ReadTo 15 kinds P) (hQ : ∀ e span, P e → Q (.length e (untyped span))) :
    Chains 15 accesses
      (kinds ++ [.mark .dot, .identifier "length", .mark .lParen, .mark .rParen]) Q := by
  intro k ks stop T N n hstop hN htail hn
  simp only [List.length_append, List.length_cons, List.length_nil] at hn
  have hdot : Stops 16 (.mark .dot)
      (.identifier "length" :: .mark .lParen :: .mark .rParen :: k :: ks) :=
    .operand (Stops.opensArguments_of_ne (by decide) (by decide))
  rw [List.append_assoc]
  refine h.chains _ (Nat.le_refl _) _ .access _ _ _ _ (N + 1) n hdot (by omega)
    (fun e m he hm => ?_) (by omega)
  obtain ⟨m, rfl⟩ : ∃ p, m = p + 1 := ⟨m - 1, by omega⟩
  unfold accesses
  refine reads_kind.bind fun l hl => ?_
  subst hl
  rw [if_neg (by decide), if_pos rfl]
  refine reads_advance.bind fun _ _ => reads_kind.bind fun l hl => ?_
  subst hl
  refine reads_advance.bind fun _ _ => reads_get.bind fun c hc => ?_
  rw [if_pos (by simp [Cursor.kind_eq hc, Cursor.nextKind_eq hc])]
  refine reads_advance.bind fun _ _ => reads_advance.bind fun _ _ => ?_
  exact (reads_spanFrom _).bind fun span _ => htail _ m (hQ e _ he) (by omega)

theorem chains_update {op : UpdateOp} (h : ReadTo 15 kinds P)
    (hQ : ∀ e span, P e → Q (.update op false e (untyped span))) :
    Chains 15 accesses (kinds ++ [.mark op.mark]) Q := by
  intro k ks stop T N n hstop hN htail hn
  simp only [List.length_append, List.length_cons, List.length_nil] at hn
  have hbracket : TokenKind.mark op.mark ≠ .mark .lBracket := by cases op <;> decide
  have hdot : TokenKind.mark op.mark ≠ .mark .dot := by cases op <;> decide
  have hmark : Stops 16 (.mark op.mark) (k :: ks) :=
    .operand (Stops.opensArguments_of_ne (by cases op <;> decide) hbracket)
  rw [List.append_assoc]
  refine h.chains _ (Nat.le_refl _) _ .access _ _ _ _ (N + 1) n hmark (by omega)
    (fun e m he hm => ?_) (by omega)
  obtain ⟨m, rfl⟩ : ∃ p, m = p + 1 := ⟨m - 1, by omega⟩
  unfold accesses
  refine reads_kind.bind fun l hl => ?_
  subst hl
  rw [if_neg hbracket, if_neg hdot]
  simp only [UpdateOp.ofToken?_mark]
  refine reads_advance.bind fun _ _ => ?_
  exact (reads_spanFrom _).bind fun span _ => htail _ m (hQ e _ he) (by omega)

/-- Brackets behind an operand hold an index, since no arguments follow them. -/
theorem chains_index (h : ReadTo 15 kinds P) (hi : ReadTo 0 ls R) (hls : ls ≠ [])
    (hbalanced : Balanced ls) (hQ : ∀ a i span, P a → R i → Q (.index a i (untyped span))) :
    Chains 15 accesses (kinds ++ .mark .lBracket :: (ls ++ [.mark .rBracket])) Q := by
  obtain ⟨first, rest, rfl⟩ := List.exists_cons_of_ne_nil hls
  intro k ks stop T N n hstop hN htail hn
  simp only [List.length_append, List.length_cons, List.length_nil] at hn
  have hopen : Stops 16 (.mark .lBracket) (first :: rest ++ .mark .rBracket :: k :: ks) := by
    refine .operand ((opensArguments_brackets hbalanced k).trans ?_)
    simp [hstop.ne_lParen]
  simp only [List.append_assoc, List.cons_append, List.nil_append]
  refine h.chains _ (Nat.le_refl _) _ .access _ _ _ _ (32 * (rest.length + 1) + N + 1) n hopen
    (by omega) (fun e m he hm => ?_) (by omega)
  obtain ⟨m, rfl⟩ : ∃ p, m = p + 1 := ⟨m - 1, by omega⟩
  have hindex := hi.reads 0 (Nat.le_refl _) _ (k :: ks) m (.closing (m := .rBracket) (by decide) _)
    (by simp only [List.length_cons]; omega)
  unfold accesses
  refine reads_kind.bind fun l hl => ?_
  subst hl
  rw [if_pos rfl]
  refine reads_advance.bind fun _ _ => hindex.bind fun i hindex => ?_
  refine reads_expectMark.bind fun _ _ => ?_
  exact (reads_spanFrom _).bind fun span _ => htail _ m (hQ e i _ he hindex) (by omega)

/-- Before the arguments of a call, the kinds are read as the brackets of an array or as none. -/
def ReadsSuffix (kinds : List TokenKind) (S : Option (ArraySuffix Expr) → Prop) : Prop :=
  ∀ ks n, 32 * kinds.length + 1 ≤ n →
    opensArguments (kinds ++ .mark .lParen :: ks) = true ∧
      Reads (arraySuffix? n) (kinds ++ .mark .lParen :: ks) (.mark .lParen :: ks) S

theorem readsSuffix_none {S : Option (ArraySuffix Expr) → Prop} (hS : S none) :
    ReadsSuffix [] S := by
  intro ks n hn
  obtain ⟨n, rfl⟩ : ∃ m, n = m + 1 := ⟨n - 1, by omega⟩
  refine ⟨by simp [opensArguments], (reads_noSuffix (by decide)).mono ?_⟩
  rintro _ rfl
  exact hS

theorem readsSuffix_unsized {S : Option (ArraySuffix Expr) → Prop}
    (hS : ∀ span, S (some ⟨none, span⟩)) : ReadsSuffix [.mark .lBracket, .mark .rBracket] S := by
  intro ks n hn
  obtain ⟨n, rfl⟩ : ∃ m, n = m + 1 := ⟨n - 1, by omega⟩
  refine ⟨(opensArguments_brackets .nil _).trans (by simp), ?_⟩
  unfold arraySuffix?
  refine reads_here.bind fun _ _ => reads_acceptMark.bind fun b hb => ?_
  subst hb
  simp only [if_true]
  refine (reads_isAt _).bind fun b hb => ?_
  simp only [decide_true] at hb
  subst hb
  simp only [if_true]
  refine (Reads.pure (Q := (· = none)) rfl).bind fun size hsize => ?_
  subst hsize
  exact reads_expectMark.bind fun _ _ => (reads_spanFrom _).bind fun span _ => .pure (hS span)

theorem readsSuffix_sized {S : Option (ArraySuffix Expr) → Prop} (h : ReadTo 2 kinds P)
    (hkinds : Starts kinds) (hbalanced : Balanced kinds)
    (hS : ∀ e span, P e → S (some ⟨some e, span⟩)) :
    ReadsSuffix (.mark .lBracket :: (kinds ++ [.mark .rBracket])) S := by
  obtain ⟨first, rest, rfl, -, hfirst, -⟩ := hkinds
  intro ks n hn
  simp only [List.length_append, List.length_cons, List.length_nil] at hn
  obtain ⟨n, rfl⟩ : ∃ m, n = m + 1 := ⟨n - 1, by omega⟩
  have hstop := (Stops.closing (m := .rBracket) (by decide) (.mark .lParen :: ks)).mono
    (Nat.zero_le 2)
  have hsize := h.reads 2 (Nat.le_refl _) _ _ n hstop (by simp only [List.length_cons]; omega)
  simp only [List.cons_append, List.append_assoc, List.nil_append]
  refine ⟨(opensArguments_brackets hbalanced _).trans (by simp), ?_⟩
  refine (reads_suffix hfirst hsize).mono ?_
  rintro _ ⟨e, span, rfl, he⟩
  exact hS e span he

/-- Between parentheses, the kinds are read as the arguments of a call. -/
def ReadsArguments (kinds : List TokenKind) (A : List Expr → Prop) : Prop :=
  kinds = [] ∧ A [] ∨ Starts kinds ∧ ∀ ks n, 32 * kinds.length ≤ n →
    Reads (arguments n) (kinds ++ .mark .rParen :: ks) (.mark .rParen :: ks) A

theorem readsPrimary_call {x : String} {S : Option (ArraySuffix Expr) → Prop}
    {A : List Expr → Prop} (hs : ReadsSuffix ls S) (ha : ReadsArguments js A)
    (hQ : ∀ suffix args span last, S suffix → A args →
      Q (.call ⟨calleeName x, span⟩ suffix args .unresolved (untyped last))) :
    ReadsPrimary (.identifier x :: (ls ++ .mark .lParen :: (js ++ [.mark .rParen]))) Q := by
  intro k ks n _ hn
  simp only [List.length_append, List.length_cons, List.length_nil] at hn
  obtain ⟨n, rfl⟩ : ∃ m, n = m + 2 := ⟨n - 2, by omega⟩
  simp only [List.cons_append, List.append_assoc, List.nil_append]
  obtain ⟨hopen, hsuffix⟩ := hs (js ++ .mark .rParen :: k :: ks) n (by omega)
  obtain ⟨l, i, hkinds⟩ : ∃ l i, ls ++ .mark .lParen :: (js ++ .mark .rParen :: k :: ks) = l :: i :=
    List.exists_cons_of_ne_nil (by simp)
  rw [hkinds] at hopen hsuffix ⊢
  refine reads_primary_call (fun c hc => (Cursor.startsCall_eq (by simp) hc).trans hopen) ?_
  intro start
  have hcall : Reads (call (n + 1) x start) (.identifier x :: l :: i) (k :: ks) fun e =>
      ∃ suffix args span last, e = .call ⟨calleeName x, span⟩ suffix args .unresolved
        (untyped last) ∧ S suffix ∧ A args := by
    rcases ha with ⟨rfl, hnil⟩ | ⟨⟨first, rest, rfl, hparen, -, hvoid⟩, ha⟩
    · refine reads_call_of_list hsuffix (fun h => by simp at h) ?_
      rw [if_pos rfl]
      exact .pure hnil
    · refine reads_call_of_list hsuffix (fun h => ?_) ?_
      · obtain ⟨l, ls, rfl, hl⟩ := hvoid h
        exact ⟨l, _, rfl, hl⟩
      · rw [if_neg hparen]
        exact ha _ n (by omega)
  refine hcall.mono ?_
  rintro _ ⟨suffix, args, span, last, rfl, hsuffix, hargs⟩
  exact hQ suffix args span last hsuffix hargs

end Constructs

theorem readsArguments_printed {args : List Expr}
    (hread : ∀ a ∈ args, ReadTo 1 (parenthesize 1 a.rank a.printed) (Same a))
    (hstarts : ∀ a ∈ args, Starts (parenthesize 1 a.rank a.printed)) :
    ReadsArguments (argsPrinted args) fun ds => argsUnspanned ds = argsUnspanned args := by
  cases args with
  | nil => exact .inl ⟨rfl, rfl⟩
  | cons a as =>
    refine .inr ⟨(hstarts a (by simp)).append _, ?_⟩
    induction as generalizing a with
    | nil =>
      intro ks n hn
      obtain ⟨k, rest, hkinds, -⟩ := hstarts a (by simp)
      have hlength : 1 ≤ (argsPrinted [a]).length := by simp [argsPrinted, hkinds]
      obtain ⟨n, rfl⟩ : ∃ m, n = m + 1 := ⟨n - 1, by omega⟩
      have hstop := (Stops.closing (m := .rParen) (by decide) ks).mono (Nat.zero_le 1)
      simp only [argsPrinted, morePrinted, List.append_nil] at hn ⊢
      have ha := (hread a (by simp)).reads 1 (Nat.le_refl _) _ _ n hstop (by omega)
      refine reads_arguments_one ha fun d hd => ?_
      exact congrArg (fun e => [e]) hd
    | cons b as ih =>
      intro ks n hn
      have hrest := ih b (fun a ha => hread a (by simp [ha])) (fun a ha => hstarts a (by simp [ha]))
      have hprinted : argsPrinted (a :: b :: as) =
          parenthesize 1 a.rank a.printed ++ .mark .comma :: argsPrinted (b :: as) := rfl
      obtain ⟨k, rest, hkinds, -⟩ := (hstarts b (by simp)).append (morePrinted as)
      have hnext : argsPrinted (b :: as) = k :: rest := hkinds
      rw [hprinted] at hn ⊢
      simp only [List.length_append, List.length_cons] at hn
      obtain ⟨n, rfl⟩ : ∃ m, n = m + 1 := ⟨n - 1, by omega⟩
      have ha := (hread a (by simp)).reads 1 (Nat.le_refl _) _ _ n
        (.comma_mark (argsPrinted (b :: as) ++ .mark .rParen :: ks)) (by omega)
      have hothers := hrest ks n (by omega)
      rw [List.append_assoc, List.cons_append]
      rw [hnext] at ha hothers ⊢
      refine reads_arguments_cons ha hothers fun d ds hd hds => ?_
      rw [argsUnspanned, argsUnspanned, hds]
      exact congrArg (· :: _) hd

theorem readsSuffix_printed {suffix : Option (ArraySuffix Expr)}
    (h : ∀ e span, suffix = some ⟨some e, span⟩ →
      ReadBack e ∧ Part.All Part.Writable e.parts) :
    ReadsSuffix (suffixPrinted suffix) fun s => suffixUnspanned s = suffixUnspanned suffix := by
  rcases suffix with _ | ⟨_ | e, span⟩
  · exact readsSuffix_none rfl
  · exact readsSuffix_unsized fun _ => rfl
  · obtain ⟨hread, hwritable⟩ := h e span rfl
    refine readsSuffix_sized (hread.parenthesize hwritable (by omega))
      ((starts_printed hwritable).parenthesize _ _) ((balanced_printed e).parenthesize _ _) ?_
    intro d _ hd
    exact congrArg (fun e => some (⟨some e, ⟨0, 0⟩⟩ : ArraySuffix Expr)) hd

theorem readBack (e : Expr) (h : Part.All Part.Writable e.parts) : ReadBack e := by
  -- Each case reads its parts at the places where they are printed, in parentheses where their rank
  -- is too low for the place, and then takes the step of the grammar that joins them.
  induction e using Expr.induction with
  | int text n =>
    have hn := unspanned_untyped (n := n) (Part.all_cons.mp h).1.1.1
    refine .of_primary (by simp [Expr.rank])
      (readsPrimary_literal (fun _ _ _ => reads_int text) fun span => ?_)
    exact congrArg (Expr.int text) (hn span)
  | float text n =>
    have hn := unspanned_untyped (n := n) (Part.all_cons.mp h).1.1.1
    refine .of_primary (by simp [Expr.rank])
      (readsPrimary_literal (fun _ _ _ => reads_float text) fun span => ?_)
    exact congrArg (Expr.float text) (hn span)
  | bool b n =>
    have hn := unspanned_untyped (n := n) (Part.all_cons.mp h).1.1.1
    refine .of_primary (by simp [Expr.rank])
      (readsPrimary_literal (fun _ _ _ => reads_bool b) fun span => ?_)
    exact congrArg (Expr.bool b) (hn span)
  | var x binding n =>
    obtain ⟨hty, hbinding⟩ := (Part.all_cons.mp h).1.1
    have hn := unspanned_untyped (n := n) hty
    refine .of_primary (by simp [Expr.rank]) (readsPrimary_var fun span => ?_)
    simp only [Same, Expr.unspanned, hn, hbinding]
  | unary op e n ih =>
    obtain ⟨⟨hbare, -⟩, he⟩ := Part.all_cons.mp h
    have hn := unspanned_untyped (n := n) hbare.1
    have hne := ((starts_printed he).parenthesize 14 e.rank).ne_nil
    refine .of_reads (by simp [Expr.rank]) (starts_printed h).ne_nil ?_ not_loop_tightest
    refine readsAt_unary ((ih he).parenthesize he (by omega)) hne fun d span hd => ?_
    simp only [Same, Expr.unspanned, hn, hd.eq]
  | update op before e n ih =>
    obtain ⟨⟨hbare, -⟩, he⟩ := Part.all_cons.mp h
    have hn := unspanned_untyped (n := n) hbare.1
    cases before with
    | true =>
      have hne := ((starts_printed he).parenthesize 14 e.rank).ne_nil
      refine .of_reads (by simp [Expr.rank]) (starts_printed h).ne_nil ?_ not_loop_tightest
      refine readsAt_update ((ih he).parenthesize he (by omega)) hne fun d span hd => ?_
      simp only [Same, Expr.unspanned, hn, hd.eq]
    | false =>
      refine .of_access (by simp [Expr.rank]) ?_
      refine chains_update ((ih he).parenthesize he (by omega)) fun d span hd => ?_
      simp only [Same, Expr.unspanned, hn, hd.eq]
  | binary op l r n ihl ihr =>
    obtain ⟨⟨hbare, -⟩, hparts⟩ := Part.all_cons.mp h
    obtain ⟨hl, hr⟩ := Part.all_append.mp hparts
    have hn := unspanned_untyped (n := n) hbare.1
    have hright := ((starts_printed hr).parenthesize (op.level + 4) r.rank).ne_nil
    have hlevel := op.level_lt
    simp only [BinaryOp.levels] at hlevel
    have hplace : min (Expr.binary op l r n).rank 15 = op.level + 3 := by
      simp only [Expr.rank]
      omega
    -- The loop of the operator takes the left operand in at its own place; only the right one is
    -- read further in.
    rw [ReadBack, hplace]
    refine .of_chains (.operator _ op.level_lt) (starts_printed h).ne_nil (by omega) ?_
    refine chains_binary ((ihl hl).parenthesize hl (by omega))
      ((ihr hr).parenthesize hr (by omega)) hright ?_
    intro d f span hd hf
    simp only [Same, Expr.unspanned, hn, hd.eq, hf.eq]
  | assign op t v n iht ihv =>
    obtain ⟨⟨hbare, hop⟩, hparts⟩ := Part.all_cons.mp h
    obtain ⟨ht, hv⟩ := Part.all_append.mp hparts
    have hn := unspanned_untyped (n := n) hbare.1
    have htarget := ((starts_printed ht).parenthesize 3 t.rank).ne_nil
    have hvalue := ((starts_printed hv).parenthesize 1 v.rank).ne_nil
    refine .of_reads (by simp [Expr.rank]) (starts_printed h).ne_nil ?_ not_loop_assignment
    -- The target is printed as an operand of operators, so that no conditional can take it in.
    refine readsAt_assign hop ((iht ht).parenthesize ht (by omega)) htarget
      ((ihv hv).parenthesize hv (by omega)) hvalue ?_
    intro d f span hd hf
    simp only [Same, Expr.unspanned, hn, hd.eq, hf.eq]
  | ternary c t e n ihc iht ihe =>
    obtain ⟨⟨hbare, -⟩, hparts⟩ := Part.all_cons.mp h
    obtain ⟨hct, he⟩ := Part.all_append.mp hparts
    obtain ⟨hc, ht⟩ := Part.all_append.mp hct
    have hn := unspanned_untyped (n := n) hbare.1
    have hcondition := ((starts_printed hc).parenthesize 3 c.rank).ne_nil
    have hfalse := ((starts_printed he).parenthesize 1 e.rank).ne_nil
    refine .of_reads (by simp [Expr.rank]) (starts_printed h).ne_nil ?_ not_loop_conditional
    refine readsAt_ternary ((ihc hc).parenthesize hc (by omega)) hcondition
      ((iht ht).mono (Nat.zero_le _)) (starts_printed ht).ne_nil
      ((ihe he).parenthesize he (by omega)) hfalse ?_
    intro d f g span hd hf hg
    simp only [Same, Expr.unspanned, hn, hd.eq, hf.eq, hg.eq]
  | comma l r n ihl ihr =>
    obtain ⟨⟨hbare, -⟩, hparts⟩ := Part.all_cons.mp h
    obtain ⟨hl, hr⟩ := Part.all_append.mp hparts
    have hn := unspanned_untyped (n := n) hbare.1
    have hright := ((starts_printed hr).parenthesize 1 r.rank).ne_nil
    refine .of_chains .comma (starts_printed h).ne_nil (by simp [Expr.rank]) ?_
    refine chains_comma ((ihl hl).mono (Nat.zero_le _)) ((ihr hr).parenthesize hr (by omega))
      hright ?_
    intro d f span hd hf
    simp only [Same, Expr.unspanned, hn, hd.eq, hf.eq]
  | call callee suffix args target n ihsuffix ihargs =>
    obtain ⟨⟨⟨hty, htarget⟩, hname⟩, hparts⟩ := Part.all_cons.mp h
    obtain ⟨hsize, hargs⟩ := Part.all_append.mp hparts
    rw [Expr.all_allParts] at hargs
    have hn := unspanned_untyped (n := n) hty
    have hsuffix : ReadsSuffix (suffixPrinted suffix) _ := readsSuffix_printed fun e span he => by
      subst he
      exact ⟨ihsuffix e span rfl hsize, hsize⟩
    have harguments : ReadsArguments (argsPrinted args) _ := readsArguments_printed
      (fun a ha => (ihargs a ha (hargs a ha)).parenthesize (hargs a ha) (by omega))
      (fun a ha => (starts_printed (hargs a ha)).parenthesize _ _)
    refine .of_primary (by simp [Expr.rank]) (readsPrimary_call hsuffix harguments ?_)
    intro s as span last hs has
    simp only [Same, Expr.unspanned, hs, has, hn, htarget, CalleeName.Plain.calleeName_text hname]
  | field e x n ih =>
    obtain ⟨⟨hbare, -⟩, he⟩ := Part.all_cons.mp h
    have hn := unspanned_untyped (n := n) hbare.1
    refine .of_access (by simp [Expr.rank]) ?_
    refine chains_field ((ih he).parenthesize he (by omega)) fun d span hd => ?_
    simp only [Same, Expr.unspanned, hn, hd.eq]
  | length e n ih =>
    obtain ⟨⟨hbare, -⟩, he⟩ := Part.all_cons.mp h
    have hn := unspanned_untyped (n := n) hbare.1
    refine .of_access (by simp [Expr.rank]) ?_
    refine chains_length ((ih he).parenthesize he (by omega)) fun d span hd => ?_
    simp only [Same, Expr.unspanned, hn, hd.eq]
  | index a i n iha ihi =>
    obtain ⟨⟨hbare, -⟩, hparts⟩ := Part.all_cons.mp h
    obtain ⟨ha, hi⟩ := Part.all_append.mp hparts
    have hn := unspanned_untyped (n := n) hbare.1
    refine .of_access (by simp [Expr.rank]) ?_
    -- The index is balanced, so the search for arguments behind the brackets looks past it.
    refine chains_index ((iha ha).parenthesize ha (by omega)) ((ihi hi).mono (Nat.zero_le _))
      (starts_printed hi).ne_nil (balanced_printed i) ?_
    intro d f span hd hf
    simp only [Same, Expr.unspanned, hn, hd.eq, hf.eq]

/-- An expression that is written with as few parentheses as the grammar allows and ended by a
semicolon is read back as it was, up to spans, and what is read are its tokens and no more. What
`fuelFor` gives for these tokens is fuel enough. -/
theorem expression_reads_printed {e : Expr} (h : Part.All Part.Writable e.parts) {c : Cursor}
    {tail : List TokenKind} (hc : c.kinds = e.printed ++ .mark .semi :: tail) {n : Nat}
    (hn : 32 * e.printed.length ≤ n) :
    ∃ d c', expression n c = .ok (d, c') ∧ d.unspanned = e.unspanned ∧
      c'.tokens = c.tokens.drop e.printed.length := by
  have hread := (readBack e h).reads 0 (Nat.zero_le _) (.mark .semi) tail n
    (.closing (m := .semi) (by decide) _) (by omega)
  obtain ⟨d, c', hd, hsuffix, hkinds, hsame⟩ := hread c hc
  refine ⟨d, c', hd, hsame, ?_⟩
  have hlength := congrArg List.length hc
  have hlength' := congrArg List.length hkinds
  simp only [Cursor.kinds, List.length_append, List.length_cons, List.length_map] at hlength
  simp only [Cursor.kinds, List.length_cons, List.length_map] at hlength'
  rw [List.suffix_iff_eq_drop] at hsuffix
  rw [hsuffix]
  congr 1
  simp only [Cursor.tokens, List.length_cons]
  omega

/-- `a = -(x - (y - z[2])) * float[1](1.0)[0] ? b : c`, as a tree. -/
def negatedProduct : Expr :=
  let note : Note := untyped ⟨0, 0⟩
  let var (x : String) : Expr := .var x none note
  let float : Callee := ⟨.basic (.scalar .float), ⟨0, 0⟩⟩
  let element : Expr := .index (var "z") (.int "2" note) note
  let difference : Expr := .binary .sub (var "x") (.binary .sub (var "y") element note) note
  let array : Expr :=
    .call float (some ⟨some (.int "1" note), ⟨0, 0⟩⟩) [.float "1.0" note] .unresolved note
  let product : Expr :=
    .binary .mul (.unary .neg difference note) (.index array (.int "0" note) note) note
  .assign .plain (var "a") (.ternary product (var "b") (var "c") note) note

/-- The tokens that write it, and a semicolon. -/
def negatedProductStart : Cursor :=
  .ofTokens ⟨.identifier "a", ⟨0, 1⟩⟩
    ((negatedProduct.printed.drop 1 ++ [TokenKind.mark .semi]).map fun k => ⟨k, ⟨1, 2⟩⟩)

theorem negatedProduct_read :
    negatedProduct.printed =
      [.identifier "a", .mark .eq, .mark .minus, .mark .lParen, .identifier "x", .mark .minus,
        .mark .lParen, .identifier "y", .mark .minus, .identifier "z", .mark .lBracket,
        .intLiteral "2", .mark .rBracket, .mark .rParen, .mark .rParen, .mark .star,
        .identifier "float", .mark .lBracket, .intLiteral "1", .mark .rBracket, .mark .lParen,
        .floatLiteral "1.0", .mark .rParen, .mark .lBracket, .intLiteral "0", .mark .rBracket,
        .mark .question, .identifier "b", .mark .colon, .identifier "c"] ∧
      ∃ d c', expression (fuelFor negatedProduct.printed.length) negatedProductStart = .ok (d, c') ∧
        d.unspanned = negatedProduct.unspanned ∧ c'.tokens = [⟨.mark .semi, ⟨1, 2⟩⟩] := by
  have hfloat : CalleeName.Plain (.basic (.scalar .float)) := by
    show BasicTy.ofName? _ = _
    decide
  have hwritable : Part.All Part.Writable negatedProduct.parts := by
    simp [negatedProduct, Expr.parts, suffixParts, Expr.allParts, Part.Writable, Expr.Writable,
      Expr.Bare, Expr.ty, Expr.note, untyped, hfloat, AssignOp.all]
  have hkinds : negatedProductStart.kinds = negatedProduct.printed ++ [.mark .semi] := rfl
  exact ⟨rfl, expression_reads_printed hwritable hkinds (by decide)⟩

end Parse

end Shader
