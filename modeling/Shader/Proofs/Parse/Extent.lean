import Shader.Proofs.Parse.Run
import Shader.Proofs.Token.Order
import Shader.Proofs.Tree

/-! Where the parts of an expression stand. The span of an expression goes from its first token to
its last one, so its operands stand inside it one after the other, and none of them fills it. -/

namespace Shader

/-- The expressions right below a node, without the size in the brackets of a callee. -/
def Expr.operands : Expr → List Expr
  | .int _ _ | .float _ _ | .bool _ _ | .var _ _ _ => []
  | .unary _ e _ | .update _ _ e _ | .field e _ _ | .length e _ => [e]
  | .binary _ l r _ | .assign _ l r _ | .comma l r _ | .index l r _ => [l, r]
  | .ternary c t e _ => [c, t, e]
  | .call _ _ args _ _ => args

/-- The inner spans stand one after the other inside the outer one, and each is shorter than it. -/
def Span.Spaces (outer : Span) (inner : List Span) : Prop :=
  inner.Pairwise (fun s t => s.stop ≤ t.start) ∧
    ∀ s ∈ inner, outer.start ≤ s.start ∧ s.start < s.stop ∧ s.stop ≤ outer.stop ∧
      s.length < outer.length

def Part.Spaced : Part → Prop
  | .node e => e.span.Spaces (e.operands.map Expr.span)
  | _ => True

namespace Cursor

/-- Tokens have been taken since `p`, and the last one of them ends before the token here. -/
structure Past (p : Nat) (c : Cursor) : Prop where
  inOrder : InOrder c.tokens
  start : p ≤ c.before.start
  taken : c.before.start < c.before.stop
  ahead : c.before.stop ≤ c.token.span.start

variable {c : Cursor} {p : Nat}

theorem rest_ne_nil (h : InOrder c.tokens) (hkind : c.kind ≠ .eof) : c.rest ≠ [] := by
  intro hrest
  obtain ⟨t, ht, heof⟩ := h.ends
  rw [tokens, hrest] at ht
  obtain rfl := Option.some.inj ht
  exact hkind heof

theorem before_next (h : InOrder c.tokens) (hkind : c.kind ≠ .eof) :
    c.next.before = c.token.span := by
  unfold next
  split
  · rename_i hrest
    exact (rest_ne_nil h hkind hrest).elim
  · rfl

theorem past_next (h : InOrder c.tokens) (hkind : c.kind ≠ .eof) :
    c.next.Past c.token.span.start := by
  have hbefore := before_next h hkind
  obtain ⟨t, ts, hrest⟩ := List.exists_cons_of_ne_nil (rest_ne_nil h hkind)
  have htokens : c.tokens = c.token :: t :: ts := congrArg (c.token :: ·) hrest
  have hnext : c.next.token = t := by
    unfold next
    rw [hrest]
  have hpair := h.ordered
  rw [htokens] at hpair
  obtain ⟨hfirst, hlast⟩ := (List.pairwise_cons.mp hpair).1 t (by simp)
  refine ⟨h.of_suffix c.tokens_next (by simp [tokens]), ?_, ?_, ?_⟩
  · exact Nat.le_of_eq (by rw [hbefore])
  · rwa [hbefore]
  · rwa [hbefore, hnext]

theorem Past.mono {q : Nat} (h : c.Past q) (hle : p ≤ q) : c.Past p :=
  ⟨h.inOrder, Nat.le_trans hle h.start, h.taken, h.ahead⟩

theorem Past.le (h : c.Past p) : p ≤ c.token.span.start := by
  obtain ⟨-, hstart, htaken, hahead⟩ := h
  omega

theorem Past.next (h : c.Past p) (hkind : c.kind ≠ .eof) : c.next.Past p :=
  (past_next h.inOrder hkind).mono h.le

theorem Past.le_next (h : c.Past p) (hkind : c.kind ≠ .eof) :
    c.before.stop ≤ c.next.token.span.start := by
  obtain ⟨-, hstart, htaken, hahead⟩ := past_next h.inOrder hkind
  have := h.ahead
  omega

end Cursor

namespace Parse

/-- The expressions stand one after the other between the two offsets. -/
def Row (a : Nat) : List Expr → Nat → Prop
  | [], b => a ≤ b
  | e :: es, b => a ≤ e.span.start ∧ e.span.start < e.span.stop ∧ Row e.span.stop es b

section Row

variable {a b : Nat} {es : List Expr}

theorem Row.mono {a' : Nat} (h : Row a es b) (hle : a' ≤ a) : Row a' es b := by
  cases es with
  | nil => exact Nat.le_trans hle h
  | cons e es => exact ⟨Nat.le_trans hle h.1, h.2⟩

theorem Row.mem (h : Row a es b) :
    ∀ e ∈ es, a ≤ e.span.start ∧ e.span.start < e.span.stop ∧ e.span.stop ≤ b := by
  induction es generalizing a with
  | nil => simp
  | cons e es ih =>
    obtain ⟨hstart, he, hes⟩ := h
    have hlast : e.span.stop ≤ b := by
      cases es with
      | nil => exact hes
      | cons d ds =>
        have := ih hes d (by simp)
        omega
    intro d hd
    rcases List.mem_cons.mp hd with rfl | hd
    · exact ⟨hstart, he, hlast⟩
    · have := ih hes d hd
      omega

theorem Row.pairwise (h : Row a es b) :
    (es.map Expr.span).Pairwise fun s t => s.stop ≤ t.start := by
  induction es generalizing a with
  | nil => exact .nil
  | cons e es ih =>
    refine List.pairwise_cons.mpr ⟨fun s hs => ?_, ih h.2.2⟩
    obtain ⟨d, hd, rfl⟩ := List.mem_map.mp hs
    exact (h.2.2.mem d hd).1

theorem Row.shorter (h : Row a es b) (hes : 1 < es.length) :
    ∀ e ∈ es, e.span.stop - e.span.start < b - a := by
  cases es with
  | nil => simp at hes
  | cons d es =>
    cases es with
    | nil => simp at hes
    | cons e es =>
      have hfirst := h.mem d (by simp)
      have hsecond := h.2.2.mem e (by simp)
      intro f hf
      rcases List.mem_cons.mp hf with rfl | hf
      · omega
      · have := h.2.2.mem f hf
        omega

theorem Row.spaces {outer : Span} (h : Row a es b) (ha : outer.start ≤ a) (hb : b ≤ outer.stop)
    (hroom : outer.start < a ∨ b < outer.stop ∨ 1 < es.length) :
    outer.Spaces (es.map Expr.span) := by
  refine ⟨h.pairwise, fun s hs => ?_⟩
  obtain ⟨e, he, rfl⟩ := List.mem_map.mp hs
  have hmem := h.mem e he
  refine ⟨by omega, hmem.2.1, by omega, ?_⟩
  rw [Span.length, Span.length]
  rcases hroom with hroom | hroom | hroom
  · omega
  · omega
  · have := h.shorter hroom e he
    omega

end Row

/-- The expression has been read from `p` up to the cursor, and so have its parts. -/
structure Reaches (p : Nat) (e : Expr) (c : Cursor) : Prop where
  past : c.Past p
  span : e.span = ⟨p, c.before.stop⟩
  spaced : Part.All Part.Spaced e.parts

namespace Reaches

variable {p q a b : Nat} {c c' : Cursor} {d e l r : Expr} {rest : List Part}

theorem node (hpast : c.Past p) (hspan : e.span = ⟨p, c.before.stop⟩) (hrow : Row a e.operands b)
    (ha : p ≤ a) (hb : b ≤ c.before.stop)
    (hroom : p < a ∨ b < c.before.stop ∨ 1 < e.operands.length)
    (hparts : e.parts = .node e :: rest) (hrest : Part.All Part.Spaced rest) : Reaches p e c := by
  refine ⟨hpast, hspan, ?_⟩
  rw [hparts, Part.all_cons]
  refine ⟨?_, hrest⟩
  show e.span.Spaces (e.operands.map Expr.span)
  rw [hspan]
  exact hrow.spaces ha hb hroom

theorem row (h : Reaches p e c) : Row p [e] c.before.stop := by
  have := h.past.start
  have := h.past.taken
  simp only [Row, h.span]
  omega

theorem leaf (hpast : c.Past p) (hspan : e.span = ⟨p, c.before.stop⟩) (hoperands : e.operands = [])
    (hparts : e.parts = .node e :: rest) (hrest : Part.All Part.Spaced rest) : Reaches p e c := by
  have hroom : p < c.before.stop := Nat.lt_of_le_of_lt hpast.start hpast.taken
  refine node (a := c.before.stop) hpast hspan ?_ (by omega) (Nat.le_refl _) (.inl hroom)
    hparts hrest
  rw [hoperands]
  exact Nat.le_refl _

theorem token (hc : InOrder c.tokens) (hkind : c.kind ≠ .eof) (hspan : e.span = c.token.span)
    (hoperands : e.operands = []) (hparts : e.parts = [.node e]) :
    Reaches c.token.span.start e c.next := by
  refine leaf (Cursor.past_next hc hkind) ?_ hoperands hparts (by simp)
  rw [hspan, Cursor.before_next hc hkind]

theorem pair (hl : Reaches p l c) (hr : Reaches q r c') (hq : c.before.stop ≤ q)
    (hspan : e.span = l.span.merge r.span) (hoperands : e.operands = [l, r])
    (hparts : e.parts = .node e :: (l.parts ++ r.parts)) : Reaches p e c' := by
  obtain ⟨-, hp, hc, -⟩ := hl.past
  obtain ⟨hc', hq', hc'', hahead⟩ := hr.past
  have hrow : Row p e.operands c'.before.stop := by
    simp only [hoperands, Row, hl.span, hr.span]
    omega
  refine node (a := p) ⟨hc', by omega, hc'', hahead⟩ ?_ hrow (Nat.le_refl _) (Nat.le_refl _)
    (.inr (.inr (by simp [hoperands]))) hparts (Part.all_append.mpr ⟨hl.spaced, hr.spaced⟩)
  rw [hspan, hl.span, hr.span, Span.merge]
  congr 1 <;> dsimp only <;> omega

theorem behind (h : Reaches p d c) (hc : c'.Past c.token.span.start)
    (hspan : e.span = d.span.merge c'.before) (hoperands : e.operands = [d])
    (hparts : e.parts = .node e :: d.parts) : Reaches p e c' := by
  obtain ⟨-, hp, hbefore, hahead⟩ := h.past
  obtain ⟨hc', hstart, htaken, hahead'⟩ := hc
  have hrow : Row p e.operands c.before.stop := by
    simp only [hoperands, Row, h.span]
    omega
  refine node (a := p) ⟨hc', by omega, htaken, hahead'⟩ ?_ hrow (Nat.le_refl _) (by omega)
    (.inr (.inl (by omega))) hparts h.spaced
  rw [hspan, h.span, Span.merge]
  congr 1 <;> dsimp only <;> omega

theorem inFront (hc : InOrder c.tokens) (hkind : c.kind ≠ .eof)
    (h : Reaches c.next.token.span.start d c') (hspan : e.span = c.token.span.merge d.span)
    (hoperands : e.operands = [d]) (hparts : e.parts = .node e :: d.parts) :
    Reaches c.token.span.start e c' := by
  have hbefore := Cursor.before_next hc hkind
  obtain ⟨-, hstart, htaken, hahead⟩ := Cursor.past_next hc hkind
  obtain ⟨hc', hstart', htaken', hahead'⟩ := h.past
  rw [hbefore] at hstart htaken hahead
  have hrow : Row c.next.token.span.start e.operands c'.before.stop := by
    simp only [hoperands, Row, h.span]
    omega
  refine node ⟨hc', by omega, htaken', hahead'⟩ ?_ hrow (by omega) (Nat.le_refl _)
    (.inl (by omega)) hparts h.spaced
  rw [hspan, h.span, Span.merge]
  congr 1 <;> dsimp only <;> omega

theorem index (ha : Reaches p l c) (hi : Reaches q r c') (hq : c.before.stop ≤ q)
    (hkind : c'.kind ≠ .eof) (hspan : e.span = l.span.merge c'.next.before)
    (hoperands : e.operands = [l, r]) (hparts : e.parts = .node e :: (l.parts ++ r.parts)) :
    Reaches p e c'.next := by
  obtain ⟨-, hp, hc, -⟩ := ha.past
  obtain ⟨hc', hq', hc'', hahead⟩ := hi.past
  obtain ⟨hnext, hstart, htaken, hahead'⟩ := Cursor.past_next hc' hkind
  have hrow : Row p e.operands c'.before.stop := by
    simp only [hoperands, Row, ha.span, hi.span]
    omega
  refine node (a := p) ⟨hnext, by omega, htaken, hahead'⟩ ?_ hrow (Nat.le_refl _) (by omega)
    (.inr (.inl (by omega))) hparts (Part.all_append.mpr ⟨ha.spaced, hi.spaced⟩)
  rw [hspan, ha.span, Span.merge]
  congr 1 <;> dsimp only <;> omega

theorem ternary {c₁ c₂ c₃ : Cursor} {q₂ q₃ : Nat} {x y z : Expr} {note : Note}
    (hx : Reaches p x c₁) (hy : Reaches q₂ y c₂) (hz : Reaches q₃ z c₃)
    (hq₂ : c₁.before.stop ≤ q₂) (hq₃ : c₂.before.stop ≤ q₃)
    (hnote : note.span = x.span.merge z.span) : Reaches p (.ternary x y z note) c₃ := by
  obtain ⟨-, hp, hc₁, -⟩ := hx.past
  obtain ⟨-, hq₂', hc₂, -⟩ := hy.past
  obtain ⟨hc, hq₃', hc₃, hahead⟩ := hz.past
  have hrow : Row p (Expr.ternary x y z note).operands c₃.before.stop := by
    simp only [Expr.operands, Row, hx.span, hy.span, hz.span]
    omega
  refine node (a := p) ⟨hc, by omega, hc₃, hahead⟩ ?_ hrow (Nat.le_refl _) (Nat.le_refl _)
    (.inr (.inr (by simp [Expr.operands]))) rfl
    (Part.all_append.mpr ⟨Part.all_append.mpr ⟨hx.spaced, hy.spaced⟩, hz.spaced⟩)
  show note.span = _
  rw [hnote, hx.span, hz.span, Span.merge]
  congr 1 <;> dsimp only <;> omega

theorem call {c₁ : Cursor} {callee : Callee} {suffix : Option (ArraySuffix Expr)}
    {args : List Expr} {target : Target} {note : Note} (hc : InOrder c.tokens)
    (hkind : c.kind ≠ .eof) (hopen : c₁.Past c.next.token.span.start)
    (hlast : c'.Past c₁.token.span.start) (hrow : Row c₁.token.span.start args b)
    (hb : b ≤ c'.before.stop) (hnote : note.span = c.token.span.merge c'.before)
    (hsuffix : Part.All Part.Spaced (suffixParts suffix))
    (hargs : Part.All Part.Spaced (Expr.allParts args)) :
    Reaches c.token.span.start (.call callee suffix args target note) c' := by
  have hbefore := Cursor.before_next hc hkind
  obtain ⟨-, hstart, htaken, hahead⟩ := Cursor.past_next hc hkind
  rw [hbefore] at hstart htaken hahead
  have hle := hopen.le
  obtain ⟨hc', hstart', htaken', hahead'⟩ := hlast
  refine node ⟨hc', by omega, htaken', hahead'⟩ ?_ hrow (by omega) hb (.inl (by omega)) rfl
    (Part.all_append.mpr ⟨hsuffix, hargs⟩)
  show note.span = _
  rw [hnote, Span.merge]
  congr 1 <;> omega

end Reaches

theorem Span.Spaces.widen {outer wider : Span} {inner : List Span} (h : outer.Spaces inner)
    (hstart : wider.start ≤ outer.start) (hstop : outer.stop ≤ wider.stop) :
    wider.Spaces inner := by
  refine ⟨h.1, fun s hs => ?_⟩
  have := h.2 s hs
  simp only [Span.length] at this ⊢
  omega

theorem parts_withSpan (e : Expr) (span : Span) :
    ∃ rest, e.parts = .node e :: rest ∧
      (e.withSpan span).parts = .node (e.withSpan span) :: rest ∧
      (e.withSpan span).operands = e.operands ∧ (e.withSpan span).span = span := by
  cases e <;> exact ⟨_, rfl, rfl, rfl, rfl⟩

theorem Reaches.parenthesized {c c' : Cursor} {e : Expr} (hc : InOrder c.tokens)
    (hkind : c.kind ≠ .eof) (h : Reaches c.next.token.span.start e c') (hkind' : c'.kind ≠ .eof) :
    Reaches c.token.span.start (e.withSpan (c.token.span.merge c'.next.before)) c'.next := by
  have hbefore := Cursor.before_next hc hkind
  obtain ⟨-, hstart, htaken, hahead⟩ := Cursor.past_next hc hkind
  rw [hbefore] at hstart htaken hahead
  obtain ⟨hc', hstart', htaken', hahead'⟩ := h.past
  obtain ⟨hnext, hstart'', htaken'', hahead''⟩ := Cursor.past_next hc' hkind'
  have hmerge : c.token.span.merge c'.next.before = ⟨c.token.span.start, c'.next.before.stop⟩ := by
    rw [Span.merge]
    congr 1 <;> omega
  obtain ⟨rest, hparts, hwith, hoperands, hspan⟩ :=
    parts_withSpan e (c.token.span.merge c'.next.before)
  refine ⟨⟨hnext, by omega, htaken'', hahead''⟩, hspan.trans hmerge, ?_⟩
  have hspaced := h.spaced
  rw [hparts, Part.all_cons] at hspaced
  rw [hwith, Part.all_cons]
  refine ⟨?_, hspaced.2⟩
  have hself : e.span.Spaces (e.operands.map Expr.span) := hspaced.1
  show (e.withSpan _).span.Spaces _
  rw [hoperands, hspan, hmerge]
  rw [h.span] at hself
  exact Span.Spaces.widen hself (by dsimp only; omega) (by dsimp only; omega)

/-- What the parsers with fuel `n` read reaches from the first token to the cursor. -/
structure Extents (n : Nat) : Prop where
  expression {c c' : Cursor} {e : Expr} :
    InOrder c.tokens → expression n c = .ok (e, c') → Reaches c.token.span.start e c'
  commaTail {p : Nat} {c c' : Cursor} {l e : Expr} :
    Reaches p l c → commaTail n l c = .ok (e, c') → Reaches p e c'
  assignment {c c' : Cursor} {e : Expr} :
    InOrder c.tokens → assignment n c = .ok (e, c') → Reaches c.token.span.start e c'
  conditional {c c' : Cursor} {e : Expr} :
    InOrder c.tokens → conditional n c = .ok (e, c') → Reaches c.token.span.start e c'
  binary {level : Nat} {c c' : Cursor} {e : Expr} :
    InOrder c.tokens → binary n level c = .ok (e, c') → Reaches c.token.span.start e c'
  binaryTail {p level : Nat} {c c' : Cursor} {l e : Expr} :
    Reaches p l c → binaryTail n level l c = .ok (e, c') → Reaches p e c'
  unary {c c' : Cursor} {e : Expr} :
    InOrder c.tokens → unary n c = .ok (e, c') → Reaches c.token.span.start e c'
  accesses {p : Nat} {c c' : Cursor} {d e : Expr} :
    Reaches p d c → accesses n d c = .ok (e, c') → Reaches p e c'
  primary {c c' : Cursor} {e : Expr} :
    InOrder c.tokens → primary n c = .ok (e, c') → Reaches c.token.span.start e c'
  call {c c' : Cursor} {x : String} {e : Expr} :
    InOrder c.tokens → c.kind ≠ .eof → call n x c.token.span c = .ok (e, c') →
      Reaches c.token.span.start e c'
  arguments {c c' : Cursor} {es : List Expr} :
    InOrder c.tokens → arguments n c = .ok (es, c') →
      c'.Past c.token.span.start ∧ Row c.token.span.start es c'.before.stop ∧
        Part.All Part.Spaced (Expr.allParts es)
  arraySuffix {c c' : Cursor} {s : Option (ArraySuffix Expr)} :
    InOrder c.tokens → arraySuffix? n c = .ok (s, c') →
      (c' = c ∨ c'.Past c.token.span.start) ∧ Part.All Part.Spaced (suffixParts s)

namespace Extents

variable {n : Nat} (ih : Extents n) {p level : Nat} {c c' : Cursor} {d e l : Expr}

include ih

theorem expression_step (hc : InOrder c.tokens) (h : Parse.expression (n + 1) c = .ok (e, c')) :
    Reaches c.token.span.start e c' := by
  unfold Parse.expression at h
  obtain ⟨l, c₁, hl, h⟩ := run_bind h
  exact ih.commaTail (ih.assignment hc hl) h

theorem commaTail_step (hl : Reaches p l c) (h : Parse.commaTail (n + 1) l c = .ok (e, c')) :
    Reaches p e c' := by
  unfold Parse.commaTail at h
  rw [run_acceptMark] at h
  split at h
  · rename_i hkind
    have hne : c.kind ≠ .eof := by simp [hkind]
    simp only [if_true] at h
    obtain ⟨r, c₁, hr, h⟩ := run_bind h
    have hright := ih.assignment (hl.past.next hne).inOrder hr
    exact ih.commaTail (hl.pair hright (hl.past.le_next hne) rfl rfl rfl) h
  · obtain ⟨rfl, rfl⟩ := run_pure h
    exact hl

theorem assignment_step (hc : InOrder c.tokens) (h : Parse.assignment (n + 1) c = .ok (e, c')) :
    Reaches c.token.span.start e c' := by
  unfold Parse.assignment at h
  obtain ⟨t, c₁, ht, h⟩ := run_bind h
  have htarget := ih.conditional hc ht
  rw [run_kind] at h
  cases hop : AssignOp.ofToken? c₁.kind with
  | some op =>
    have hne : c₁.kind ≠ .eof := fun hkind => by simpa [hkind] using List.find?_some hop
    simp only [hop, run_advance] at h
    obtain ⟨v, c₂, hv, h⟩ := run_bind h
    obtain ⟨rfl, rfl⟩ := run_pure h
    have hvalue := ih.assignment (htarget.past.next hne).inOrder hv
    exact htarget.pair hvalue (htarget.past.le_next hne) rfl rfl rfl
  | none =>
    simp only [hop] at h
    obtain ⟨rfl, rfl⟩ := run_pure h
    exact htarget

theorem conditional_step (hc : InOrder c.tokens) (h : Parse.conditional (n + 1) c = .ok (e, c')) :
    Reaches c.token.span.start e c' := by
  unfold Parse.conditional at h
  obtain ⟨x, c₁, hx, h⟩ := run_bind h
  have hcondition := ih.binary hc hx
  rw [run_acceptMark] at h
  split at h
  · rename_i hkind
    have hne : c₁.kind ≠ .eof := by simp [hkind]
    simp only [if_true] at h
    obtain ⟨y, c₂, hy, h⟩ := run_bind h
    obtain ⟨hcolon, h⟩ := run_expectMark _ _ _ h
    have hne₂ : c₂.kind ≠ .eof := by simp [hcolon]
    obtain ⟨z, c₃, hz, h⟩ := run_bind h
    obtain ⟨rfl, rfl⟩ := run_pure h
    have htrue := ih.expression (hcondition.past.next hne).inOrder hy
    have hfalse := ih.assignment (htrue.past.next hne₂).inOrder hz
    exact hcondition.ternary htrue hfalse (hcondition.past.le_next hne)
      (htrue.past.le_next hne₂) rfl
  · obtain ⟨rfl, rfl⟩ := run_pure h
    exact hcondition

theorem binary_step (hc : InOrder c.tokens) (h : Parse.binary (n + 1) level c = .ok (e, c')) :
    Reaches c.token.span.start e c' := by
  unfold Parse.binary at h
  split at h
  · exact ih.unary hc h
  · obtain ⟨l, c₁, hl, h⟩ := run_bind h
    exact ih.binaryTail (ih.binary hc hl) h

theorem binaryTail_step (hl : Reaches p l c)
    (h : Parse.binaryTail (n + 1) level l c = .ok (e, c')) : Reaches p e c' := by
  unfold Parse.binaryTail at h
  rw [run_kind] at h
  cases hop : BinaryOp.ofToken? level c.kind with
  | some op =>
    have hne : c.kind ≠ .eof := fun hkind => by simpa [hkind] using List.find?_some hop
    simp only [hop, run_advance] at h
    obtain ⟨r, c₁, hr, h⟩ := run_bind h
    have hright := ih.binary (hl.past.next hne).inOrder hr
    exact ih.binaryTail (hl.pair hright (hl.past.le_next hne) rfl rfl rfl) h
  | none =>
    simp only [hop] at h
    obtain ⟨rfl, rfl⟩ := run_pure h
    exact hl

theorem unary_step (hc : InOrder c.tokens) (h : Parse.unary (n + 1) c = .ok (e, c')) :
    Reaches c.token.span.start e c' := by
  unfold Parse.unary at h
  rw [run_here, run_kind] at h
  cases hop : UnaryOp.ofToken? c.kind with
  | some op =>
    have hne : c.kind ≠ .eof := fun hkind => by simpa [hkind] using List.find?_some hop
    simp only [hop, run_advance] at h
    obtain ⟨d, c₁, hd, h⟩ := run_bind h
    obtain ⟨rfl, rfl⟩ := run_pure h
    have hoperand := ih.unary (Cursor.past_next hc hne).inOrder hd
    exact hoperand.inFront hc hne rfl rfl rfl
  | none =>
    cases hupdate : UpdateOp.ofToken? c.kind with
    | some op =>
      have hne : c.kind ≠ .eof := fun hkind => by simpa [hkind] using List.find?_some hupdate
      simp only [hop, hupdate, run_advance] at h
      obtain ⟨d, c₁, hd, h⟩ := run_bind h
      obtain ⟨rfl, rfl⟩ := run_pure h
      have hoperand := ih.unary (Cursor.past_next hc hne).inOrder hd
      exact hoperand.inFront hc hne rfl rfl rfl
    | none =>
      simp only [hop, hupdate] at h
      obtain ⟨d, c₁, hd, h⟩ := run_bind h
      exact ih.accesses (ih.primary hc hd) h

theorem accesses_step (hd : Reaches p d c) (h : Parse.accesses (n + 1) d c = .ok (e, c')) :
    Reaches p e c' := by
  unfold Parse.accesses at h
  rw [run_kind] at h
  split at h
  · rename_i hkind
    have hne : c.kind ≠ .eof := by simp [hkind]
    rw [run_advance] at h
    obtain ⟨i, c₁, hi, h⟩ := run_bind h
    obtain ⟨hclose, h⟩ := run_expectMark _ _ _ h
    rw [run_spanFrom] at h
    have hindex := ih.expression (hd.past.next hne).inOrder hi
    exact ih.accesses (hd.index hindex (hd.past.le_next hne) (by simp [hclose]) rfl rfl rfl) h
  split at h
  · rename_i hkind
    have hne : c.kind ≠ .eof := by simp [hkind]
    have hdot := Cursor.past_next hd.past.inOrder hne
    rw [run_advance, run_kind] at h
    cases hx : c.next.kind with
    | identifier x =>
      have hname := hdot.next (by simp [hx])
      simp only [hx, run_advance, run_get] at h
      split at h
      · rename_i hlength
        simp only [Bool.and_eq_true, decide_eq_true_eq] at hlength
        obtain ⟨⟨-, hopen⟩, hclose⟩ := hlength
        have hparen := hname.next (by simp [hopen])
        have hlast := hparen.next (show c.next.next.nextKind ≠ _ by simp [hclose])
        rw [run_advance, run_advance, run_spanFrom] at h
        exact ih.accesses (hd.behind hlast rfl rfl rfl) h
      · rw [run_spanFrom] at h
        exact ih.accesses (hd.behind hname rfl rfl rfl) h
    | _ =>
      simp only [hx] at h
      cases h
  cases hop : UpdateOp.ofToken? c.kind with
  | some op =>
    have hne : c.kind ≠ .eof := fun hkind => by simpa [hkind] using List.find?_some hop
    simp only [hop, run_advance, run_spanFrom] at h
    exact ih.accesses (hd.behind (Cursor.past_next hd.past.inOrder hne) rfl rfl rfl) h
  | none =>
    simp only [hop] at h
    obtain ⟨rfl, rfl⟩ := run_pure h
    exact hd

theorem primary_step (hc : InOrder c.tokens) (h : Parse.primary (n + 1) c = .ok (e, c')) :
    Reaches c.token.span.start e c' := by
  unfold Parse.primary at h
  rw [run_here, run_kind] at h
  cases hkind : c.kind with
  | intLiteral text | floatLiteral text =>
    simp only [hkind, run_advance] at h
    obtain ⟨rfl, rfl⟩ := run_pure h
    exact .token hc (by simp [hkind]) rfl rfl rfl
  | keyword word =>
    have hne : c.kind ≠ .eof := by simp [hkind]
    cases word with
    | trueWord | falseWord =>
      simp only [hkind, run_advance] at h
      obtain ⟨rfl, rfl⟩ := run_pure h
      exact .token hc hne rfl rfl rfl
    | _ =>
      simp only [hkind] at h
      cases h
  | mark m =>
    have hne : c.kind ≠ .eof := by simp [hkind]
    cases m with
    | lParen =>
      simp only [hkind, run_advance] at h
      obtain ⟨d, c₁, hd, h⟩ := run_bind h
      obtain ⟨hclose, h⟩ := run_expectMark _ _ _ h
      rw [run_spanFrom] at h
      obtain ⟨rfl, rfl⟩ := run_pure h
      have hinner := ih.expression (Cursor.past_next hc hne).inOrder hd
      exact hinner.parenthesized hc hne (by simp [hclose])
    | _ =>
      simp only [hkind] at h
      cases h
  | identifier x =>
    have hne : c.kind ≠ .eof := by simp [hkind]
    simp only [hkind, run_get] at h
    split at h
    · exact ih.call hc hne h
    · rw [run_advance] at h
      obtain ⟨rfl, rfl⟩ := run_pure h
      exact .token hc hne rfl rfl rfl
  | eof =>
    simp only [hkind] at h
    cases h

theorem arguments_step {es : List Expr} (hc : InOrder c.tokens)
    (h : Parse.arguments (n + 1) c = .ok (es, c')) :
    c'.Past c.token.span.start ∧ Row c.token.span.start es c'.before.stop ∧
      Part.All Part.Spaced (Expr.allParts es) := by
  unfold Parse.arguments at h
  obtain ⟨a, c₁, ha, h⟩ := run_bind h
  have harg := ih.assignment hc ha
  rw [run_acceptMark] at h
  split at h
  · rename_i hkind
    have hne : c₁.kind ≠ .eof := by simp [hkind]
    simp only [if_true] at h
    obtain ⟨as, c₂, has, h⟩ := run_bind h
    obtain ⟨rfl, rfl⟩ := run_pure h
    obtain ⟨hpast, hrow, hspaced⟩ := ih.arguments (harg.past.next hne).inOrder has
    have hle := harg.past.le_next hne
    obtain ⟨hstart, hfirst, -⟩ := harg.row
    rw [harg.span] at hfirst
    have hrest : Row a.span.stop as c₂.before.stop := by
      rw [harg.span]
      exact hrow.mono hle
    refine ⟨hpast.mono (by dsimp only at hfirst; omega), ⟨hstart, ?_, hrest⟩, ?_⟩
    · rwa [harg.span]
    · rw [Expr.allParts, Part.all_append]
      exact ⟨harg.spaced, hspaced⟩
  · simp only [Bool.false_eq_true, if_false] at h
    obtain ⟨rfl, rfl⟩ := run_pure h
    exact ⟨harg.past, harg.row, by simpa [Expr.allParts] using harg.spaced⟩

theorem arraySuffix_step {s : Option (ArraySuffix Expr)} (hc : InOrder c.tokens)
    (h : Parse.arraySuffix? (n + 1) c = .ok (s, c')) :
    (c' = c ∨ c'.Past c.token.span.start) ∧ Part.All Part.Spaced (suffixParts s) := by
  unfold Parse.arraySuffix? at h
  rw [run_here, run_acceptMark] at h
  split at h
  · rename_i hkind
    have hne : c.kind ≠ .eof := by simp [hkind]
    have hopen := Cursor.past_next hc hne
    simp only [if_true, run_atMark, decide_eq_true_eq] at h
    split at h
    · obtain ⟨size, c₁, hsize, h⟩ := run_bind h
      obtain ⟨rfl, rfl⟩ := run_pure hsize
      obtain ⟨hclose, h⟩ := run_expectMark _ _ _ h
      rw [run_spanFrom] at h
      obtain ⟨rfl, rfl⟩ := run_pure h
      exact ⟨.inr (hopen.next (by simp [hclose])), by simp [suffixParts]⟩
    · obtain ⟨size, c₁, hsize, h⟩ := run_bind h
      rw [map_eq_pure_bind] at hsize
      obtain ⟨d, c₂, hd, hsize⟩ := run_bind hsize
      obtain ⟨rfl, rfl⟩ := run_pure hsize
      obtain ⟨hclose, h⟩ := run_expectMark _ _ _ h
      rw [run_spanFrom] at h
      obtain ⟨rfl, rfl⟩ := run_pure h
      have hsize := ih.conditional hopen.inOrder hd
      have hlast := hsize.past.next (by simp [hclose])
      exact ⟨.inr (hlast.mono hopen.le), hsize.spaced⟩
  · simp only [Bool.false_eq_true, if_false] at h
    obtain ⟨rfl, rfl⟩ := run_pure h
    exact ⟨.inl rfl, by simp [suffixParts]⟩

theorem call_step {x : String} (hc : InOrder c.tokens) (hkind : c.kind ≠ .eof)
    (h : Parse.call (n + 1) x c.token.span c = .ok (e, c')) : Reaches c.token.span.start e c' := by
  unfold Parse.call at h
  rw [run_advance] at h
  obtain ⟨suffix, c₁, hs, h⟩ := run_bind h
  rw [run_spanFrom] at h
  obtain ⟨hopen, h⟩ := run_expectMark _ _ _ h
  rw [run_atVoidList] at h
  have hname := Cursor.past_next hc hkind
  obtain ⟨hmoved, hsuffix⟩ := ih.arraySuffix hname.inOrder hs
  have hlparen : c₁.next.Past c.next.token.span.start := by
    have hne : c₁.kind ≠ .eof := by simp [hopen]
    rcases hmoved with rfl | hmoved
    · exact Cursor.past_next hname.inOrder hne
    · exact hmoved.next hne
  -- The list is the word `void`, or empty, or has arguments; a row of no arguments may stand
  -- anywhere between the parentheses.
  split at h
  · rename_i hvoid
    simp only [Bool.and_eq_true, decide_eq_true_eq] at hvoid
    rw [run_advance] at h
    obtain ⟨hclose, h⟩ := run_expectMark _ _ _ h
    rw [run_spanFrom] at h
    obtain ⟨rfl, rfl⟩ := run_pure h
    have hword := Cursor.past_next hlparen.inOrder (by simp [hvoid.1])
    have hlast := hword.next (by simp [hclose])
    have hrow : Row c₁.next.token.span.start [] c₁.next.token.span.start := Nat.le_refl _
    have hb := Nat.le_of_lt (Nat.lt_of_le_of_lt hlast.start hlast.taken)
    exact .call hc hkind hlparen hlast hrow hb rfl hsuffix (by simp [Expr.allParts])
  · rw [run_atMark] at h
    split at h
    · obtain ⟨args, c₂, hargs, h⟩ := run_bind h
      obtain ⟨rfl, rfl⟩ := run_pure hargs
      obtain ⟨hclose, h⟩ := run_expectMark _ _ _ h
      rw [run_spanFrom] at h
      obtain ⟨rfl, rfl⟩ := run_pure h
      have hlast := Cursor.past_next hlparen.inOrder (by simp [hclose])
      have hrow : Row c₁.next.token.span.start [] c₁.next.token.span.start := Nat.le_refl _
      have hb := Nat.le_of_lt (Nat.lt_of_le_of_lt hlast.start hlast.taken)
      exact .call hc hkind hlparen hlast hrow hb rfl hsuffix (by simp [Expr.allParts])
    · obtain ⟨args, c₂, hargs, h⟩ := run_bind h
      obtain ⟨hclose, h⟩ := run_expectMark _ _ _ h
      rw [run_spanFrom] at h
      obtain ⟨rfl, rfl⟩ := run_pure h
      have hne : c₂.kind ≠ .eof := by simp [hclose]
      obtain ⟨hpast, hrow, hspaced⟩ := ih.arguments hlparen.inOrder hargs
      have hstep := Cursor.past_next hpast.inOrder hne
      have hb : c₂.before.stop ≤ c₂.next.before.stop := by
        have := hpast.ahead
        have := hstep.start
        have := hstep.taken
        omega
      exact .call hc hkind hlparen (hpast.next hne) hrow hb rfl hsuffix hspaced

end Extents

theorem extents (n : Nat) : Extents n := by
  induction n with
  | zero =>
    constructor
    all_goals intros; rename_i h; cases h
  | succ n ih =>
    exact {
      expression := ih.expression_step
      commaTail := ih.commaTail_step
      assignment := ih.assignment_step
      conditional := ih.conditional_step
      binary := ih.binary_step
      binaryTail := ih.binaryTail_step
      unary := ih.unary_step
      accesses := ih.accesses_step
      primary := ih.primary_step
      call := ih.call_step
      arguments := ih.arguments_step
      arraySuffix := ih.arraySuffix_step }

/-- Whole expressions reach from their first token to their last one. -/
theorem reaches_of_read {n : Nat} {parser : Parser Expr} {c c' : Cursor} {e : Expr}
    (hparser : parser ∈ [expression n, assignment n, conditional n]) (hc : InOrder c.tokens)
    (h : parser c = .ok (e, c')) : Reaches c.token.span.start e c' := by
  simp only [List.mem_cons, List.not_mem_nil, or_false] at hparser
  rcases hparser with rfl | rfl | rfl
  · exact (extents n).expression hc h
  · exact (extents n).assignment hc h
  · exact (extents n).conditional hc h

end Parse

end Shader
