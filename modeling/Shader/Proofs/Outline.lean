import Shader.Proofs.Token.Order
import Shader.Tree

/-! Outlines of syntax trees. An outline keeps of a tree only its spans, with those of its children
below each of them, in the order in which they stand in the source. -/

namespace Shader

inductive Outline where
  | node (span : Span) (children : List Outline)

namespace Outline

def span : Outline → Span
  | node s _ => s

def children : Outline → List Outline
  | node _ os => os

end Outline

mutual

def Expr.outline : Expr → Outline
  | .int _ n | .float _ n | .bool _ n | .var _ _ n => .node n.span []
  | .unary _ e n | .update _ _ e n | .field e _ n | .length e n => .node n.span [e.outline]
  | .binary _ l r n | .assign _ l r n | .comma l r n | .index l r n =>
    .node n.span [l.outline, r.outline]
  | .ternary c t e n => .node n.span [c.outline, t.outline, e.outline]
  | .call callee suffix args _ n =>
    .node n.span (.node callee.span (suffixOutlines suffix) :: Expr.outlines args)

def Expr.outlines : List Expr → List Outline
  | [] => []
  | e :: es => e.outline :: Expr.outlines es

def suffixOutlines : Option (ArraySuffix Expr) → List Outline
  | none => []
  | some ⟨none, span⟩ => [.node span []]
  | some ⟨some e, span⟩ => [.node span [e.outline]]

end

theorem Expr.span_outline (e : Expr) : e.outline.span = e.span := by
  cases e <;> rfl

theorem Expr.outline_withSpan (e : Expr) (span : Span) :
    (e.withSpan span).outline = .node span e.outline.children := by
  cases e <;> rfl

theorem Expr.outlines_eq (es : List Expr) : Expr.outlines es = es.map Expr.outline := by
  induction es with
  | nil => rfl
  | cons e es ih => rw [Expr.outlines, ih, List.map_cons]

theorem suffixOutlines_some (a : ArraySuffix Expr) :
    suffixOutlines (some a) = [.node a.span (a.size.toList.map Expr.outline)] := by
  rcases a with ⟨_ | e, span⟩ <;> rfl

def Qualifiers.outline (q : Qualifiers) : Outline :=
  .node q.span (q.layout.map fun i => .node i.span [])

def MemberName.outline (m : MemberName) : Outline :=
  .node m.span (suffixOutlines m.array)

mutual

def TypeSpec.outline : TypeSpec → Outline
  | .basic _ note | .named _ note => .node note.span (suffixOutlines note.array)
  | .struct _ members span note =>
    .node note.span (.node span (memberOutlines members) :: suffixOutlines note.array)

def memberOutlines : List (Member TypeSpec) → List Outline
  | [] => []
  | ⟨quals, spec, names, span⟩ :: rest =>
    .node span (quals.outline :: spec.outline :: names.map MemberName.outline) ::
      memberOutlines rest

end

theorem TypeSpec.span_outline (spec : TypeSpec) : spec.outline.span = spec.span := by
  cases spec <;> rfl

def Member.outline (m : Member TypeSpec) : Outline :=
  .node m.span (m.qualifiers.outline :: m.spec.outline :: m.names.map MemberName.outline)

theorem memberOutlines_eq (ms : List (Member TypeSpec)) :
    memberOutlines ms = ms.map Member.outline := by
  induction ms with
  | nil => rfl
  | cons m ms ih =>
    rw [memberOutlines, ih]
    rfl

def Declarator.outline (d : Declarator) : Outline :=
  .node d.span (suffixOutlines d.array ++ d.init.toList.map Expr.outline)

def InvariantTarget.outline (t : InvariantTarget) : Outline :=
  .node t.span []

def InterfaceBlock.outlines (b : InterfaceBlock) : List Outline :=
  b.qualifiers.outline :: (memberOutlines b.members ++ b.instance?.toList.map Declarator.outline)

def Declaration.outline : Declaration → Outline
  | .vars quals spec ds span =>
    .node span (quals.outline :: spec.outline :: ds.map Declarator.outline)
  | .block b span => .node span b.outlines
  | .precision _ spec span => .node span [spec.outline]
  | .invariant targets span => .node span (targets.map InvariantTarget.outline)

theorem Declaration.outline_eq (d : Declaration) : d.outline = .node d.span d.outline.children := by
  cases d <;> rfl

mutual

def Stmt.outline : Stmt → Outline
  | .expr e span | .caseLabel e span | .giveBack (some e) span => .node span [e.outline]
  | .block ⟨stmts, inner⟩ span => .node span [.node inner (Stmt.outlines stmts)]
  | .decl d span => .node span [d.outline]
  | .branch c t none span => .node span [c.outline, t.outline]
  | .branch c t (some e) span => .node span [c.outline, t.outline, e.outline]
  | .switch e ⟨stmts, inner⟩ span => .node span [e.outline, .node inner (Stmt.outlines stmts)]
  | .whileLoop c body span => .node span [c.outline, body.outline]
  | .doLoop body c span => .node span [body.outline, c.outline]
  | .forLoop none c u body span =>
    .node span (c.toList.map Expr.outline ++ u.toList.map Expr.outline ++ [body.outline])
  | .forLoop (some init) c u body span =>
    .node span
      (init.outline :: (c.toList.map Expr.outline ++ u.toList.map Expr.outline ++ [body.outline]))
  | .giveBack none span | .empty span | .defaultLabel span | .continueLoop span
  | .breakLoop span | .discard span => .node span []

def Stmt.outlines : List Stmt → List Outline
  | [] => []
  | s :: ss => s.outline :: Stmt.outlines ss

end

theorem Stmt.outline_giveBack (value : Option Expr) (span : Span) :
    (Stmt.giveBack value span).outline = .node span (value.toList.map Expr.outline) := by
  cases value <;> rfl

theorem Stmt.outlines_eq (ss : List Stmt) : Stmt.outlines ss = ss.map Stmt.outline := by
  induction ss with
  | nil => rfl
  | cons s ss ih => rw [Stmt.outlines, ih, List.map_cons]

def Block.outline (b : Block Stmt) : Outline :=
  .node b.span (Stmt.outlines b.stmts)

def ParamDecl.outline (p : ParamDecl) : Outline :=
  .node p.span (p.qualifiers.outline :: p.spec.outline :: suffixOutlines p.array)

def FunctionDecl.outline (f : FunctionDecl) : Outline :=
  .node f.span (f.qualifiers.outline :: f.spec.outline ::
    (f.params.map ParamDecl.outline ++ f.body.toList.map Block.outline))

def TopLevel.outline : TopLevel → Outline
  | .declaration d => d.outline
  | .function f => f.outline

/-- The offset at which one of the tokens starts or ends. -/
def IsEdge (tokens : List Token) (offset : Nat) : Prop :=
  ∃ t ∈ tokens, offset = t.span.start ∨ offset = t.span.stop

/-- Every span goes from token edge to token edge and has the spans of the children inside, one
after the other. -/
inductive Outline.Sound (tokens : List Token) : Outline → Prop where
  | node {span : Span} {children : List Outline} :
    span.start ≤ span.stop → IsEdge tokens span.start → IsEdge tokens span.stop →
    (children.map Outline.span).Pairwise (fun s t => s.stop ≤ t.start) →
    (∀ o ∈ children, span.start ≤ o.span.start ∧ o.span.stop ≤ span.stop) →
    (∀ o ∈ children, Outline.Sound tokens o) → Outline.Sound tokens (.node span children)

/-- Everything in the outline starts at an offset with the property. -/
inductive Outline.Starts (P : Nat → Prop) : Outline → Prop where
  | node {span : Span} {children : List Outline} :
    P span.start → (∀ o ∈ children, Outline.Starts P o) → Outline.Starts P (.node span children)

theorem Outline.starts_node {P : Nat → Prop} {span : Span} {children : List Outline} :
    (Outline.node span children).Starts P ↔ P span.start ∧ ∀ o ∈ children, o.Starts P := by
  constructor
  · intro h
    cases h with
    | node hspan hchildren => exact ⟨hspan, hchildren⟩
  · rintro ⟨hspan, hchildren⟩
    exact .node hspan hchildren

theorem Outline.Starts.span {P : Nat → Prop} {o : Outline} (h : o.Starts P) : P o.span.start := by
  cases h with
  | node hspan _ => exact hspan

def extent (ts : List Token) : Span :=
  ⟨(ts.head?.map (·.span.start)).getD 0, (ts.getLast?.map (·.span.stop)).getD 0⟩

namespace Outline

/-- The outlines stand in this order on the tokens, each from its first token to its last one. What
no token belongs to is a point in front of the token that follows. -/
inductive Row : List Outline → List Token → Prop where
  | nil : Row [] []
  | gap {os : List Outline} {ts : List Token} (t : Token) : Row os ts → Row os (t :: ts)
  | point {os : List Outline} {t : Token} {ts : List Token} :
    Row os (t :: ts) → Row (.node ⟨t.span.start, t.span.start⟩ [] :: os) (t :: ts)
  | node {os children : List Outline} {us vs : List Token} :
    us ≠ [] → Row children us → Row os vs → Row (.node (extent us) children :: os) (us ++ vs)

/-- The outline takes up all of the tokens. -/
structure Stands (o : Outline) (ts : List Token) : Prop where
  ne_nil : ts ≠ []
  span : o.span = extent ts
  row : Row o.children ts

variable {os ps : List Outline} {o : Outline} {tokens ts us vs : List Token} {t u : Token}

theorem Stands.single (h : o.Stands ts) : Row [o] ts := by
  obtain ⟨span, children⟩ := o
  obtain ⟨hne, rfl, hrow⟩ := h
  have hnode := Row.node hne hrow .nil
  rwa [List.append_nil] at hnode

theorem Row.append (h : Row os us) (h' : Row ps vs) : Row (os ++ ps) (us ++ vs) := by
  induction h with
  | nil => exact h'
  | gap t _ ih => exact .gap t ih
  | point _ ih => exact .point ih
  | node hne hrow _ _ ih =>
    rw [List.cons_append, List.append_assoc]
    exact .node hne hrow ih

theorem Row.ne_nil (h : Row os ts) (ho : o ∈ os) : ts ≠ [] := by
  induction h with
  | nil => cases ho
  | gap | point => exact List.cons_ne_nil _ _
  | node hne => exact List.append_ne_nil_of_left_ne_nil hne _

theorem Row.gaps (ts : List Token) : Row [] ts := by
  induction ts with
  | nil => exact .nil
  | cons t ts ih => exact .gap t ih

end Outline

/-- The tokens follow each other, and none of them is empty. -/
structure Ordered (ts : List Token) : Prop where
  pairwise : ts.Pairwise Token.Before
  nonempty : ∀ t ∈ ts, t.span.start < t.span.stop

section Extent

variable {ts us vs : List Token} {t u : Token}

theorem Ordered.of_infix (h : Ordered ts) (hus : us <:+: ts) : Ordered us :=
  ⟨h.pairwise.sublist hus.sublist, fun t ht => h.nonempty t (hus.subset ht)⟩

theorem Ordered.left (h : Ordered (us ++ vs)) : Ordered us :=
  h.of_infix (List.prefix_append us vs).isInfix

theorem Ordered.right (h : Ordered (us ++ vs)) : Ordered vs :=
  h.of_infix (List.suffix_append us vs).isInfix

theorem Ordered.tail (h : Ordered (t :: ts)) : Ordered ts :=
  h.of_infix (List.suffix_cons t ts).isInfix

theorem Ordered.before (h : Ordered (us ++ vs)) (ht : t ∈ us) (hu : u ∈ vs) :
    t.span.stop ≤ u.span.start :=
  ((List.pairwise_append.mp h.pairwise).2.2 t ht u hu).2

theorem extent_start_mem (h : ts ≠ []) : ∃ t ∈ ts, (extent ts).start = t.span.start := by
  obtain ⟨t, us, rfl⟩ := List.exists_cons_of_ne_nil h
  exact ⟨t, by simp, rfl⟩

theorem extent_stop_mem (h : ts ≠ []) : ∃ t ∈ ts, (extent ts).stop = t.span.stop := by
  refine ⟨ts.getLast h, List.getLast_mem h, ?_⟩
  simp [extent, List.getLast?_eq_some_getLast h]

theorem extent_append_stop (us : List Token) (h : vs ≠ []) :
    (extent (us ++ vs)).stop = (extent vs).stop := by
  simp [extent, List.getLast?_append, List.getLast?_eq_some_getLast h]

theorem Ordered.mem_extent (h : Ordered ts) (ht : t ∈ ts) :
    (extent ts).start ≤ t.span.start ∧ t.span.stop ≤ (extent ts).stop := by
  obtain ⟨us, vs, rfl⟩ := List.append_of_mem ht
  have hlt := h.nonempty t ht
  constructor
  · cases us with
    | nil => exact Nat.le_refl _
    | cons u us =>
      have hu := h.nonempty u (by simp)
      have : u.span.stop ≤ t.span.start := h.before (List.mem_cons_self) (List.mem_cons_self)
      show u.span.start ≤ _
      omega
  · obtain ⟨u, hu, heq⟩ := extent_stop_mem (List.cons_ne_nil t vs)
    rw [extent_append_stop us (by simp), heq]
    rcases List.mem_cons.mp hu with rfl | hu
    · exact Nat.le_refl _
    · have := (List.pairwise_cons.mp (List.pairwise_append.mp h.pairwise).2.1).1 u hu
      have := this.2
      have := h.nonempty u (by simp [hu])
      omega

theorem Ordered.extent_within (h : Ordered ts) (hus : us ⊆ ts) (hne : us ≠ []) :
    (extent ts).start ≤ (extent us).start ∧ (extent us).stop ≤ (extent ts).stop := by
  obtain ⟨t, ht, hstart⟩ := extent_start_mem hne
  obtain ⟨u, hu, hstop⟩ := extent_stop_mem hne
  rw [hstart, hstop]
  exact ⟨(h.mem_extent (hus ht)).1, (h.mem_extent (hus hu)).2⟩

theorem Ordered.merge_extent (h : Ordered ts) (hus : us <+: ts) (hvs : vs <:+ ts) (hu : us ≠ [])
    (hv : vs ≠ []) : (extent us).merge (extent vs) = extent ts := by
  have hstart : (extent us).start = (extent ts).start := by
    obtain ⟨ws, rfl⟩ := hus
    obtain ⟨t, us, rfl⟩ := List.exists_cons_of_ne_nil hu
    rfl
  have hstop : (extent vs).stop = (extent ts).stop := by
    obtain ⟨ws, rfl⟩ := hvs
    exact (extent_append_stop ws hv).symm
  have hu' := h.extent_within hus.subset hu
  have hv' := h.extent_within hvs.subset hv
  rw [Span.merge]
  show Span.mk _ _ = Span.mk (extent ts).start (extent ts).stop
  congr 1 <;> omega

end Extent

namespace Outline

variable {os : List Outline} {o : Outline} {tokens ts : List Token}

/-- Outlines over tokens in order are sound, lie among the tokens and do not overlap. -/
theorem Row.sound (h : Row os ts) (hts : ts ⊆ tokens) (hord : Ordered ts) :
    (∀ o ∈ os, o.Sound tokens ∧ (extent ts).start ≤ o.span.start ∧ o.span.stop ≤ (extent ts).stop) ∧
    (os.map Outline.span).Pairwise (fun s t => s.stop ≤ t.start) := by
  induction h with
  | nil => simp
  | @gap os ts t hrow ih =>
    obtain ⟨hall, hpair⟩ := ih (fun u hu => hts (by simp [hu])) hord.tail
    refine ⟨fun o ho => ⟨(hall o ho).1, ?_⟩, hpair⟩
    have hwithin := hord.extent_within (List.subset_cons_self t ts) (hrow.ne_nil ho)
    have := (hall o ho).2
    omega
  | @point os t ts hrow ih =>
    obtain ⟨hall, hpair⟩ := ih hts hord
    -- The token that follows the point is still there for the next outline.
    have hmem : t ∈ t :: ts := by simp
    have hwithin := hord.mem_extent hmem
    have hlt := hord.nonempty t hmem
    have hedge : IsEdge tokens t.span.start := ⟨t, hts hmem, .inl rfl⟩
    refine ⟨List.forall_mem_cons.mpr ⟨⟨?_, hwithin.1, ?_⟩, hall⟩, ?_⟩
    · exact .node (Nat.le_refl _) hedge hedge .nil (by simp) (by simp)
    · show t.span.start ≤ _
      omega
    · refine List.pairwise_cons.mpr ⟨fun s hs => ?_, hpair⟩
      obtain ⟨o, ho, rfl⟩ := List.mem_map.mp hs
      exact (hall o ho).2.1
  | @node os children us vs hne hrow hrest ih ih' =>
    obtain ⟨hinner, hinnerPair⟩ := ih (fun t ht => hts (by simp [ht])) hord.left
    obtain ⟨hall, hpair⟩ := ih' (fun t ht => hts (by simp [ht])) hord.right
    have hwithin := hord.extent_within (List.subset_append_left us vs) hne
    -- The span goes from the first of its tokens to the last one, so what comes later starts behind
    -- it.
    obtain ⟨t, ht, hstart⟩ := extent_start_mem hne
    obtain ⟨u, hu, hstop⟩ := extent_stop_mem hne
    have hle := hord.left.mem_extent ht
    have hlt := hord.nonempty t (by simp [ht])
    refine ⟨List.forall_mem_cons.mpr ⟨⟨?_, hwithin⟩, fun o ho => ⟨(hall o ho).1, ?_⟩⟩, ?_⟩
    · refine .node (by omega) ⟨t, hts (by simp [ht]), .inl hstart⟩
        ⟨u, hts (by simp [hu]), .inr hstop⟩ hinnerPair (fun o ho => (hinner o ho).2)
        fun o ho => (hinner o ho).1
    · have := hord.extent_within (List.subset_append_right us vs) (hrest.ne_nil ho)
      have := (hall o ho).2
      omega
    · refine List.pairwise_cons.mpr ⟨fun s hs => ?_, hpair⟩
      obtain ⟨o, ho, rfl⟩ := List.mem_map.mp hs
      obtain ⟨v, hv, hstart'⟩ := extent_start_mem (hrest.ne_nil ho)
      have := hord.before hu hv
      have := (hall o ho).2
      show (extent us).stop ≤ _
      omega

end Outline

end Shader
