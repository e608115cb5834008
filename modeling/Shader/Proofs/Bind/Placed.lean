import Shader.Proofs.Bind.Actions
import Shader.Proofs.Locates
import Shader.Proofs.Outline

/-! Where the problems of binding are. Binding keeps the outline of a tree, and every problem that
it reports starts where some node of the tree starts. -/

namespace Shader

namespace Bind

instance : Reporter Bind where
  -- What was reported before the action stays in the state that it leaves.
  Reports P x Q := ∀ s : BindState, (∀ d ∈ s.problems, P d.span.start) →
    (∀ d ∈ (x s).2.problems, P d.span.start) ∧ Q (x s).1
  reports_pure h := fun _ hs => ⟨hs, h⟩
  reports_bind hx hf := fun s hs =>
    have hstep := hx s hs
    hf _ hstep.2 _ hstep.1

section Primitives

variable {α : Type} {P : Nat → Prop}

theorem locates_get : Locates P (get : Bind BindState) fun _ => True :=
  fun _ hs => ⟨hs, trivial⟩

theorem locates_modify {f : BindState → BindState} (hf : ∀ s, (f s).problems = s.problems) :
    Locates P (modify f : Bind PUnit) fun _ => True :=
  fun s hs => ⟨fun d hd => hs d (hf s ▸ hd), trivial⟩

theorem locates_report (problem : BindProblem) {span : Span} (h : P span.start) :
    Locates P (report problem span) fun _ => True :=
  fun _ hs => ⟨List.forall_mem_cons.mpr ⟨h, hs⟩, trivial⟩

theorem locates_reported {Q : α → Prop} (problem : BindProblem) {span : Span} {a : α}
    (h : P span.start) (ha : Q a) : Locates P (do report problem span; return a) Q :=
  (locates_report problem h).bind fun _ _ => .pure ha

theorem locates_lookup (name : String) : Locates P (lookup? name) fun _ => True :=
  locates_get.bind fun _ _ => .pure trivial

theorem locates_define {name : String} {b : Binding} {span : Span} (h : P span.start) :
    Locates P (define name b span) fun _ => True := by
  refine locates_get.bind fun s _ => ?_
  split
  · exact locates_modify fun _ => rfl
  · exact locates_report _ h

theorem locates_addOverload {name : String} {o : Overload} (h : P o.span.start) :
    Locates P (addOverload name o) fun _ => True := by
  refine locates_get.bind fun s _ => ?_
  split
  · exact locates_modify fun _ => rfl
  · exact locates_report _ h

theorem locates_nested {x : Bind α} {Q : α → Prop} (hx : Locates P x Q) :
    Locates P (nested x) Q := by
  refine Locates.bind (locates_modify fun _ => rfl) fun _ _ => hx.bind fun a ha => ?_
  exact Locates.bind (locates_modify fun _ => rfl) fun _ _ => .pure ha

theorem locates_freshStruct : Locates P freshStruct fun _ => True :=
  fun _ hs => ⟨hs, trivial⟩

theorem locates_declarationKind : Locates P declarationKind fun _ => True :=
  locates_get.bind fun _ _ => .pure trivial

theorem locates_reference (name : String) {span : Span} (h : P span.start) :
    Locates P (reference name span) fun _ => True := by
  refine (locates_lookup name).bind fun r _ => ?_
  split
  · exact .pure trivial
  · exact locates_reported _ h trivial
  · exact locates_reported _ h trivial

theorem locates_namedTy (name : String) {span : Span} (h : P span.start) :
    Locates P (namedTy name span) fun _ => True := by
  refine (locates_lookup name).bind fun r _ => ?_
  split
  · exact .pure trivial
  · exact locates_reported _ h trivial
  · exact locates_reported _ h trivial

theorem locates_plainTarget (name : String) {span : Span} (h : P span.start) :
    Locates P (plainTarget name span) fun _ => True := by
  refine (locates_lookup name).bind fun r _ => ?_
  split
  · exact .pure trivial
  · exact .pure trivial
  · exact locates_reported _ h trivial
  · exact locates_reported _ h trivial

theorem locates_size (e : Expr) {span : Span} (h : P span.start) :
    Locates P (size e span) fun _ => True := by
  unfold size
  split
  · exact locates_reported _ h trivial
  · split
    · exact .pure trivial
    · exact locates_reported _ h trivial

end Primitives

section Expressions

variable {P : Nat → Prop}

/-- Binding the expression keeps its outline. -/
def KeepsOutline (P : Nat → Prop) (e : Expr) : Prop :=
  e.outline.Starts P → Locates P (expr e) fun d => d.outline = e.outline

theorem locates_exprs_of {es : List Expr} (h : ∀ e ∈ es, KeepsOutline P e)
    (hes : ∀ e ∈ es, e.outline.Starts P) :
    Locates P (exprs es) fun ds => ds.map Expr.outline = es.map Expr.outline := by
  induction es with
  | nil =>
    unfold exprs
    exact .pure rfl
  | cons e es ih =>
    obtain ⟨hfirst, hrest⟩ := List.forall_mem_cons.mp hes
    unfold exprs
    refine (h e (by simp) hfirst).bind fun d hd => ?_
    refine (ih (fun a ha => h a (by simp [ha])) hrest).bind fun ds hds => .pure ?_
    rw [List.map_cons, List.map_cons, hd, hds]

theorem locates_arraySuffix_of {suffix : Option (ArraySuffix Expr)}
    (h : ∀ e span, suffix = some ⟨some e, span⟩ → KeepsOutline P e)
    (hsuffix : ∀ o ∈ suffixOutlines suffix, o.Starts P) :
    Locates P (arraySuffix suffix) fun r => suffixOutlines r.1 = suffixOutlines suffix := by
  rcases suffix with _ | ⟨_ | e, span⟩ <;> unfold arraySuffix
  · exact .pure rfl
  · exact .pure rfl
  · simp only [suffixOutlines, List.forall_mem_singleton, Outline.starts_node] at hsuffix
    refine (h e span rfl hsuffix.2).bind fun d hd => (locates_size d hsuffix.1).bind fun _ _ => ?_
    exact .pure (by simp only [suffixOutlines, hd])

theorem keepsOutline_expr (e : Expr) : KeepsOutline P e := by
  induction e using Expr.induction with
  | int text n | float text n | bool b n =>
    intro _
    unfold expr
    exact .pure rfl
  | var x binding n =>
    intro h
    unfold expr
    exact (locates_reference x h.span).bind fun _ _ => .pure rfl
  | unary op e n ih | update op before e n ih | length e n ih | field e x n ih =>
    intro h
    simp only [Expr.outline, Outline.starts_node, List.forall_mem_singleton] at h
    unfold expr
    exact (ih h.2).bind fun d hd => .pure (by simp only [Expr.outline, hd])
  | binary op l r n ihl ihr | comma l r n ihl ihr | assign op l r n ihl ihr | index l r n ihl ihr =>
    intro h
    simp only [Expr.outline, Outline.starts_node, List.forall_mem_cons] at h
    unfold expr
    refine (ihl h.2.1).bind fun d hd => (ihr h.2.2.1).bind fun f hf => ?_
    exact .pure (by simp only [Expr.outline, hd, hf])
  | ternary c t e n ihc iht ihe =>
    intro h
    simp only [Expr.outline, Outline.starts_node, List.forall_mem_cons] at h
    unfold expr
    refine (ihc h.2.1).bind fun d hd => (iht h.2.2.1).bind fun f hf => ?_
    exact (ihe h.2.2.2.1).bind fun g hg => .pure (by simp only [Expr.outline, hd, hf, hg])
  | call callee suffix args target n ihsuffix ihargs =>
    intro h
    simp only [Expr.outline, Expr.outlines_eq, Outline.starts_node, List.forall_mem_cons,
      List.forall_mem_map] at h
    obtain ⟨hspan, ⟨hcallee, hsuffix⟩, hargs⟩ := h
    have hbrackets := locates_arraySuffix_of ihsuffix hsuffix
    unfold expr
    refine (locates_exprs_of ihargs hargs).bind fun ds hds => ?_
    split
    · refine (locates_plainTarget _ hcallee).bind fun _ _ => .pure ?_
      simp only [Expr.outline, Expr.outlines_eq, hds]
    · refine (locates_namedTy _ hcallee).bind fun _ _ => hbrackets.bind fun r hr => .pure ?_
      simp only [Expr.outline, Expr.outlines_eq, hds, hr]
    · refine hbrackets.bind fun r hr => .pure ?_
      simp only [Expr.outline, Expr.outlines_eq, hds, hr]

theorem locates_arraySuffix {suffix : Option (ArraySuffix Expr)}
    (h : ∀ o ∈ suffixOutlines suffix, o.Starts P) :
    Locates P (arraySuffix suffix) fun r => suffixOutlines r.1 = suffixOutlines suffix :=
  locates_arraySuffix_of (fun e _ _ => keepsOutline_expr e) h

theorem locates_optionExpr {e : Option Expr} (h : ∀ o ∈ e.toList.map Expr.outline, o.Starts P) :
    Locates P (e.mapM expr) fun d => d.toList.map Expr.outline = e.toList.map Expr.outline :=
  .mapM_option fun d hd => keepsOutline_expr d (h d.outline (by simp [hd]))

end Expressions

section Declarations

variable {P : Nat → Prop}

theorem locates_requireSized (ty : Option Ty) (name : String) {span : Span} (h : P span.start) :
    Locates P (requireSized ty name span) fun _ => True := by
  unfold requireSized
  split
  · exact locates_reported _ h trivial
  · exact .pure trivial

theorem locates_memberNames (base : Option Ty) {ms : List MemberName} {fields : List Field}
    (h : ∀ m ∈ ms, m.outline.Starts P) (hfields : ∀ f ∈ fields, P f.span.start) :
    Locates P (memberNames base ms fields) fun r =>
      r.1.map MemberName.outline = ms.map MemberName.outline ∧ ∀ f ∈ r.2, P f.span.start := by
  induction ms generalizing fields with
  | nil =>
    unfold memberNames
    exact .pure ⟨rfl, hfields⟩
  | cons m ms ih =>
    obtain ⟨hm, hms⟩ := List.forall_mem_cons.mp h
    obtain ⟨hspan, harray⟩ := Outline.starts_node.mp hm
    unfold memberNames
    refine (locates_arraySuffix harray).bind fun r hr => ?_
    refine (locates_requireSized _ _ hspan).bind fun ty _ => ?_
    have names {rs : List MemberName}
        (hrs : rs.map MemberName.outline = ms.map MemberName.outline) :
        (({ m with array := r.1 } : MemberName) :: rs).map MemberName.outline =
          (m :: ms).map MemberName.outline := by
      simp only [List.map_cons, hrs, MemberName.outline, hr]
    simp only [pure_bind]
    refine .ite ((locates_report _ hspan).bind fun _ _ => ?_) ?_
    · exact (ih hms hfields).bind fun rs hrs => .pure ⟨names hrs.1, hrs.2⟩
    refine (ih hms ?_).bind fun rs hrs => .pure ⟨names hrs.1, hrs.2⟩
    refine List.forall_mem_append.mpr ⟨hfields, ?_⟩
    cases ty with
    | none => simp
    | some t => simpa using hspan

theorem locates_reportStruct {spec : TypeSpec} (h : spec.outline.Starts P) :
    Locates P (reportStruct spec) fun _ => True := by
  cases spec with
  | basic b note | named x note => exact .pure trivial
  | struct tag ms span note => exact locates_report _ h.span

theorem locates_memberLines_of {ms : List (Member TypeSpec)} {fields : List Field}
    (h : ∀ m ∈ ms, m.spec.outline.Starts P →
      Locates P (typeSpec m.spec) fun spec => spec.outline = m.spec.outline)
    (hms : ∀ m ∈ ms, m.outline.Starts P) (hfields : ∀ f ∈ fields, P f.span.start) :
    Locates P (memberLines ms fields) fun r =>
      r.1.map Member.outline = ms.map Member.outline ∧ ∀ f ∈ r.2, P f.span.start := by
  induction ms generalizing fields with
  | nil =>
    unfold memberLines
    exact .pure ⟨rfl, hfields⟩
  | cons m ms ih =>
    obtain ⟨hm, hrest⟩ := List.forall_mem_cons.mp hms
    simp only [Member.outline, Outline.starts_node, List.forall_mem_cons,
      List.forall_mem_map] at hm
    obtain ⟨-, -, hspec, hnames⟩ := hm
    unfold memberLines
    refine (locates_reportStruct hspec).bind fun _ _ => ?_
    refine (h m (by simp) hspec).bind fun spec hspec' => ?_
    refine (locates_memberNames _ hnames hfields).bind fun names hnames' => ?_
    refine (ih (fun a ha => h a (by simp [ha])) hrest hnames'.2).bind fun others hothers => ?_
    refine .pure ⟨?_, hothers.2⟩
    simp only [List.map_cons, hothers.1, Member.outline, hspec', hnames'.1]

theorem locates_typeSpec {spec : TypeSpec} (h : spec.outline.Starts P) :
    Locates P (typeSpec spec) fun spec' => spec'.outline = spec.outline := by
  induction spec using TypeSpec.induction with
  | basic b note =>
    unfold typeSpec
    refine (locates_arraySuffix (Outline.starts_node.mp h).2).bind fun r hr => .pure ?_
    simp only [TypeSpec.outline, hr]
  | named x note =>
    unfold typeSpec
    refine (locates_namedTy x h.span).bind fun _ _ => ?_
    refine (locates_arraySuffix (Outline.starts_node.mp h).2).bind fun r hr => .pure ?_
    simp only [TypeSpec.outline, hr]
  | struct tag ms span note ih =>
    simp only [TypeSpec.outline, memberOutlines_eq, Outline.starts_node, List.forall_mem_cons,
      List.forall_mem_map] at h
    obtain ⟨-, ⟨hspan, hms⟩, harray⟩ := h
    have hlines : Locates P (memberLines ms []) _ := locates_memberLines_of ih hms (by simp)
    have hsuffix := locates_arraySuffix harray
    unfold typeSpec
    refine hlines.bind fun r hr => locates_freshStruct.bind fun id _ => ?_
    cases tag with
    | none =>
      refine hsuffix.bind fun a ha => .pure ?_
      simp only [TypeSpec.outline, memberOutlines_eq, hr.1, ha]
    | some x =>
      refine (locates_define hspan).bind fun _ _ => hsuffix.bind fun a ha => .pure ?_
      simp only [TypeSpec.outline, memberOutlines_eq, hr.1, ha]

theorem locates_memberLines {ms : List (Member TypeSpec)} (h : ∀ m ∈ ms, m.outline.Starts P) :
    Locates P (memberLines ms []) fun r =>
      r.1.map Member.outline = ms.map Member.outline ∧ ∀ f ∈ r.2, P f.span.start :=
  locates_memberLines_of (fun _ _ => locates_typeSpec) h (by simp)

theorem locates_declaratorTy (base : Option Ty) (extent : Extent) {d : Declarator}
    (h : P d.span.start) : Locates P (declaratorTy base extent d) fun _ => True := by
  unfold declaratorTy
  split
  · exact .pure trivial
  · refine .ite (locates_reported _ h trivial) ?_
    split
    · split
      · exact .pure trivial
      · exact locates_reported _ h trivial
    · exact .pure trivial

theorem locates_declarator (q : Qualifiers) (base : Option Ty) (kind : VariableKind)
    {d : Declarator} (h : d.outline.Starts P) :
    Locates P (declarator q base kind d) fun d' => d'.outline = d.outline := by
  simp only [Declarator.outline, Outline.starts_node, List.forall_mem_append] at h
  obtain ⟨hspan, harray, hinit⟩ := h
  refine (locates_optionExpr hinit).bind fun init hinit' => ?_
  refine (locates_arraySuffix harray).bind fun r hr => ?_
  refine Locates.bind (locates_declaratorTy _ _ hspan) fun ty _ => ?_
  refine (locates_define hspan).bind fun _ _ => .pure ?_
  simp only [Declarator.outline, hr, hinit']

theorem locates_interfaceBlock {b : InterfaceBlock} (h : ∀ o ∈ b.outlines, o.Starts P) :
    Locates P (interfaceBlock b) fun b' => b'.outlines = b.outlines := by
  simp only [InterfaceBlock.outlines, memberOutlines_eq, List.forall_mem_cons,
    List.forall_mem_append, List.forall_mem_map] at h
  obtain ⟨-, hms, hd⟩ := h
  refine (locates_memberLines hms).bind fun r hr => ?_
  have hmembers : memberOutlines r.1 = memberOutlines b.members := by
    rw [memberOutlines_eq, memberOutlines_eq, hr.1]
  cases hinstance : b.instance? with
  | some d =>
    have hdecl := hd d (by simp [hinstance])
    simp only [Declarator.outline, Outline.starts_node, List.forall_mem_append] at hdecl
    obtain ⟨hspan, harray, -⟩ := hdecl
    refine locates_freshStruct.bind fun id _ => (locates_arraySuffix harray).bind fun a ha => ?_
    refine (locates_requireSized _ _ hspan).bind fun ty _ => ?_
    refine locates_declarationKind.bind fun kind _ => ?_
    refine (locates_define hspan).bind fun _ _ => .pure ?_
    simp only [InterfaceBlock.outlines, hmembers, hinstance, Option.toList_some, List.map_cons,
      Declarator.outline, ha]
  | none =>
    refine Locates.bind (Locates.forIn fun f hf => locates_define (hr.2 f hf)) fun _ _ => ?_
    exact .pure (by simp only [InterfaceBlock.outlines, hmembers, hinstance])

theorem locates_declaration {d : Declaration} (h : d.outline.Starts P) :
    Locates P (declaration d) fun d' => d'.outline = d.outline := by
  cases d with
  | vars q spec ds span =>
    simp only [Declaration.outline, Outline.starts_node, List.forall_mem_cons,
      List.forall_mem_map] at h
    obtain ⟨-, -, hspec, hds⟩ := h
    refine (locates_typeSpec hspec).bind fun spec' hspec' => ?_
    refine locates_declarationKind.bind fun kind _ => ?_
    refine (Locates.mapM fun d hd => locates_declarator q _ kind (hds d hd)).bind fun ds' hds' => ?_
    exact .pure (by simp only [Declaration.outline, hspec', hds'])
  | block b span =>
    obtain ⟨-, hb⟩ := Outline.starts_node.mp h
    refine (locates_interfaceBlock hb).bind fun b' hb' => .pure ?_
    exact congrArg (Outline.node span) hb'
  | precision p spec span =>
    simp only [Declaration.outline, Outline.starts_node, List.forall_mem_singleton] at h
    refine (locates_typeSpec h.2).bind fun spec' hspec' => .pure ?_
    simp only [Declaration.outline, hspec']
  | invariant targets span =>
    simp only [Declaration.outline, Outline.starts_node, List.forall_mem_map] at h
    have htargets (t : InvariantTarget) (ht : t ∈ targets) :
        Locates P (do return { t with binding := ← reference t.name t.span })
          fun t' => t'.outline = t.outline :=
      (locates_reference t.name (h.2 t ht).span).bind fun _ _ => .pure rfl
    refine (Locates.mapM htargets).bind fun targets' htargets' => .pure ?_
    simp only [Declaration.outline, htargets']

end Declarations

section Statements

variable {P : Nat → Prop}

theorem locates_ownScope {s : Stmt} {x : Bind Stmt} {Q : Stmt → Prop} (hx : Locates P x Q) :
    Locates P (ownScope s x) Q :=
  .ite hx (locates_nested hx)

theorem locates_statements_of {ss : List Stmt}
    (h : ∀ s ∈ ss, s.outline.Starts P → Locates P (stmt s) fun s' => s'.outline = s.outline)
    (hss : ∀ s ∈ ss, s.outline.Starts P) :
    Locates P (statements ss) fun ss' => ss'.map Stmt.outline = ss.map Stmt.outline := by
  induction ss with
  | nil =>
    unfold statements
    exact .pure rfl
  | cons s ss ih =>
    obtain ⟨hs, hrest⟩ := List.forall_mem_cons.mp hss
    unfold statements
    refine (h s (by simp) hs).bind fun s' hs' => ?_
    refine (ih (fun a ha => h a (by simp [ha])) hrest).bind fun ss' hss' => .pure ?_
    rw [List.map_cons, List.map_cons, hs', hss']

theorem locates_stmt {s : Stmt} (h : s.outline.Starts P) :
    Locates P (stmt s) fun s' => s'.outline = s.outline := by
  induction s using Stmt.induction with
  | expr e span | caseLabel e span =>
    simp only [Stmt.outline, Outline.starts_node, List.forall_mem_singleton] at h
    unfold stmt
    exact (keepsOutline_expr e h.2).bind fun d hd => .pure (by simp only [Stmt.outline, hd])
  | giveBack value span =>
    cases value with
    | none =>
      unfold stmt
      exact .pure rfl
    | some e =>
      simp only [Stmt.outline, Outline.starts_node, List.forall_mem_singleton] at h
      unfold stmt
      exact (keepsOutline_expr e h.2).bind fun d hd => .pure (by simp only [Stmt.outline, hd])
  | empty span | defaultLabel span | continueLoop span | breakLoop span | discard span =>
    unfold stmt
    exact .pure rfl
  | block stmts inner span ih =>
    simp only [Stmt.outline, Stmt.outlines_eq, Outline.starts_node, List.forall_mem_singleton,
      List.forall_mem_map] at h
    unfold stmt
    refine (locates_nested (locates_statements_of ih h.2.2)).bind fun ss hss => .pure ?_
    simp only [Stmt.outline, Stmt.outlines_eq, hss]
  | decl d span =>
    simp only [Stmt.outline, Outline.starts_node, List.forall_mem_singleton] at h
    unfold stmt
    exact (locates_declaration h.2).bind fun d' hd' => .pure (by simp only [Stmt.outline, hd'])
  | branch c t e span iht ihe =>
    cases e with
    | none =>
      simp only [Stmt.outline, Outline.starts_node, List.forall_mem_cons] at h
      unfold stmt
      refine (keepsOutline_expr c h.2.1).bind fun c' hc => ?_
      refine (locates_ownScope (iht h.2.2.1)).bind fun t' ht => .pure ?_
      simp only [Stmt.outline, hc, ht]
    | some e =>
      simp only [Stmt.outline, Outline.starts_node, List.forall_mem_cons] at h
      unfold stmt
      refine (keepsOutline_expr c h.2.1).bind fun c' hc => ?_
      refine (locates_ownScope (iht h.2.2.1)).bind fun t' ht => ?_
      refine (locates_ownScope (ihe e rfl h.2.2.2.1)).bind fun e' he => .pure ?_
      simp only [Stmt.outline, hc, ht, he]
  | switch e stmts inner span ih =>
    simp only [Stmt.outline, Stmt.outlines_eq, Outline.starts_node, List.forall_mem_cons,
      List.forall_mem_map] at h
    unfold stmt
    refine (keepsOutline_expr e h.2.1).bind fun e' he => ?_
    refine (locates_nested (locates_statements_of ih h.2.2.1.2)).bind fun ss hss => .pure ?_
    simp only [Stmt.outline, Stmt.outlines_eq, he, hss]
  | whileLoop c body span ih =>
    simp only [Stmt.outline, Outline.starts_node, List.forall_mem_cons] at h
    unfold stmt
    refine (keepsOutline_expr c h.2.1).bind fun c' hc => ?_
    refine (locates_ownScope (ih h.2.2.1)).bind fun b hb => .pure ?_
    simp only [Stmt.outline, hc, hb]
  | doLoop body c span ih =>
    simp only [Stmt.outline, Outline.starts_node, List.forall_mem_cons] at h
    unfold stmt
    refine (locates_ownScope (ih h.2.1)).bind fun b hb => ?_
    refine (keepsOutline_expr c h.2.2.1).bind fun c' hc => .pure ?_
    simp only [Stmt.outline, hc, hb]
  | forLoop init c u body span ihinit ihbody =>
    cases init with
    | none =>
      simp only [Stmt.outline, Outline.starts_node, List.forall_mem_append,
        List.forall_mem_singleton] at h
      obtain ⟨-, ⟨hc, hu⟩, hbody⟩ := h
      unfold stmt
      refine locates_nested ((locates_optionExpr hc).bind fun c' hc' => ?_)
      refine (locates_optionExpr hu).bind fun u' hu' => ?_
      refine (locates_ownScope (ihbody hbody)).bind fun b hb => .pure ?_
      simp only [Stmt.outline, hc', hu', hb]
    | some s =>
      simp only [Stmt.outline, Outline.starts_node, List.forall_mem_cons,
        List.forall_mem_append] at h
      obtain ⟨-, hs, ⟨hc, hu⟩, hbody, -⟩ := h
      unfold stmt
      refine locates_nested ((ihinit s rfl hs).bind fun s' hs' => ?_)
      refine (locates_optionExpr hc).bind fun c' hc' => ?_
      refine (locates_optionExpr hu).bind fun u' hu' => ?_
      refine (locates_ownScope (ihbody hbody)).bind fun b hb => .pure ?_
      simp only [Stmt.outline, hs', hc', hu', hb]

theorem locates_parameter {p : ParamDecl} (h : p.outline.Starts P) :
    Locates P (parameter p) fun r => r.1.outline = p.outline := by
  simp only [ParamDecl.outline, Outline.starts_node, List.forall_mem_cons] at h
  obtain ⟨hspan, -, hspec, harray⟩ := h
  refine (locates_typeSpec hspec).bind fun spec hspec' => ?_
  refine (locates_arraySuffix harray).bind fun a ha => ?_
  refine (locates_requireSized _ _ hspan).bind fun ty _ => .pure ?_
  simp only [ParamDecl.outline, hspec', ha]

theorem locates_parameterVariable {p : ParamDecl × Parameter} (h : p.1.outline.Starts P) :
    Locates P (parameterVariable p) fun p' => p'.outline = p.1.outline := by
  unfold parameterVariable
  split
  · exact .pure rfl
  · exact (locates_define h.span).bind fun _ _ => .pure rfl

theorem locates_function {f : FunctionDecl} (h : f.outline.Starts P) :
    Locates P (function f) fun f' => f'.outline = f.outline := by
  simp only [FunctionDecl.outline, Outline.starts_node, List.forall_mem_cons,
    List.forall_mem_append, List.forall_mem_map] at h
  obtain ⟨hspan, -, hspec, hparams, hbody⟩ := h
  refine (locates_typeSpec hspec).bind fun spec hspec' => ?_
  refine (Locates.mapM fun p hp => locates_parameter (hparams p hp)).bind fun params hparams' => ?_
  refine (locates_addOverload hspan).bind fun _ _ => ?_
  have hstarts (r : ParamDecl × Parameter) (hr : r ∈ params) : r.1.outline.Starts P := by
    have hmem : r.1.outline ∈ f.params.map ParamDecl.outline :=
      hparams' ▸ List.mem_map.mpr ⟨r, hr, rfl⟩
    obtain ⟨p, hp, heq⟩ := List.mem_map.mp hmem
    exact heq ▸ hparams p hp
  cases hf : f.body with
  | none =>
    refine .pure ?_
    simp only [FunctionDecl.outline, hspec', hf, List.map_map, ← hparams']
    rfl
  | some body =>
    have hstmts := hbody body (by simp [hf])
    simp only [Block.outline, Stmt.outlines_eq, Outline.starts_node, List.forall_mem_map] at hstmts
    refine locates_nested ?_
    refine (Locates.mapM fun r hr => locates_parameterVariable (hstarts r hr)).bind fun ps hps => ?_
    refine (locates_statements_of (fun _ _ => locates_stmt) hstmts.2).bind fun ss hss => .pure ?_
    simp only [FunctionDecl.outline, hspec', hps, hparams', hf, Option.toList_some, List.map_cons,
      Block.outline, Stmt.outlines_eq, hss]

theorem locates_topLevel {d : TopLevel} (h : d.outline.Starts P) :
    Locates P (topLevel d) fun d' => d'.outline = d.outline := by
  cases d with
  | declaration d => exact (locates_declaration h).bind fun _ hd => .pure hd
  | function f => exact (locates_function h).bind fun _ hf => .pure hf

end Statements

end Bind

/-- Binding keeps the outline of a unit, and what it reports starts where something in the unit
does. -/
theorem bind_locates {P : Nat → Prop} {unit : TranslationUnit}
    (h : ∀ d ∈ unit, d.outline.Starts P) :
    (bind unit).unit.map TopLevel.outline = unit.map TopLevel.outline ∧
      ∀ d ∈ (bind unit).problems, P d.span.start := by
  have hrun : Locates P (unit.mapM Bind.topLevel) fun ds =>
      ds.map TopLevel.outline = unit.map TopLevel.outline :=
    .mapM fun d hd => Bind.locates_topLevel (h d hd)
  obtain ⟨hproblems, hunit⟩ := hrun Bind.start (by simp [Bind.start])
  exact ⟨hunit, fun d hd => hproblems d (List.mem_reverse.mp hd)⟩

end Shader
