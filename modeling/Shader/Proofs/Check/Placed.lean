import Shader.Check
import Shader.Proofs.Check.Expr
import Shader.Proofs.Locates
import Shader.Proofs.Outline

/-! Where the problems of checking are. Checking keeps the outline of a tree, and every problem that
it reports starts where some node of the tree starts. -/

namespace Shader

theorem Span.start_merge {P : Nat → Prop} {s t : Span} (hs : P s.start) (ht : P t.start) :
    P (s.merge t).start := by
  show P (min s.start t.start)
  rcases Nat.le_total s.start t.start with h | h
  · rwa [Nat.min_eq_left h]
  · rwa [Nat.min_eq_right h]

namespace Check

instance : Reporter Checked where
  Reports P x Q := (∀ d ∈ x.problems, P d.span.start) ∧ Q x.value
  reports_pure h := ⟨List.forall_mem_nil _, h⟩
  reports_bind hx hf :=
    have hy := hf _ hx.2
    ⟨List.forall_mem_append.mpr ⟨hx.1, hy.1⟩, hy.2⟩

section Reports

variable {P : Nat → Prop}

theorem locates_report (p : Problem) {span : Span} (h : P span.start) :
    Locates P (report p span) fun _ => True :=
  ⟨by simpa [report] using h, trivial⟩

theorem locates_require (holds : Bool) (p : Problem) {span : Span} (h : P span.start) :
    Locates P (require holds p span) fun _ => True :=
  .ite (.pure trivial) (locates_report p h)

theorem locates_untyped (p : ExprProblem) {span : Span} (h : P span.start) :
    Locates P (untyped p span) fun _ => True :=
  ⟨by simpa [untyped] using h, trivial⟩

end Reports

section Expressions

variable {P : Nat → Prop} {stage : Stage} {e : Expr} {span : Span}

theorem locates_binaryTy (op : BinaryOp) (l r : Ty) (h : P span.start) :
    Locates P (binaryTy op l r span) fun _ => True := by
  unfold binaryTy
  refine .ite (.pure trivial) ?_
  split
  · split
    · exact .pure trivial
    · exact locates_untyped _ h
  · exact locates_untyped _ h

theorem locates_unaryTy (op : UnaryOp) (ty : Ty) (h : P span.start) :
    Locates P (unaryTy op ty span) fun _ => True := by
  unfold unaryTy
  split
  · exact .pure trivial
  · exact locates_untyped _ h

theorem locates_requireAssignable (operation : String) (h : P e.span.start) :
    Locates P (requireAssignable e operation) fun _ => True := by
  unfold requireAssignable
  split
  · exact locates_report _ h
  · exact .pure trivial

theorem locates_updateTy (op : UpdateOp) (ty : Ty) (h : P span.start) :
    Locates P (updateTy op ty span) fun _ => True :=
  .ite (.pure trivial) (locates_untyped _ h)

theorem locates_assignTy (op : AssignOp) (target value : Ty) (h : P span.start) :
    Locates P (assignTy op target value span) fun _ => True := by
  unfold assignTy
  split
  · exact (locates_require _ _ h).bind fun _ _ => .pure trivial
  · refine (locates_binaryTy _ _ _ h).bind fun r _ => ?_
    split
    · exact .pure trivial
    · exact (locates_require _ _ h).bind fun _ _ => .pure trivial

theorem locates_branchTy (whenTrue whenFalse : Ty) (h : P span.start) :
    Locates P (branchTy whenTrue whenFalse span) fun _ => True :=
  .ite (.pure trivial) (locates_untyped _ h)

theorem locates_outArguments (function : String) (params : List Parameter) {args : List Expr}
    (h : ∀ a ∈ args, P a.span.start) :
    Locates P (outArguments function params args) fun _ => True := by
  induction params generalizing args with
  | nil => exact .pure trivial
  | cons p params ih =>
    cases args with
    | nil => exact .pure trivial
    | cons a args =>
      obtain ⟨ha, hargs⟩ := List.forall_mem_cons.mp h
      unfold outArguments
      refine .ite ?_ (ih hargs)
      split
      · exact (locates_report _ ha).bind fun _ _ => ih hargs
      · exact ih hargs

theorem locates_callTy (stage : Stage) (f : Function) {args : List Expr}
    (hargs : ∀ a ∈ args, P a.span.start) (h : P span.start) :
    Locates P (callTy stage f args span) fun _ => True := by
  unfold callTy
  split
  · exact .pure trivial
  · split
    · exact locates_untyped _ h
    · refine (locates_outArguments _ _ hargs).bind fun _ _ => ?_
      exact (locates_require _ _ h).bind fun _ _ => .pure trivial

theorem locates_constructTy (ty : Ty) (args : List Expr) (h : P span.start) :
    Locates P (constructTy ty args span) fun _ => True := by
  unfold constructTy
  split
  · exact (locates_report _ h).bind fun _ _ => .pure trivial
  · exact .pure trivial

theorem locates_targetTy (stage : Stage) (target : Target) {args : List Expr}
    (hargs : ∀ a ∈ args, P a.span.start) (h : P span.start) :
    Locates P (targetTy stage target args span) fun _ => True := by
  cases target with
  | constructor t => exact locates_constructTy t args h
  | function f => exact locates_callTy stage f hargs h
  | unresolved => exact .pure trivial

theorem locates_fieldTy (ty : Ty) (name : String) (h : P span.start) :
    Locates P (fieldTy ty name span) fun _ => True := by
  unfold fieldTy
  split
  · split
    · exact .pure trivial
    · exact locates_untyped _ h
  · split
    · exact .pure trivial
    · exact locates_untyped _ h
  · exact .ite (locates_untyped _ h) (locates_untyped _ h)
  · exact locates_untyped _ h

theorem locates_lengthTy (ty : Ty) (h : P span.start) :
    Locates P (lengthTy ty span) fun _ => True :=
  .ite (.pure trivial) (locates_untyped _ h)

theorem locates_checkIndex (stage : Stage) (array : Expr) (ty : Ty) (bound : Option Nat)
    (h : P e.span.start) : Locates P (checkIndex stage array ty bound e) fun _ => True := by
  unfold checkIndex
  dsimp only
  split
  · exact locates_require _ _ h
  · exact .ite (.ite (locates_report _ h) (locates_require _ _ h)) (.pure trivial)

theorem locates_indexTy (stage : Stage) (array : Expr) (hindex : P e.span.start)
    (h : P span.start) : Locates P (indexTy stage array e span) fun _ => True := by
  unfold indexTy
  cases e.ty with
  | none =>
    cases array.ty with
    | none => exact .pure trivial
    | some ty =>
      dsimp only
      cases elementOf? ty with
      | none => exact locates_untyped _ h
      | some r => exact (locates_checkIndex stage array ty r.2 hindex).bind fun _ _ => .pure trivial
  | some t =>
    cases array.ty with
    | none => exact (locates_require _ _ hindex).bind fun _ _ => .pure trivial
    | some ty =>
      refine (locates_require _ _ hindex).bind fun _ _ => ?_
      dsimp only
      cases elementOf? ty with
      | none => exact locates_untyped _ h
      | some r => exact (locates_checkIndex stage array ty r.2 hindex).bind fun _ _ => .pure trivial

theorem locates_requireBool (h : P e.span.start) : Locates P (requireBool e) fun _ => True := by
  unfold requireBool
  split
  · exact locates_require _ _ h
  · exact .pure trivial

theorem locates_ofTy {t : Option Ty} {rule : Ty → Checked (Option Ty)}
    (h : ∀ t, Locates P (rule t) fun _ => True) : Locates P (ofTy t rule) fun _ => True := by
  cases t with
  | none => exact .pure trivial
  | some t => exact h t

theorem start_of_outline {d : Expr} (h : e.outline.Starts P) (hd : d.outline = e.outline) :
    P d.span.start := by
  rw [← d.span_outline, hd]
  exact h.span

theorem locates_exprs_of {es : List Expr}
    (h : ∀ e ∈ es, e.outline.Starts P → Locates P (expr stage e) fun d => d.outline = e.outline)
    (hes : ∀ e ∈ es, e.outline.Starts P) :
    Locates P (exprs stage es) fun ds => ds.map Expr.outline = es.map Expr.outline := by
  induction es with
  | nil =>
    unfold exprs
    exact .pure rfl
  | cons e es ih =>
    obtain ⟨hfirst, hrest⟩ := List.forall_mem_cons.mp hes
    unfold exprs
    refine (h e (by simp) hfirst).bind fun d hd => ?_
    refine (ih (fun a ha => h a (by simp [ha])) hrest).bind fun ds hds => .pure ?_
    rw [List.map_cons, List.map_cons, hd, hds]

theorem locates_expr (stage : Stage) {e : Expr} (h : e.outline.Starts P) :
    Locates P (expr stage e) fun d => d.outline = e.outline := by
  induction e using Expr.induction with
  | int text n =>
    unfold expr
    split
    · exact .pure rfl
    · exact (locates_report _ h.span).bind fun _ _ => .pure rfl
  | float text n | bool b n | var x binding n =>
    unfold expr
    exact .pure rfl
  | unary op e n ih =>
    simp only [Expr.outline, Outline.starts_node, List.forall_mem_singleton] at h
    rw [expr_unary]
    refine (ih h.2).bind fun d hd => ?_
    refine (locates_ofTy fun t => locates_unaryTy op t h.1).bind fun ty _ => .pure ?_
    simp only [Expr.outline, hd]
  | update op before e n ih =>
    simp only [Expr.outline, Outline.starts_node, List.forall_mem_singleton] at h
    rw [expr_update]
    refine (ih h.2).bind fun d hd => ?_
    refine (locates_requireAssignable _ (start_of_outline h.2 hd)).bind fun _ _ => ?_
    refine (locates_ofTy fun t => locates_updateTy op t h.1).bind fun ty _ => .pure ?_
    simp only [Expr.outline, hd]
  | binary op l r n ihl ihr =>
    simp only [Expr.outline, Outline.starts_node, List.forall_mem_cons] at h
    rw [expr_binary]
    refine (ihl h.2.1).bind fun d hd => (ihr h.2.2.1).bind fun f hf => ?_
    refine (locates_ofTy fun a => locates_ofTy fun b => locates_binaryTy op a b h.1).bind
      fun ty _ => .pure ?_
    simp only [Expr.outline, hd, hf]
  | assign op t v n iht ihv =>
    simp only [Expr.outline, Outline.starts_node, List.forall_mem_cons] at h
    rw [expr_assign]
    refine (iht h.2.1).bind fun d hd => (ihv h.2.2.1).bind fun f hf => ?_
    refine (locates_requireAssignable _ (start_of_outline h.2.1 hd)).bind fun _ _ => ?_
    refine (locates_ofTy fun a => locates_ofTy fun b => locates_assignTy op a b h.1).bind
      fun ty _ => .pure ?_
    simp only [Expr.outline, hd, hf]
  | ternary c t e n ihc iht ihe =>
    simp only [Expr.outline, Outline.starts_node, List.forall_mem_cons] at h
    rw [expr_ternary]
    refine (ihc h.2.1).bind fun d hd => ?_
    refine (locates_requireBool (start_of_outline h.2.1 hd)).bind fun _ _ => ?_
    refine (iht h.2.2.1).bind fun f hf => (ihe h.2.2.2.1).bind fun g hg => ?_
    refine (locates_ofTy fun a => locates_ofTy fun b => locates_branchTy a b h.1).bind
      fun ty _ => .pure ?_
    simp only [Expr.outline, hd, hf, hg]
  | comma l r n ihl ihr =>
    simp only [Expr.outline, Outline.starts_node, List.forall_mem_cons] at h
    unfold expr
    refine (ihl h.2.1).bind fun d hd => (ihr h.2.2.1).bind fun f hf => .pure ?_
    simp only [Expr.outline, hd, hf]
  | call callee suffix args target n _ ihargs =>
    simp only [Expr.outline, Expr.outlines_eq, Outline.starts_node, List.forall_mem_cons,
      List.forall_mem_map] at h
    obtain ⟨hspan, -, hargs⟩ := h
    rw [expr_call]
    refine (locates_exprs_of ihargs hargs).bind fun ds hds => ?_
    have hstarts (d : Expr) (hd : d ∈ ds) : P d.span.start := by
      have hmem : d.outline ∈ args.map Expr.outline := hds ▸ List.mem_map.mpr ⟨d, hd, rfl⟩
      obtain ⟨a, ha, heq⟩ := List.mem_map.mp hmem
      exact start_of_outline (hargs a ha) heq.symm
    refine (locates_targetTy stage target hstarts hspan).bind fun ty _ => .pure ?_
    simp only [Expr.outline, Expr.outlines_eq, hds]
  | field e x n ih =>
    simp only [Expr.outline, Outline.starts_node, List.forall_mem_singleton] at h
    rw [expr_field]
    refine (ih h.2).bind fun d hd => ?_
    refine (locates_ofTy fun t => locates_fieldTy t x h.1).bind fun ty _ => .pure ?_
    simp only [Expr.outline, hd]
  | index a i n iha ihi =>
    simp only [Expr.outline, Outline.starts_node, List.forall_mem_cons] at h
    unfold expr
    refine (iha h.2.1).bind fun d hd => (ihi h.2.2.1).bind fun f hf => ?_
    refine (locates_indexTy stage d (start_of_outline h.2.2.1 hf) h.1).bind fun ty _ => .pure ?_
    simp only [Expr.outline, hd, hf]
  | length e n ih =>
    simp only [Expr.outline, Outline.starts_node, List.forall_mem_singleton] at h
    rw [expr_length]
    refine (ih h.2).bind fun d hd => ?_
    refine (locates_ofTy fun t => locates_lengthTy t h.1).bind fun ty _ => .pure ?_
    simp only [Expr.outline, hd]

theorem locates_condition (stage : Stage) (h : e.outline.Starts P) :
    Locates P (condition stage e) fun d => d.outline = e.outline := by
  refine (locates_expr stage h).bind fun d hd => ?_
  exact (locates_requireBool (start_of_outline h hd)).bind fun _ _ => .pure hd

theorem locates_optionExpr (stage : Stage) {e : Option Expr}
    (h : ∀ o ∈ e.toList.map Expr.outline, o.Starts P) :
    Locates P (e.mapM (expr stage)) fun d =>
      d.toList.map Expr.outline = e.toList.map Expr.outline :=
  .mapM_option fun d hd => locates_expr stage (h d.outline (by simp [hd]))

theorem locates_optionCondition (stage : Stage) {e : Option Expr}
    (h : ∀ o ∈ e.toList.map Expr.outline, o.Starts P) :
    Locates P (e.mapM (condition stage)) fun d =>
      d.toList.map Expr.outline = e.toList.map Expr.outline :=
  .mapM_option fun d hd => locates_condition stage (h d.outline (by simp [hd]))

theorem locates_suffix (stage : Stage) {suffix : Option (ArraySuffix Expr)}
    (h : ∀ o ∈ suffixOutlines suffix, o.Starts P) :
    Locates P (suffix.mapM (arraySuffix stage)) fun r =>
      suffixOutlines r = suffixOutlines suffix := by
  cases suffix with
  | none => exact .pure rfl
  | some a =>
    rw [suffixOutlines_some, List.forall_mem_singleton, Outline.starts_node] at h
    have hsize : Locates P (arraySuffix stage a) fun b =>
        suffixOutlines (some b) = suffixOutlines (some a) := by
      refine (locates_optionExpr stage h.2).bind fun size hsize => .pure ?_
      rw [suffixOutlines_some, suffixOutlines_some, hsize]
    exact hsize.bind fun b hb => .pure hb

end Expressions

section Declarations

variable {P : Nat → Prop} {span : Span}

theorem locates_memberNames (stage : Stage) {names : List MemberName}
    (h : ∀ m ∈ names, m.outline.Starts P) :
    Locates P (memberNames stage names) fun ms =>
      ms.map MemberName.outline = names.map MemberName.outline := by
  refine .mapM fun m hm => ?_
  refine (locates_suffix stage (Outline.starts_node.mp (h m hm)).2).bind fun a ha => .pure ?_
  simp only [MemberName.outline, ha]

theorem locates_memberLines_of (stage : Stage) {ms : List (Member TypeSpec)}
    (h : ∀ m ∈ ms, m.spec.outline.Starts P →
      Locates P (typeSpec stage m.spec) fun spec => spec.outline = m.spec.outline)
    (hms : ∀ m ∈ ms, m.outline.Starts P) :
    Locates P (memberLines stage ms) fun ms' => ms'.map Member.outline = ms.map Member.outline := by
  induction ms with
  | nil =>
    unfold memberLines
    exact .pure rfl
  | cons m ms ih =>
    obtain ⟨hm, hrest⟩ := List.forall_mem_cons.mp hms
    simp only [Member.outline, Outline.starts_node, List.forall_mem_cons,
      List.forall_mem_map] at hm
    obtain ⟨hspan, -, hspec, hnames⟩ := hm
    unfold memberLines
    refine (h m (by simp) hspec).bind fun spec hspec' => ?_
    refine (locates_memberNames stage hnames).bind fun names hnames' => ?_
    refine (locates_require _ _ hspan).bind fun _ _ => ?_
    refine (ih (fun a ha => h a (by simp [ha])) hrest).bind fun others hothers => .pure ?_
    simp only [List.map_cons, hothers, Member.outline, hspec', hnames']

theorem locates_typeSpec (stage : Stage) {spec : TypeSpec} (h : spec.outline.Starts P) :
    Locates P (typeSpec stage spec) fun spec' => spec'.outline = spec.outline := by
  induction spec using TypeSpec.induction with
  | basic b note | named x note =>
    unfold typeSpec
    refine (locates_suffix stage (Outline.starts_node.mp h).2).bind fun a ha => .pure ?_
    simp only [TypeSpec.outline, ha]
  | struct tag ms structSpan note ih =>
    simp only [TypeSpec.outline, memberOutlines_eq, Outline.starts_node, List.forall_mem_cons,
      List.forall_mem_map] at h
    obtain ⟨-, ⟨-, hms⟩, harray⟩ := h
    unfold typeSpec
    refine (locates_suffix stage harray).bind fun a ha => ?_
    refine (locates_memberLines_of stage ih hms).bind fun ms' hms' => .pure ?_
    simp only [TypeSpec.outline, memberOutlines_eq, hms', ha]

theorem locates_qualifiers (place : Place) (q : Qualifiers) (h : P span.start) :
    Locates P (qualifiers place q span) fun _ => True := by
  unfold qualifiers
  dsimp only
  refine (locates_require _ _ h).bind fun _ _ => ?_
  split
  all_goals
    repeat refine (locates_require _ _ h).bind fun _ _ => ?_
    split
    · exact locates_report _ h
    · exact locates_report _ h
    · exact .pure trivial

theorem locates_interfaceTy (stage : Stage) (storage : Option Storage) (ty : Ty) (name : String)
    (h : P span.start) : Locates P (interfaceTy stage storage ty name span) fun _ => True := by
  unfold interfaceTy
  dsimp only
  split
  · exact locates_require _ _ h
  · exact locates_require _ _ h
  · exact .pure trivial

theorem locates_initializer (storage : Option Storage) (declared : Option Ty) (name : String)
    {init : Expr} (h : P init.span.start) :
    Locates P (initializer storage declared name init) fun _ => True := by
  unfold initializer
  dsimp only
  split
  · refine (locates_require _ _ h).bind fun _ _ => ?_
    split
    · exact .ite (locates_report _ h) (locates_require _ _ h)
    · exact .pure trivial
  · split
    · exact .ite (locates_report _ h) (locates_require _ _ h)
    · exact .pure trivial

theorem locates_variableTy (stage : Stage) (storage : Option Storage) (ty : Ty) {d : Declarator}
    (h : P d.span.start) : Locates P (variableTy stage storage ty d) fun _ => True :=
  (locates_require _ _ h).bind fun _ _ => locates_interfaceTy stage storage ty d.name h

theorem locates_initialization (storage : Option Storage) (declared : Option Ty) {d : Declarator}
    (h : P d.span.start) (hinit : ∀ e, d.init = some e → P e.span.start) :
    Locates P (initialization storage declared d) fun _ => True := by
  unfold initialization
  split
  · rename_i init heq
    exact locates_initializer storage declared d.name (hinit init heq)
  · exact locates_require _ _ h

theorem locates_declarator (stage : Stage) (storage : Option Storage) {d : Declarator}
    (h : d.outline.Starts P) :
    Locates P (declarator stage storage d) fun d' => d'.outline = d.outline := by
  simp only [Declarator.outline, Outline.starts_node, List.forall_mem_append] at h
  obtain ⟨hspan, harray, hinit⟩ := h
  refine (locates_suffix stage harray).bind fun array harray' => ?_
  refine (locates_optionExpr stage hinit).bind fun init hinit' => ?_
  have hresult : ({ d with array, init } : Declarator).outline = d.outline := by
    simp only [Declarator.outline, harray', hinit']
  have hstart (e : Expr) (he : init = some e) : P e.span.start := by
    rw [← e.span_outline]
    exact (hinit e.outline (by rw [← hinit']; simp [he])).span
  dsimp only
  split
  · refine .ite ((locates_report _ hspan).bind fun _ _ => .pure hresult) ?_
    refine Locates.bind (locates_variableTy stage storage _ hspan) fun _ _ => ?_
    exact Locates.bind (locates_initialization storage _ hspan hstart) fun _ _ => .pure hresult
  · exact Locates.bind (locates_initialization storage _ hspan hstart) fun _ _ => .pure hresult

theorem locates_invariantTarget (place : Place) {t : InvariantTarget} (h : P t.span.start) :
    Locates P (invariantTarget place t) fun _ => True := by
  unfold invariantTarget
  refine .ite (locates_report _ h) ?_
  split
  · exact locates_require _ _ h
  · exact .pure trivial

theorem locates_blockMember (stage : Stage) {m : Member TypeSpec} (h : m.outline.Starts P) :
    Locates P (blockMember stage m) fun m' => m'.outline = m.outline := by
  simp only [Member.outline, Outline.starts_node, List.forall_mem_cons, List.forall_mem_map] at h
  obtain ⟨hspan, -, hspec, hnames⟩ := h
  refine (locates_typeSpec stage hspec).bind fun spec hspec' => ?_
  refine (locates_memberNames stage hnames).bind fun names hnames' => ?_
  refine (locates_require _ _ hspan).bind fun _ _ => (locates_require _ _ hspan).bind fun _ _ => ?_
  have hresult : ({ m with spec, names } : Member TypeSpec).outline = m.outline := by
    simp only [Member.outline, hspec', hnames']
  dsimp only
  split
  · exact (locates_require _ _ hspan).bind fun _ _ => .pure hresult
  · exact .pure hresult

theorem locates_interfaceBlock (place : Place) {b : InterfaceBlock} (hspan : P span.start)
    (h : ∀ o ∈ b.outlines, o.Starts P) :
    Locates P (interfaceBlock place b span) fun b' => b'.outlines = b.outlines := by
  simp only [InterfaceBlock.outlines, memberOutlines_eq, List.forall_mem_cons,
    List.forall_mem_append, List.forall_mem_map] at h
  obtain ⟨hquals, hms, hd⟩ := h
  have hinstance (d : Declarator) (hsome : b.instance? = some d) :
      Locates P (do
        let array ← d.array.mapM (arraySuffix place.stage)
        return ({ d with array } : Declarator)) fun d' => d'.outline = d.outline := by
    have hdecl := hd d (by simp [hsome])
    simp only [Declarator.outline, Outline.starts_node, List.forall_mem_append] at hdecl
    refine (locates_suffix place.stage hdecl.2.1).bind fun array harray => .pure ?_
    simp only [Declarator.outline, harray]
  have hbody : Locates P (do
      let members ← b.members.mapM (blockMember place.stage)
      let instance? ← b.instance?.mapM fun d => do
        let array ← d.array.mapM (arraySuffix place.stage)
        return { d with array }
      return { b with members, instance? } : Checked InterfaceBlock) fun b' => b'.outlines = b.outlines := by
    refine (Locates.mapM fun m hm => locates_blockMember place.stage (hms m hm)).bind
      fun members hmembers => ?_
    refine (Locates.mapM_option hinstance).bind fun instance? hinstance' => .pure ?_
    simp only [InterfaceBlock.outlines, memberOutlines_eq, hmembers, hinstance']
  refine .ite ((locates_report _ hspan).bind fun _ _ => hbody) ?_
  exact (locates_qualifiers place b.qualifiers hquals.span).bind fun _ _ => hbody

theorem locates_declaration (place : Place) {d : Declaration} (h : d.outline.Starts P) :
    Locates P (declaration place d) fun d' => d'.outline = d.outline := by
  cases d with
  | vars q spec ds span =>
    simp only [Declaration.outline, Outline.starts_node, List.forall_mem_cons,
      List.forall_mem_map] at h
    obtain ⟨hspan, hquals, hspec, hds⟩ := h
    refine (locates_typeSpec place.stage hspec).bind fun spec' hspec' => ?_
    have hstart : P spec'.span.start := by
      rw [← spec'.span_outline, hspec']
      exact hspec.span
    refine (locates_qualifiers place q (Span.start_merge hquals.span hstart)).bind fun _ _ => ?_
    refine (locates_require _ _ hspan).bind fun _ _ => ?_
    refine (Locates.mapM fun d hd => locates_declarator place.stage q.storage (hds d hd)).bind
      fun ds' hds' => .pure ?_
    simp only [Declaration.outline, hspec', hds']
  | block b span =>
    obtain ⟨hspan, hb⟩ := Outline.starts_node.mp h
    refine (locates_interfaceBlock place hspan hb).bind fun b' hb' => .pure ?_
    exact congrArg (Outline.node span) hb'
  | precision p spec span =>
    simp only [Declaration.outline, Outline.starts_node, List.forall_mem_singleton] at h
    refine (locates_typeSpec place.stage h.2).bind fun spec' hspec' => ?_
    have hstart : P spec'.span.start := by
      rw [← spec'.span_outline, hspec']
      exact h.2.span
    refine (locates_require _ _ hstart).bind fun _ _ => .pure ?_
    simp only [Declaration.outline, hspec']
  | invariant targets span =>
    simp only [Declaration.outline, Outline.starts_node, List.forall_mem_map] at h
    have htarget (t : InvariantTarget) (ht : t ∈ targets) :
        Locates P (invariantTarget place t) fun _ => () = () :=
      ⟨(locates_invariantTarget place (h.2 t ht).span).1, rfl⟩
    exact (Locates.mapM (v := fun _ => ()) (w := fun _ => ()) htarget).bind fun _ _ => .pure rfl

end Declarations

section Statements

variable {P : Nat → Prop} {e : Expr} {span : Span}

theorem locates_giveBack (ctx : Context) {value : Option Expr} (h : P span.start)
    (hvalue : ∀ e, value = some e → P e.span.start) :
    Locates P (giveBack ctx value span) fun _ => True := by
  unfold giveBack
  split
  · exact .pure trivial
  · refine .ite (locates_report _ (hvalue _ rfl)) ?_
    split
    · exact locates_require _ _ (hvalue _ rfl)
    · exact .pure trivial
  · exact locates_require _ _ h

theorem locates_caseLabel (ctx : Context) (h : P span.start) (he : P e.span.start) :
    Locates P (caseLabel ctx e span) fun _ => True := by
  unfold caseLabel
  split
  · exact locates_report _ h
  · split
    · exact .pure trivial
    · exact .ite (locates_report _ he) (locates_require _ _ he)

theorem locates_requireInteger (h : P e.span.start) :
    Locates P (requireInteger e) fun _ => True := by
  unfold requireInteger
  split
  · exact locates_require _ _ h
  · exact .pure trivial

theorem locates_statements_of {ctx : Context} {ss : List Stmt}
    (h : ∀ s ∈ ss, s.outline.Starts P → ∀ ctx,
      Locates P (stmt ctx s) fun s' => s'.outline = s.outline)
    (hss : ∀ s ∈ ss, s.outline.Starts P) :
    Locates P (statements ctx ss) fun ss' => ss'.map Stmt.outline = ss.map Stmt.outline := by
  induction ss with
  | nil =>
    unfold statements
    exact .pure rfl
  | cons s ss ih =>
    obtain ⟨hs, hrest⟩ := List.forall_mem_cons.mp hss
    unfold statements
    refine (h s (by simp) hs ctx).bind fun s' hs' => ?_
    refine (ih (fun a ha => h a (by simp [ha])) hrest).bind fun ss' hss' => .pure ?_
    rw [List.map_cons, List.map_cons, hs', hss']

theorem locates_stmt {s : Stmt} (h : s.outline.Starts P) (ctx : Context) :
    Locates P (stmt ctx s) fun s' => s'.outline = s.outline := by
  induction s using Stmt.induction generalizing ctx with
  | expr e span =>
    simp only [Stmt.outline, Outline.starts_node, List.forall_mem_singleton] at h
    unfold stmt
    exact (locates_expr ctx.stage h.2).bind fun d hd => .pure (by simp only [Stmt.outline, hd])
  | caseLabel e span =>
    simp only [Stmt.outline, Outline.starts_node, List.forall_mem_singleton] at h
    unfold stmt
    refine (locates_expr ctx.stage h.2).bind fun d hd => ?_
    refine (locates_caseLabel ctx h.1 (start_of_outline h.2 hd)).bind fun _ _ => .pure ?_
    simp only [Stmt.outline, hd]
  | giveBack value span =>
    rw [Stmt.outline_giveBack, Outline.starts_node] at h
    unfold stmt
    refine (locates_optionExpr ctx.stage h.2).bind fun d hd => ?_
    have hstart (e : Expr) (he : d = some e) : P e.span.start := by
      rw [← e.span_outline]
      exact (h.2 e.outline (by rw [← hd]; simp [he])).span
    refine (locates_giveBack ctx h.1 hstart).bind fun _ _ => .pure ?_
    rw [Stmt.outline_giveBack, Stmt.outline_giveBack, hd]
  | discard span =>
    unfold stmt
    exact (locates_require _ _ h.span).bind fun _ _ => .pure rfl
  | empty span | defaultLabel span | continueLoop span | breakLoop span =>
    unfold stmt
    exact .pure rfl
  | block stmts inner span ih =>
    simp only [Stmt.outline, Stmt.outlines_eq, Outline.starts_node, List.forall_mem_singleton,
      List.forall_mem_map] at h
    unfold stmt
    refine (locates_statements_of ih h.2.2).bind fun ss hss => .pure ?_
    simp only [Stmt.outline, Stmt.outlines_eq, hss]
  | decl d span =>
    simp only [Stmt.outline, Outline.starts_node, List.forall_mem_singleton] at h
    unfold stmt
    exact (locates_declaration _ h.2).bind fun d' hd' => .pure (by simp only [Stmt.outline, hd'])
  | branch c t e span iht ihe =>
    cases e with
    | none =>
      simp only [Stmt.outline, Outline.starts_node, List.forall_mem_cons] at h
      unfold stmt
      refine (locates_condition ctx.stage h.2.1).bind fun c' hc => ?_
      exact (iht h.2.2.1 ctx).bind fun t' ht => .pure (by simp only [Stmt.outline, hc, ht])
    | some e =>
      simp only [Stmt.outline, Outline.starts_node, List.forall_mem_cons] at h
      unfold stmt
      refine (locates_condition ctx.stage h.2.1).bind fun c' hc => ?_
      refine (iht h.2.2.1 ctx).bind fun t' ht => (ihe e rfl h.2.2.2.1 ctx).bind fun e' he => ?_
      exact .pure (by simp only [Stmt.outline, hc, ht, he])
  | switch e stmts inner span ih =>
    simp only [Stmt.outline, Stmt.outlines_eq, Outline.starts_node, List.forall_mem_cons,
      List.forall_mem_map] at h
    unfold stmt
    refine (locates_expr ctx.stage h.2.1).bind fun e' he => ?_
    refine (locates_requireInteger (start_of_outline h.2.1 he)).bind fun _ _ => ?_
    refine (locates_statements_of ih h.2.2.1.2).bind fun ss hss => .pure ?_
    simp only [Stmt.outline, Stmt.outlines_eq, he, hss]
  | whileLoop c body span ih =>
    simp only [Stmt.outline, Outline.starts_node, List.forall_mem_cons] at h
    unfold stmt
    refine (locates_condition ctx.stage h.2.1).bind fun c' hc => ?_
    exact (ih h.2.2.1 ctx).bind fun b hb => .pure (by simp only [Stmt.outline, hc, hb])
  | doLoop body c span ih =>
    simp only [Stmt.outline, Outline.starts_node, List.forall_mem_cons] at h
    unfold stmt
    refine (ih h.2.1 ctx).bind fun b hb => ?_
    refine (locates_condition ctx.stage h.2.2.1).bind fun c' hc => .pure ?_
    simp only [Stmt.outline, hc, hb]
  | forLoop init c u body span ihinit ihbody =>
    cases init with
    | none =>
      simp only [Stmt.outline, Outline.starts_node, List.forall_mem_append,
        List.forall_mem_singleton] at h
      obtain ⟨-, ⟨hc, hu⟩, hbody⟩ := h
      unfold stmt
      refine (locates_optionCondition ctx.stage hc).bind fun c' hc' => ?_
      refine (locates_optionExpr ctx.stage hu).bind fun u' hu' => ?_
      exact (ihbody hbody ctx).bind fun b hb => .pure (by simp only [Stmt.outline, hc', hu', hb])
    | some s =>
      simp only [Stmt.outline, Outline.starts_node, List.forall_mem_cons,
        List.forall_mem_append] at h
      obtain ⟨-, hs, ⟨hc, hu⟩, hbody, -⟩ := h
      unfold stmt
      refine (ihinit s rfl hs ctx).bind fun s' hs' => ?_
      refine (locates_optionCondition ctx.stage hc).bind fun c' hc' => ?_
      refine (locates_optionExpr ctx.stage hu).bind fun u' hu' => ?_
      refine (ihbody hbody ctx).bind fun b hb => .pure ?_
      simp only [Stmt.outline, hs', hc', hu', hb]

theorem locates_parameter (stage : Stage) {p : ParamDecl} (h : p.outline.Starts P) :
    Locates P (parameter stage p) fun p' => p'.outline = p.outline := by
  simp only [ParamDecl.outline, Outline.starts_node, List.forall_mem_cons] at h
  obtain ⟨hspan, -, hspec, harray⟩ := h
  refine (locates_typeSpec stage hspec).bind fun spec hspec' => ?_
  refine (locates_suffix stage harray).bind fun array harray' => ?_
  refine (locates_require _ _ hspan).bind fun _ _ => ?_
  have hresult : ({ p with spec, array } : ParamDecl).outline = p.outline := by
    simp only [ParamDecl.outline, hspec', harray']
  refine .ite ((locates_report _ hspan).bind fun _ _ => .pure hresult) ?_
  exact (locates_require _ _ hspan).bind fun _ _ => .pure hresult

theorem locates_function (stage : Stage) {f : FunctionDecl} (h : f.outline.Starts P) :
    Locates P (function stage f) fun f' => f'.outline = f.outline := by
  simp only [FunctionDecl.outline, Outline.starts_node, List.forall_mem_cons,
    List.forall_mem_append, List.forall_mem_map] at h
  obtain ⟨hspan, hquals, hspec, hparams, hbody⟩ := h
  refine (locates_typeSpec stage hspec).bind fun spec hspec' => ?_
  refine (locates_require _ _ hquals.span).bind fun _ _ => ?_
  refine (Locates.mapM fun p hp => locates_parameter stage (hparams p hp)).bind
    fun params hparams' => ?_
  refine (locates_require _ _ hspan).bind fun _ _ => ?_
  have hblock (b : Block Stmt) (hb : f.body = some b) :
      Locates P (do
        let stmts ← statements ⟨stage, spec.ty, none⟩ b.stmts
        return ({ b with stmts } : Block Stmt)) fun b' => b'.outline = b.outline := by
    have hstmts := hbody b (by simp [hb])
    simp only [Block.outline, Stmt.outlines_eq, Outline.starts_node, List.forall_mem_map] at hstmts
    refine (locates_statements_of (fun _ _ => locates_stmt) hstmts.2).bind fun ss hss => .pure ?_
    simp only [Block.outline, Stmt.outlines_eq, hss]
  refine (Locates.mapM_option hblock).bind fun body hbody' => .pure ?_
  simp only [FunctionDecl.outline, hspec', hparams', hbody']

theorem locates_topLevel (stage : Stage) {d : TopLevel} (h : d.outline.Starts P) :
    Locates P (topLevel stage d) fun d' => d'.outline = d.outline := by
  cases d with
  | declaration d => exact (locates_declaration _ h).bind fun _ hd => .pure hd
  | function f => exact (locates_function stage h).bind fun _ hf => .pure hf

end Statements

end Check

/-- Checking keeps the outline of a unit, and what it reports starts where something in the unit
does. -/
theorem check_locates {P : Nat → Prop} (stage : Stage) {unit : TranslationUnit}
    (h : ∀ d ∈ unit, d.outline.Starts P) :
    (check stage unit).value.map TopLevel.outline = unit.map TopLevel.outline ∧
      ∀ d ∈ (check stage unit).problems, P d.span.start := by
  have hrun : Locates P (check stage unit) fun ds =>
      ds.map TopLevel.outline = unit.map TopLevel.outline :=
    .mapM fun d hd => Check.locates_topLevel stage (h d hd)
  exact ⟨hrun.2, hrun.1⟩

end Shader
