import Shader.Check
import Shader.Proofs.Check.Expr

/-! The common core of all checks. A check for no particular stage finds what the check for each
stage finds, at the same places and in the same order, except for the problems that come from the
stage itself. -/

namespace Shader

/-- What kind of problem there is and where, without the wording. -/
def Diagnostic.mark (d : Diagnostic) : Code × Span :=
  (d.code, d.span)

/-- The kinds of problem that a stage can add. -/
def stageCodes : List Code :=
  [.stageRestriction, .qualifierMisuse, .notConstant]

theorem stageRestriction_mem : Code.stageRestriction ∈ stageCodes := by decide

theorem qualifierMisuse_mem : Code.qualifierMisuse ∈ stageCodes := by decide

theorem notConstant_mem : Code.notConstant ∈ stageCodes := by decide

/-- The second list is the first with problems of a stage put in. -/
inductive Adds : List (Code × Span) → List (Code × Span) → Prop where
  | nil : Adds [] []
  | same {ms ns : List (Code × Span)} (m : Code × Span) : Adds ms ns → Adds (m :: ms) (m :: ns)
  | more {ms ns : List (Code × Span)} {m : Code × Span} (hm : m.1 ∈ stageCodes) :
    Adds ms ns → Adds ms (m :: ns)

namespace Adds

variable {ms ns : List (Code × Span)}

theorem refl (ms : List (Code × Span)) : Adds ms ms := by
  induction ms with
  | nil => exact .nil
  | cons m ms ih => exact .same m ih

theorem append {ms' ns' : List (Code × Span)} (h : Adds ms ns) (h' : Adds ms' ns') :
    Adds (ms ++ ms') (ns ++ ns') := by
  induction h with
  | nil => exact h'
  | same m _ ih => exact .same m ih
  | more hm _ ih => exact .more hm ih

theorem sublist (h : Adds ms ns) : ms.Sublist ns := by
  induction h with
  | nil => exact .slnil
  | same m _ ih => exact ih.cons_cons m
  | more _ _ ih => exact ih.cons _

theorem exists_perm (h : Adds ms ns) :
    ∃ more, ns.Perm (ms ++ more) ∧ ∀ m ∈ more, m.1 ∈ stageCodes := by
  induction h with
  | nil => exact ⟨[], .refl _, by simp⟩
  | same m _ ih =>
    obtain ⟨more, hperm, hmore⟩ := ih
    exact ⟨more, hperm.cons m, hmore⟩
  | @more ms ns m hm _ ih =>
    obtain ⟨more, hperm, hmore⟩ := ih
    refine ⟨m :: more, ?_, List.forall_mem_cons.mpr ⟨hm, hmore⟩⟩
    exact (hperm.cons m).trans List.perm_middle.symm

end Adds

namespace Check

/-- The second result has the value of the first, and the problems of the first with problems of a
stage put in. -/
def Stricter {α : Type} (x y : Checked α) : Prop :=
  x.value = y.value ∧ Adds (x.problems.map Diagnostic.mark) (y.problems.map Diagnostic.mark)

namespace Stricter

variable {α β : Type} {x y : Checked α} {f g : α → Checked β}

theorem refl (x : Checked α) : Stricter x x :=
  ⟨rfl, .refl _⟩

theorem bind (hx : Stricter x y) (hf : ∀ a, Stricter (f a) (g a)) :
    Stricter (x >>= f) (y >>= g) := by
  obtain ⟨hvalue, hproblems⟩ := hx
  have hrest := hf x.value
  refine ⟨?_, ?_⟩
  · rw [Checked.value_bind, Checked.value_bind, ← hvalue]
    exact hrest.1
  · rw [Checked.problems_bind, Checked.problems_bind, List.map_append, List.map_append, ← hvalue]
    exact hproblems.append hrest.2

theorem mapM {as : List α} (h : ∀ a ∈ as, Stricter (f a) (g a)) :
    Stricter (as.mapM f) (as.mapM g) := by
  induction as with
  | nil => exact .refl _
  | cons a as ih =>
    rw [List.mapM_cons, List.mapM_cons]
    refine (h a (by simp)).bind fun b => ?_
    exact (ih fun c hc => h c (by simp [hc])).bind fun _ => .refl _

theorem mapM_option (a : Option α) (h : ∀ a, Stricter (f a) (g a)) :
    Stricter (a.mapM f) (a.mapM g) := by
  cases a with
  | none => exact .refl _
  | some a => exact (h a).bind fun _ => .refl _

end Stricter

section Rules

variable {p : Problem} {span : Span} {a b : Bool} (hp : p.code ∈ stageCodes)

include hp

theorem stricter_report : Stricter (pure ()) (report p span) :=
  ⟨rfl, .more hp .nil⟩

theorem stricter_pure : Stricter (pure ()) (require b p span) := by
  cases b with
  | false => exact stricter_report hp
  | true => exact .refl _

theorem stricter_require (h : b = true → a = true) :
    Stricter (require a p span) (require b p span) := by
  cases a with
  | true => exact stricter_pure hp
  | false =>
    have hb : b = false := by simpa using h
    rw [hb]
    exact .refl _

end Rules

theorem mayBeInvariant_any {stage : Stage} {storage : Option Storage}
    (h : mayBeInvariant stage storage = true) : mayBeInvariant .any storage = true := by
  cases storage with
  | none => exact h
  | some s =>
    simp only [mayBeInvariant, Bool.or_eq_true, Bool.and_eq_true] at h ⊢
    exact h.imp_right fun hs => ⟨hs.1, rfl⟩

theorem stricter_callTy (stage : Stage) (f : Function) (args : List Expr) (span : Span) :
    Stricter (callTy .any f args span) (callTy stage f args span) := by
  unfold callTy
  cases args.mapM Expr.ty with
  | none => exact .refl _
  | some types =>
    dsimp only
    cases f.overload? (types.map some) with
    | none => exact .refl _
    | some o =>
      refine (Stricter.refl _).bind fun _ => .bind ?_ fun _ => .refl _
      exact stricter_require stageRestriction_mem (by simp)

/-- In a fragment shader an output array is asked for a constant index before an array of samplers
is. Both are one kind of problem at one place. -/
theorem stricter_checkIndex (stage : Stage) (array : Expr) (ty : Ty) (bound : Option Nat)
    (index : Expr) :
    Stricter (checkIndex .any array ty bound index) (checkIndex stage array ty bound index) := by
  unfold checkIndex
  generalize (if index.ty.any Ty.isInteger then index.constant?.bind Constant.index? else none) = c
  cases c with
  | some i => exact .refl _
  | none =>
    dsimp only
    by_cases harray : ty.isArray = true
    · rw [if_pos harray, if_pos harray, if_neg (by simp)]
      by_cases houtput : (stage = .fragment && array.binding?.any Variable.isOutput) = true
      · rw [if_pos houtput]
        cases ty.isOpaque with
        | false => exact stricter_report notConstant_mem
        | true => exact ⟨rfl, .same _ .nil⟩
      · rw [if_neg houtput]
        exact .refl _
    · rw [if_neg harray, if_neg harray]
      exact .refl _

theorem stricter_indexTy (stage : Stage) (array index : Expr) (span : Span) :
    Stricter (indexTy .any array index span) (indexTy stage array index span) := by
  unfold indexTy
  cases array.ty with
  | none => exact .refl _
  | some ty =>
    dsimp only
    cases elementOf? ty with
    | none => exact .refl _
    | some r =>
      have hindex := (stricter_checkIndex stage array ty r.2 index).bind fun _ =>
        .refl (pure (some r.1))
      cases index.ty with
      | none => exact hindex
      | some t => exact (Stricter.refl _).bind fun _ => hindex

theorem stricter_targetTy (stage : Stage) (target : Target) (args : List Expr) (span : Span) :
    Stricter (targetTy .any target args span) (targetTy stage target args span) := by
  cases target with
  | constructor ty => exact .refl _
  | function f => exact stricter_callTy stage f args span
  | unresolved => exact .refl _

theorem stricter_qualifiers (stage : Stage) (nested : Bool) (q : Qualifiers) (span : Span) :
    Stricter (qualifiers ⟨.any, nested⟩ q span) (qualifiers ⟨stage, nested⟩ q span) := by
  unfold qualifiers
  refine (Stricter.refl _).bind fun _ => ?_
  cases q.storage with
  | none => cases stage <;> exact .refl _
  | some s =>
    have hinvariant : (!q.invariant || (!nested && mayBeInvariant stage (some s))) = true →
        (!q.invariant || (!nested && mayBeInvariant .any (some s))) = true := by
      simp only [Bool.or_eq_true, Bool.and_eq_true]
      exact Or.imp_right (And.imp_right mayBeInvariant_any)
    refine (Stricter.refl _).bind fun _ => (Stricter.refl _).bind fun _ => ?_
    refine (Stricter.refl _).bind fun _ => ?_
    refine .bind ?_ fun _ => ?_
    · exact stricter_require qualifierMisuse_mem hinvariant
    · dsimp only
      split
      · exact stricter_report stageRestriction_mem
      · exact stricter_report stageRestriction_mem
      · exact .refl _

theorem stricter_interfaceTy (stage : Stage) (storage : Option Storage) (ty : Ty) (name : String)
    (span : Span) :
    Stricter (interfaceTy .any storage ty name span) (interfaceTy stage storage ty name span) := by
  unfold interfaceTy
  dsimp only
  split
  · exact stricter_pure stageRestriction_mem
  · exact stricter_pure stageRestriction_mem
  · exact .refl _

theorem stricter_invariantTarget (stage : Stage) (nested : Bool) (t : InvariantTarget) :
    Stricter (invariantTarget ⟨.any, nested⟩ t) (invariantTarget ⟨stage, nested⟩ t) := by
  unfold invariantTarget
  cases nested with
  | true => exact .refl _
  | false =>
    cases t.binding with
    | none => exact .refl _
    | some v => exact stricter_require qualifierMisuse_mem mayBeInvariant_any

theorem stricter_exprs_of {stage : Stage} {es : List Expr}
    (h : ∀ e ∈ es, Stricter (expr .any e) (expr stage e)) :
    Stricter (exprs .any es) (exprs stage es) := by
  induction es with
  | nil => exact .refl _
  | cons e es ih =>
    unfold exprs
    refine (h e (by simp)).bind fun _ => ?_
    exact (ih fun d hd => h d (by simp [hd])).bind fun _ => .refl _

theorem stricter_expr (stage : Stage) (e : Expr) : Stricter (expr .any e) (expr stage e) := by
  induction e using Expr.induction with
  | int | float | bool | var =>
    unfold expr
    exact .refl _
  | unary op e n ih =>
    rw [expr_unary, expr_unary]
    exact ih.bind fun _ => .refl _
  | update op before e n ih =>
    rw [expr_update, expr_update]
    exact ih.bind fun _ => .refl _
  | binary op l r n ihl ihr =>
    rw [expr_binary, expr_binary]
    exact ihl.bind fun _ => ihr.bind fun _ => .refl _
  | assign op t v n iht ihv =>
    rw [expr_assign, expr_assign]
    exact iht.bind fun _ => ihv.bind fun _ => .refl _
  | ternary c t e n ihc iht ihe =>
    rw [expr_ternary, expr_ternary]
    refine ihc.bind fun _ => (Stricter.refl _).bind fun _ => ?_
    exact iht.bind fun _ => ihe.bind fun _ => .refl _
  | comma l r n ihl ihr =>
    unfold expr
    exact ihl.bind fun _ => ihr.bind fun _ => .refl _
  | call callee suffix args target n _ ih =>
    rw [expr_call, expr_call]
    refine (stricter_exprs_of ih).bind fun args => ?_
    exact (stricter_targetTy stage target args n.span).bind fun _ => .refl _
  | field e x n ih =>
    rw [expr_field, expr_field]
    exact ih.bind fun _ => .refl _
  | index a i n iha ihi =>
    unfold expr
    refine iha.bind fun a => ihi.bind fun i => ?_
    exact (stricter_indexTy stage a i n.span).bind fun _ => .refl _
  | length e n ih =>
    rw [expr_length, expr_length]
    exact ih.bind fun _ => .refl _

theorem stricter_condition (stage : Stage) (e : Expr) :
    Stricter (condition .any e) (condition stage e) :=
  (stricter_expr stage e).bind fun _ => .refl _

theorem stricter_suffix (stage : Stage) (a : Option (ArraySuffix Expr)) :
    Stricter (a.mapM (arraySuffix .any)) (a.mapM (arraySuffix stage)) :=
  .mapM_option a fun a => (Stricter.mapM_option a.size (stricter_expr stage)).bind fun _ => .refl _

theorem stricter_memberNames (stage : Stage) (names : List MemberName) :
    Stricter (memberNames .any names) (memberNames stage names) :=
  .mapM fun m _ => (stricter_suffix stage m.array).bind fun _ => .refl _

theorem stricter_memberLines_of {stage : Stage} {ms : List (Member TypeSpec)}
    (h : ∀ m ∈ ms, Stricter (typeSpec .any m.spec) (typeSpec stage m.spec)) :
    Stricter (memberLines .any ms) (memberLines stage ms) := by
  induction ms with
  | nil =>
    unfold memberLines
    exact .refl _
  | cons m ms ih =>
    unfold memberLines
    refine (h m (by simp)).bind fun _ => (stricter_memberNames stage m.names).bind fun _ => ?_
    refine (Stricter.refl _).bind fun _ => ?_
    exact (ih fun a ha => h a (by simp [ha])).bind fun _ => .refl _

theorem stricter_typeSpec (stage : Stage) (spec : TypeSpec) :
    Stricter (typeSpec .any spec) (typeSpec stage spec) := by
  induction spec using TypeSpec.induction with
  | basic b note | named x note =>
    unfold typeSpec
    exact (stricter_suffix stage note.array).bind fun _ => .refl _
  | struct tag members span note ih =>
    unfold typeSpec
    refine (stricter_suffix stage note.array).bind fun _ => ?_
    exact (stricter_memberLines_of ih).bind fun _ => .refl _

theorem stricter_declarator (stage : Stage) (storage : Option Storage) (d : Declarator) :
    Stricter (declarator .any storage d) (declarator stage storage d) := by
  unfold declarator
  refine (stricter_suffix stage d.array).bind fun array => ?_
  refine (Stricter.mapM_option d.init (stricter_expr stage)).bind fun init => ?_
  dsimp only
  cases d.binding.bind Variable.ty with
  | none => exact .refl _
  | some ty =>
    dsimp only
    split
    · exact .refl _
    · refine .bind ?_ fun _ => .refl _
      exact (Stricter.refl _).bind fun _ => stricter_interfaceTy stage storage ty _ _

theorem stricter_blockMember (stage : Stage) (m : Member TypeSpec) :
    Stricter (blockMember .any m) (blockMember stage m) :=
  (stricter_typeSpec stage m.spec).bind fun _ =>
    (stricter_memberNames stage m.names).bind fun _ => .refl _

theorem stricter_interfaceBlock (stage : Stage) (nested : Bool) (b : InterfaceBlock)
    (span : Span) :
    Stricter (interfaceBlock ⟨.any, nested⟩ b span) (interfaceBlock ⟨stage, nested⟩ b span) := by
  have hinstance : ∀ d : Declarator, Stricter
      (do return { d with array := ← d.array.mapM (arraySuffix .any) })
      (do return { d with array := ← d.array.mapM (arraySuffix stage) }) := fun d =>
    (stricter_suffix stage d.array).bind fun _ => .refl _
  have hmembers := Stricter.mapM fun m (_ : m ∈ b.members) => stricter_blockMember stage m
  unfold interfaceBlock
  split
  · refine (Stricter.refl _).bind fun _ => hmembers.bind fun _ => ?_
    exact (Stricter.mapM_option b.instance? hinstance).bind fun _ => .refl _
  · refine (stricter_qualifiers stage nested _ _).bind fun _ => hmembers.bind fun _ => ?_
    exact (Stricter.mapM_option b.instance? hinstance).bind fun _ => .refl _

theorem stricter_declaration (stage : Stage) (nested : Bool) (d : Declaration) :
    Stricter (declaration ⟨.any, nested⟩ d) (declaration ⟨stage, nested⟩ d) := by
  cases d with
  | vars q spec ds span =>
    refine (stricter_typeSpec stage spec).bind fun spec => ?_
    refine (stricter_qualifiers stage nested q _).bind fun _ => (Stricter.refl _).bind fun _ => ?_
    exact (Stricter.mapM fun d _ => stricter_declarator stage q.storage d).bind fun _ => .refl _
  | block b span => exact (stricter_interfaceBlock stage nested b span).bind fun _ => .refl _
  | precision p spec span => exact (stricter_typeSpec stage spec).bind fun _ => .refl _
  | invariant targets span =>
    refine (Stricter.mapM fun t _ => ?_).bind fun _ => .refl _
    exact stricter_invariantTarget stage nested t

section Statements

variable {stage : Stage} {result : Option Ty} {selector : Option (Option Ty)}

theorem stricter_statements_of {ss : List Stmt}
    (h : ∀ s ∈ ss, Stricter (stmt ⟨.any, result, selector⟩ s) (stmt ⟨stage, result, selector⟩ s)) :
    Stricter (statements ⟨.any, result, selector⟩ ss)
      (statements ⟨stage, result, selector⟩ ss) := by
  induction ss with
  | nil =>
    unfold statements
    exact .refl _
  | cons s ss ih =>
    unfold statements
    refine (h s (by simp)).bind fun _ => ?_
    exact (ih fun a ha => h a (by simp [ha])).bind fun _ => .refl _

theorem stricter_stmt (s : Stmt) :
    Stricter (stmt ⟨.any, result, selector⟩ s) (stmt ⟨stage, result, selector⟩ s) := by
  induction s using Stmt.induction generalizing selector with
  | expr e span | caseLabel e span =>
    unfold stmt
    exact (stricter_expr stage e).bind fun _ => .refl _
  | giveBack value span =>
    unfold stmt
    exact (Stricter.mapM_option value (stricter_expr stage)).bind fun _ => .refl _
  | empty | defaultLabel | continueLoop | breakLoop =>
    unfold stmt
    exact .refl _
  | discard span =>
    unfold stmt
    refine .bind ?_ fun _ => .refl _
    exact stricter_require stageRestriction_mem (by simp)
  | block stmts inner span ih =>
    unfold stmt
    exact (stricter_statements_of fun s hs => ih s hs).bind fun _ => .refl _
  | decl d span =>
    unfold stmt
    exact (stricter_declaration stage true d).bind fun _ => .refl _
  | branch c t e span iht ihe =>
    cases e with
    | none =>
      unfold stmt
      exact (stricter_condition stage c).bind fun _ => iht.bind fun _ => .refl _
    | some e =>
      unfold stmt
      refine (stricter_condition stage c).bind fun _ => ?_
      exact iht.bind fun _ => (ihe e rfl).bind fun _ => .refl _
  | switch e stmts inner span ih =>
    unfold stmt
    refine (stricter_expr stage e).bind fun e => (Stricter.refl _).bind fun _ => ?_
    exact (stricter_statements_of fun s hs => ih s hs).bind fun _ => .refl _
  | whileLoop c body span ih =>
    unfold stmt
    exact (stricter_condition stage c).bind fun _ => ih.bind fun _ => .refl _
  | doLoop body c span ih =>
    unfold stmt
    exact ih.bind fun _ => (stricter_condition stage c).bind fun _ => .refl _
  | forLoop init c u body span ihinit ihbody =>
    have hrest : ∀ init, Stricter
        (do
          let c ← c.mapM (condition .any)
          let u ← u.mapM (expr .any)
          let body ← stmt ⟨.any, result, selector⟩ body
          return Stmt.forLoop init c u body span)
        (do
          let c ← c.mapM (condition stage)
          let u ← u.mapM (expr stage)
          let body ← stmt ⟨stage, result, selector⟩ body
          return Stmt.forLoop init c u body span) := fun init =>
      (Stricter.mapM_option c (stricter_condition stage)).bind fun _ =>
        (Stricter.mapM_option u (stricter_expr stage)).bind fun _ => ihbody.bind fun _ => .refl _
    cases init with
    | none =>
      unfold stmt
      exact hrest none
    | some s =>
      unfold stmt
      exact (ihinit s rfl).bind fun init => hrest (some init)

end Statements

theorem stricter_parameter (stage : Stage) (p : ParamDecl) :
    Stricter (parameter .any p) (parameter stage p) :=
  (stricter_typeSpec stage p.spec).bind fun _ =>
    (stricter_suffix stage p.array).bind fun _ => .refl _

theorem stricter_function (stage : Stage) (f : FunctionDecl) :
    Stricter (function .any f) (function stage f) := by
  unfold function
  refine (stricter_typeSpec stage f.spec).bind fun spec => (Stricter.refl _).bind fun _ => ?_
  refine (Stricter.mapM fun p _ => stricter_parameter stage p).bind fun params => ?_
  refine (Stricter.refl _).bind fun _ => .bind (.mapM_option f.body fun b => ?_) fun _ => .refl _
  exact (stricter_statements_of fun s _ => stricter_stmt s).bind fun _ => .refl _

theorem stricter_topLevel (stage : Stage) (d : TopLevel) :
    Stricter (topLevel .any d) (topLevel stage d) := by
  cases d with
  | declaration d => exact (stricter_declaration stage false d).bind fun _ => .refl _
  | function f => exact (stricter_function stage f).bind fun _ => .refl _

end Check

/-- What is found for no stage in particular is found for every stage, in the same order and at the
same places, and the rest of what is found for a stage is of the kinds that a stage can add. -/
theorem check_any_sublist (stage : Stage) (unit : TranslationUnit) :
    ((check .any unit).problems.map Diagnostic.mark).Sublist
        ((check stage unit).problems.map Diagnostic.mark) ∧
      ∃ more, ((check stage unit).problems.map Diagnostic.mark).Perm
          ((check .any unit).problems.map Diagnostic.mark ++ more) ∧
        ∀ m ∈ more, m.1 ∈ stageCodes := by
  have hunit : Check.Stricter (check .any unit) (check stage unit) :=
    .mapM fun d _ => Check.stricter_topLevel stage d
  exact ⟨hunit.2.sublist, hunit.2.exists_perm⟩

end Shader
