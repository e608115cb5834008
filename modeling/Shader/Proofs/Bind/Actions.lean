import Shader.Bind
import Shader.Proofs.Tree

/-! The binder as a program over a few actions on its state. Whatever the actions keep, and a scope
that is entered and left again keeps, the binding of every unit keeps. -/

namespace Shader

namespace ScopeStack

variable {s t : ScopeStack} {name : String} {o : Overload}

theorem define_eq_ok {b : Binding} (h : s.define name b = .ok t) :
    s.inner.lookup? name = none ∧ t = { s with inner := s.inner.insert name b } := by
  unfold define at h
  split at h
  · cases h
  · rename_i hnone
    exact ⟨hnone, (Except.ok.inj h).symm⟩

theorem addOverload_eq_ok (h : s.addOverload name o = .ok t) :
    ∃ inner, s.inner.addOverload name false o = .ok inner ∧ t = { s with inner } := by
  unfold addOverload at h
  split at h
  · cases h
  · cases hadd : s.inner.addOverload name false o with
    | error d =>
      rw [hadd] at h
      cases h
    | ok inner =>
      rw [hadd] at h
      exact ⟨inner, rfl, (Except.ok.inj h).symm⟩

theorem addOverload_eq_error {p : BindProblem} (h : s.addOverload name o = .error p)
    (hbuiltin : ∀ f, s.lookupBuiltin? name ≠ some (.function f)) :
    s.inner.addOverload name false o = .error p := by
  unfold addOverload at h
  split at h
  · rename_i f hf
    exact absurd hf (hbuiltin f)
  · cases hadd : s.inner.addOverload name false o with
    | error d =>
      rw [hadd] at h
      cases h
      rfl
    | ok inner =>
      rw [hadd] at h
      cases h

/-- The two stacks differ in the innermost scope at most. -/
structure SameAround (s t : ScopeStack) : Prop where
  outer : t.outer = s.outer
  builtins : t.builtins = s.builtins

namespace SameAround

variable {u : ScopeStack}

theorem refl (s : ScopeStack) : s.SameAround s :=
  ⟨rfl, rfl⟩

theorem trans (h : s.SameAround t) (h' : t.SameAround u) : s.SameAround u :=
  ⟨h'.outer.trans h.outer, h'.builtins.trans h.builtins⟩

theorem define {b : Binding} (h : s.define name b = .ok t) : s.SameAround t := by
  obtain ⟨-, rfl⟩ := define_eq_ok h
  exact ⟨rfl, rfl⟩

theorem addOverload {o : Overload} (h : s.addOverload name o = .ok t) : s.SameAround t := by
  obtain ⟨inner, -, rfl⟩ := addOverload_eq_ok h
  exact ⟨rfl, rfl⟩

theorem pop (h : s.push.SameAround t) : t.pop = s := by
  have houter : t.outer = s.inner :: s.outer := h.outer
  have hbuiltins : t.builtins = s.builtins := h.builtins
  simp only [ScopeStack.pop, houter, hbuiltins]

end SameAround

end ScopeStack

namespace Bind

/-- A program of the binder: it looks names up, declares them, reports problems, takes struct
numbers and runs other programs in a scope of their own, and touches the state in no other way. -/
inductive Program : {α : Type} → Bind α → Prop where
  | pure {α : Type} (a : α) : Program (pure a : Bind α)
  | bind {α β : Type} {x : Bind α} {f : α → Bind β} :
      Program x → (∀ a, Program (f a)) → Program (x >>= f)
  | report (problem : BindProblem) (span : Span) : Program (report problem span)
  | lookup (name : String) : Program (lookup? name)
  | kind : Program declarationKind
  | freshStruct : Program freshStruct
  /-- Functions are declared by their overloads only. -/
  | define {name : String} {b : Binding} (span : Span) :
      (∀ f, b ≠ .function f) → Program (define name b span)
  | addOverload (name : String) (o : Overload) : Program (addOverload name o)
  | nested {α : Type} {x : Bind α} : Program x → Program (nested x)

namespace Program

variable {α β : Type}

theorem mapM {f : α → Bind β} {as : List α} (h : ∀ a ∈ as, Program (f a)) :
    Program (as.mapM f) := by
  induction as with
  | nil => exact .pure []
  | cons a as ih =>
    rw [List.mapM_cons]
    refine (h a (by simp)).bind fun b => ?_
    exact (ih fun c hc => h c (by simp [hc])).bind fun bs => .pure (b :: bs)

theorem mapM_option {f : α → Bind β} {a : Option α} (h : ∀ x, a = some x → Program (f x)) :
    Program (a.mapM f) := by
  cases a with
  | none => exact .pure none
  | some x => exact (h x rfl).bind fun b => .pure (some b)

theorem ite {c : Prop} [Decidable c] {x y : Bind α} (hx : Program x) (hy : Program y) :
    Program (if c then x else y) := by
  split
  · exact hx
  · exact hy

theorem forIn {f : α → Bind Unit} {as : List α} (h : ∀ a, Program (f a)) :
    Program (forIn as PUnit.unit fun a _ => do f a; return .yield PUnit.unit) := by
  induction as with
  | nil => exact .pure PUnit.unit
  | cons a as ih =>
    rw [List.forIn_cons]
    refine ((h a).bind fun _ => .pure _).bind fun r => ?_
    cases r with
    | done u => exact .pure u
    | yield u => exact ih

theorem reported (problem : BindProblem) (span : Span) (a : α) :
    Program (do Bind.report problem span; return a) :=
  (report problem span).bind fun _ => .pure a

end Program

section Runs

variable {s : BindState} {scopes : ScopeStack} {name : String} {b : Binding} {o : Overload}
  {span : Span}

theorem run_define (h : s.scopes.define name b = .ok scopes) :
    (define name b span).run s = ((), { s with scopes }) := by
  simp only [define, StateT.run_bind, StateT.run_get, pure_bind, h]
  rfl

theorem run_define_error {d : Duplicate} (h : s.scopes.define name b = .error d) :
    (define name b span).run s =
      ((), { s with problems := ⟨span, .bind (.duplicate d)⟩ :: s.problems }) := by
  simp only [define, StateT.run_bind, StateT.run_get, pure_bind, h]
  rfl

theorem run_addOverload (h : s.scopes.addOverload name o = .ok scopes) :
    (addOverload name o).run s = ((), { s with scopes }) := by
  simp only [addOverload, StateT.run_bind, StateT.run_get, pure_bind, h]
  rfl

theorem run_addOverload_error {d : BindProblem} (h : s.scopes.addOverload name o = .error d) :
    (addOverload name o).run s = ((), { s with problems := ⟨o.span, .bind d⟩ :: s.problems }) := by
  simp only [addOverload, StateT.run_bind, StateT.run_get, pure_bind, h]
  rfl

/-- What a program declares in a scope of its own is gone at its end. -/
theorem scopes_nested_of {α : Type} {x : Bind α}
    (h : s.scopes.push.SameAround (x.run { s with scopes := s.scopes.push }).2.scopes) :
    ((nested x).run s).2.scopes = s.scopes :=
  h.pop

end Runs

theorem Program.sameAround {α : Type} {x : Bind α} (h : Program x) (s : BindState) :
    s.scopes.SameAround (x.run s).2.scopes := by
  induction h generalizing s with
  | pure a | report problem span | lookup name | kind | freshStruct => exact .refl _
  | bind _ _ ihx ihf => exact (ihx s).trans (ihf _ _)
  | @define name b span _ =>
    cases h : s.scopes.define name b with
    | error d =>
      rw [run_define_error h]
      exact .refl _
    | ok scopes =>
      rw [run_define h]
      exact .define h
  | addOverload name o =>
    cases h : s.scopes.addOverload name o with
    | error d =>
      rw [run_addOverload_error h]
      exact .refl _
    | ok scopes =>
      rw [run_addOverload h]
      exact .addOverload h
  | nested _ ih =>
    rw [scopes_nested_of (ih { s with scopes := s.scopes.push })]
    exact .refl _

end Bind

namespace Scope

variable {s t : Scope} {name : String} {b : Binding}

theorem not_mem_names (h : s.lookup? name = none) : name ∉ s.names := by
  intro hmem
  obtain ⟨e, he, rfl⟩ := List.mem_map.mp hmem
  simpa using List.lookup_eq_none_iff.mp h e he

theorem nodup_insert (hs : s.names.Nodup) (h : s.lookup? name = none) :
    (s.insert name b).names.Nodup :=
  List.nodup_cons.mpr ⟨not_mem_names h, hs⟩

theorem names_replace (s : Scope) (name : String) (b : Binding) :
    (s.replace name b).names = s.names := by
  simp only [names, replace, List.map_map]
  refine List.map_congr_left fun e _ => ?_
  simp only [Function.comp]
  split <;> rfl

theorem nodup_addOverload {builtin : Bool} {o : Overload} (hs : s.names.Nodup)
    (h : s.addOverload name builtin o = .ok t) : t.names.Nodup := by
  unfold addOverload at h
  split at h
  · obtain rfl := Except.ok.inj h
    exact nodup_insert hs ‹_›
  · rename_i f hf
    cases hadd : f.addOverload o with
    | error e =>
      rw [hadd] at h
      cases h
    | ok g =>
      rw [hadd] at h
      obtain rfl := Except.ok.inj h
      rwa [names_replace]
  · cases h

end Scope

theorem Prelude.nodup_declare {s : Scope} (hs : s.names.Nodup) (p : Prototype) :
    (declare s p).names.Nodup := by
  refine List.foldlRecOn (motive := fun s : Scope => s.names.Nodup) _ _ hs fun s hs o _ => ?_
  cases hadd : s.addOverload p.name true o with
  | error e => exact hs
  | ok t => exact Scope.nodup_addOverload hs hadd

theorem Prelude.nodup_names : scope.names.Nodup :=
  List.foldlRecOn (motive := fun s : Scope => s.names.Nodup) _ _ (by decide +kernel)
    fun _ hs p _ => nodup_declare hs p

namespace Bind

theorem Program.nodup_names {α : Type} {x : Bind α} (h : Program x) {s : BindState}
    (hs : s.scopes.inner.names.Nodup) : (x.run s).2.scopes.inner.names.Nodup := by
  induction h generalizing s with
  | pure a | report problem span | lookup name | kind | freshStruct => exact hs
  | bind _ _ ihx ihf => exact ihf _ (ihx hs)
  | @define name b span _ =>
    cases h : s.scopes.define name b with
    | error d =>
      rw [run_define_error h]
      exact hs
    | ok scopes =>
      obtain ⟨hnone, rfl⟩ := ScopeStack.define_eq_ok h
      rw [run_define h]
      exact Scope.nodup_insert hs hnone
  | addOverload name o =>
    cases h : s.scopes.addOverload name o with
    | error d =>
      rw [run_addOverload_error h]
      exact hs
    | ok scopes =>
      obtain ⟨inner, hinner, rfl⟩ := ScopeStack.addOverload_eq_ok h
      rw [run_addOverload h]
      exact Scope.nodup_addOverload hs hinner
  | nested hx _ =>
    rw [scopes_nested_of (hx.sameAround { s with scopes := s.scopes.push })]
    exact hs

theorem program_reference (name : String) (span : Span) : Program (reference name span) := by
  refine (Program.lookup name).bind fun r => ?_
  rcases r with _ | v | f | t
  · exact .reported _ _ _
  · exact .pure _
  · exact .reported _ _ _
  · exact .reported _ _ _

theorem program_namedTy (name : String) (span : Span) : Program (namedTy name span) := by
  refine (Program.lookup name).bind fun r => ?_
  rcases r with _ | v | f | t
  · exact .reported _ _ _
  · exact .reported _ _ _
  · exact .reported _ _ _
  · exact .pure _

theorem program_plainTarget (name : String) (span : Span) : Program (plainTarget name span) := by
  refine (Program.lookup name).bind fun r => ?_
  rcases r with _ | v | f | t
  · exact .reported _ _ _
  · exact .reported _ _ _
  · exact .pure _
  · exact .pure _

theorem program_size (e : Expr) (span : Span) : Program (size e span) := by
  unfold size
  split
  · exact .reported _ _ _
  · split
    · exact .pure _
    · exact .reported _ _ _

theorem program_exprs_of {es : List Expr} (h : ∀ e ∈ es, Program (expr e)) :
    Program (exprs es) := by
  induction es with
  | nil =>
    unfold exprs
    exact .pure _
  | cons e es ih =>
    unfold exprs
    refine (h e (by simp)).bind fun r => ?_
    exact (ih fun a ha => h a (by simp [ha])).bind fun rs => .pure _

theorem program_arraySuffix_of {suffix : Option (ArraySuffix Expr)}
    (h : ∀ e span, suffix = some ⟨some e, span⟩ → Program (expr e)) :
    Program (arraySuffix suffix) := by
  rcases suffix with _ | ⟨_ | e, span⟩ <;> unfold arraySuffix
  · exact .pure _
  · exact .pure _
  · exact (h e span rfl).bind fun r => (program_size r span).bind fun _ => .pure _

theorem program_expr (e : Expr) : Program (expr e) := by
  induction e using Expr.induction with
  | int text n | float text n | bool b n =>
    unfold expr
    exact .pure _
  | var x binding n =>
    unfold expr
    exact (program_reference x n.span).bind fun _ => .pure _
  | unary op e n ih | update op before e n ih | length e n ih | field e x n ih =>
    unfold expr
    exact ih.bind fun _ => .pure _
  | binary op l r n ihl ihr | comma l r n ihl ihr | assign op l r n ihl ihr | index l r n ihl ihr =>
    unfold expr
    exact ihl.bind fun _ => ihr.bind fun _ => .pure _
  | ternary c t e n ihc iht ihe =>
    unfold expr
    exact ihc.bind fun _ => iht.bind fun _ => ihe.bind fun _ => .pure _
  | call callee suffix args target n ihsuffix ihargs =>
    have hsuffix : Program (arraySuffix suffix) := program_arraySuffix_of ihsuffix
    unfold expr
    refine (program_exprs_of ihargs).bind fun args => ?_
    split
    · exact (program_plainTarget _ _).bind fun _ => .pure _
    · exact (program_namedTy _ _).bind fun _ => hsuffix.bind fun _ => .pure _
    · exact hsuffix.bind fun _ => .pure _

theorem program_arraySuffix (suffix : Option (ArraySuffix Expr)) :
    Program (arraySuffix suffix) :=
  program_arraySuffix_of fun e _ _ => program_expr e

theorem program_optionExpr (e : Option Expr) : Program (e.mapM expr) :=
  .mapM_option fun e _ => program_expr e

theorem program_requireSized (ty : Option Ty) (name : String) (span : Span) :
    Program (requireSized ty name span) := by
  unfold requireSized
  split
  · exact .reported _ _ _
  · exact .pure _

theorem program_memberNames (base : Option Ty) (ms : List MemberName) (fields : List Field) :
    Program (memberNames base ms fields) := by
  induction ms generalizing fields with
  | nil =>
    unfold memberNames
    exact .pure _
  | cons m ms ih =>
    unfold memberNames
    refine (program_arraySuffix m.array).bind fun r => ?_
    refine (program_requireSized _ _ _).bind fun ty => ?_
    simp only [pure_bind]
    refine .ite ((Program.report _ _).bind fun _ => (ih fields).bind fun _ => .pure _) ?_
    exact (ih _).bind fun _ => .pure _

theorem program_reportStruct (spec : TypeSpec) : Program (reportStruct spec) := by
  cases spec with
  | basic b note | named x note => exact .pure _
  | struct tag ms span note => exact .report _ _

theorem program_memberLines_of {ms : List (Member TypeSpec)}
    (h : ∀ m ∈ ms, Program (typeSpec m.spec)) (fields : List Field) :
    Program (memberLines ms fields) := by
  induction ms generalizing fields with
  | nil =>
    unfold memberLines
    exact .pure _
  | cons m ms ih =>
    unfold memberLines
    refine (program_reportStruct _).bind fun _ => (h m (by simp)).bind fun spec => ?_
    refine (program_memberNames _ _ _).bind fun names => ?_
    exact (ih (fun a ha => h a (by simp [ha])) _).bind fun _ => .pure _

theorem program_typeSpec (spec : TypeSpec) : Program (typeSpec spec) := by
  induction spec using TypeSpec.induction with
  | basic b note =>
    unfold typeSpec
    exact (program_arraySuffix _).bind fun _ => .pure _
  | named x note =>
    unfold typeSpec
    exact (program_namedTy x _).bind fun _ => (program_arraySuffix _).bind fun _ => .pure _
  | struct tag ms span note ih =>
    cases tag with
    | none =>
      unfold typeSpec
      refine (program_memberLines_of ih []).bind fun _ => Program.freshStruct.bind fun _ => ?_
      exact (program_arraySuffix _).bind fun _ => .pure _
    | some x =>
      unfold typeSpec
      refine (program_memberLines_of ih []).bind fun _ => Program.freshStruct.bind fun _ => ?_
      refine (Program.define span (by simp)).bind fun _ => ?_
      exact (program_arraySuffix _).bind fun _ => .pure _

theorem program_memberLines (ms : List (Member TypeSpec)) (fields : List Field) :
    Program (memberLines ms fields) :=
  program_memberLines_of (fun m _ => program_typeSpec m.spec) fields

theorem program_declaratorTy (base : Option Ty) (extent : Extent) (d : Declarator) :
    Program (declaratorTy base extent d) := by
  unfold declaratorTy
  split
  · exact .pure _
  · refine .ite (.reported _ _ _) ?_
    split
    · split
      · exact .pure _
      · exact .reported _ _ _
    · exact .pure _

theorem program_declarator (q : Qualifiers) (base : Option Ty) (kind : VariableKind)
    (d : Declarator) : Program (declarator q base kind d) := by
  refine (program_optionExpr d.init).bind fun init => ?_
  refine (program_arraySuffix d.array).bind fun r => ?_
  refine (program_declaratorTy _ _ _).bind fun ty => ?_
  exact (Program.define _ (by simp)).bind fun _ => .pure _

theorem program_interfaceBlock (b : InterfaceBlock) : Program (interfaceBlock b) := by
  refine (program_memberLines _ _).bind fun r => ?_
  obtain ⟨members, fields⟩ := r
  dsimp only
  split
  · refine Program.freshStruct.bind fun id => (program_arraySuffix _).bind fun a => ?_
    refine (program_requireSized _ _ _).bind fun ty => Program.kind.bind fun kind => ?_
    exact (Program.define _ (by simp)).bind fun _ => .pure _
  · exact (Program.forIn fun f => Program.define _ (by simp)).bind fun _ => .pure _

theorem program_declaration (d : Declaration) : Program (declaration d) := by
  cases d with
  | vars q spec ds span =>
    refine (program_typeSpec spec).bind fun spec => Program.kind.bind fun kind => ?_
    exact (Program.mapM fun d _ => program_declarator q _ kind d).bind fun _ => .pure _
  | block b span => exact (program_interfaceBlock b).bind fun _ => .pure _
  | precision p spec span => exact (program_typeSpec spec).bind fun _ => .pure _
  | invariant targets span =>
    refine Program.bind (Program.mapM fun t _ => ?_) fun _ => .pure _
    exact (program_reference t.name t.span).bind fun _ => .pure _

theorem program_ownScope {s : Stmt} {x : Bind Stmt} (hx : Program x) : Program (ownScope s x) := by
  unfold ownScope
  exact .ite hx (.nested hx)

theorem program_statements_of {ss : List Stmt} (h : ∀ s ∈ ss, Program (stmt s)) :
    Program (statements ss) := by
  induction ss with
  | nil =>
    unfold statements
    exact .pure _
  | cons s ss ih =>
    unfold statements
    refine (h s (by simp)).bind fun _ => ?_
    exact (ih fun a ha => h a (by simp [ha])).bind fun _ => .pure _

theorem program_stmt (s : Stmt) : Program (stmt s) := by
  induction s using Stmt.induction with
  | expr e span | caseLabel e span =>
    unfold stmt
    exact (program_expr e).bind fun _ => .pure _
  | giveBack value span =>
    cases value with
    | none =>
      unfold stmt
      exact .pure _
    | some e =>
      unfold stmt
      exact (program_expr e).bind fun _ => .pure _
  | empty span | defaultLabel span | continueLoop span | breakLoop span | discard span =>
    unfold stmt
    exact .pure _
  | block stmts inner span ih =>
    unfold stmt
    exact (Program.nested (program_statements_of ih)).bind fun _ => .pure _
  | decl d span =>
    unfold stmt
    exact (program_declaration d).bind fun _ => .pure _
  | branch c t e span iht ihe =>
    cases e with
    | none =>
      unfold stmt
      exact (program_expr c).bind fun _ => (program_ownScope iht).bind fun _ => .pure _
    | some e =>
      unfold stmt
      refine (program_expr c).bind fun _ => (program_ownScope iht).bind fun _ => ?_
      exact (program_ownScope (ihe e rfl)).bind fun _ => .pure _
  | switch e stmts inner span ih =>
    unfold stmt
    refine (program_expr e).bind fun _ => ?_
    exact (Program.nested (program_statements_of ih)).bind fun _ => .pure _
  | whileLoop c body span ih =>
    unfold stmt
    exact (program_expr c).bind fun _ => (program_ownScope ih).bind fun _ => .pure _
  | doLoop body c span ih =>
    unfold stmt
    exact (program_ownScope ih).bind fun _ => (program_expr c).bind fun _ => .pure _
  | forLoop init c u body span ihinit ihbody =>
    cases init with
    | none =>
      unfold stmt
      refine .nested ((program_optionExpr c).bind fun _ => (program_optionExpr u).bind fun _ => ?_)
      exact (program_ownScope ihbody).bind fun _ => .pure _
    | some s =>
      unfold stmt
      refine .nested ((ihinit s rfl).bind fun _ => (program_optionExpr c).bind fun _ => ?_)
      refine (program_optionExpr u).bind fun _ => ?_
      exact (program_ownScope ihbody).bind fun _ => .pure _

theorem program_statements (ss : List Stmt) : Program (statements ss) :=
  program_statements_of fun s _ => program_stmt s

theorem program_parameter (p : ParamDecl) : Program (parameter p) := by
  refine (program_typeSpec p.spec).bind fun spec => (program_arraySuffix p.array).bind fun a => ?_
  exact (program_requireSized _ _ _).bind fun _ => .pure _

theorem program_parameterVariable (p : ParamDecl × Parameter) : Program (parameterVariable p) := by
  unfold parameterVariable
  split
  · exact .pure _
  · exact (Program.define _ (by simp)).bind fun _ => .pure _

/-- What is left of binding a function once its overload is declared. -/
def functionBody (f : FunctionDecl) (spec : TypeSpec) (params : List (ParamDecl × Parameter)) :
    Bind FunctionDecl :=
  match f.body with
  | none => return { f with spec, params := params.map Prod.fst }
  | some body => nested do
    let params ← params.mapM parameterVariable
    let stmts ← statements body.stmts
    return { f with spec, params, body := some { body with stmts } }

theorem program_functionBody (f : FunctionDecl) (spec : TypeSpec)
    (params : List (ParamDecl × Parameter)) : Program (functionBody f spec params) := by
  unfold functionBody
  split
  · exact .pure _
  · refine .nested ((Program.mapM fun p _ => program_parameterVariable p).bind fun _ => ?_)
    exact (program_statements _).bind fun _ => .pure _

theorem program_function (f : FunctionDecl) : Program (function f) := by
  refine (program_typeSpec f.spec).bind fun spec => ?_
  refine (Program.mapM fun p _ => program_parameter p).bind fun params => ?_
  exact (Program.addOverload _ _).bind fun _ => program_functionBody f spec params

theorem program_topLevel (d : TopLevel) : Program (topLevel d) := by
  cases d with
  | declaration d => exact (program_declaration d).bind fun _ => .pure _
  | function f => exact (program_function f).bind fun _ => .pure _

theorem program_unit (unit : TranslationUnit) : Program (unit.mapM topLevel) :=
  .mapM fun d _ => program_topLevel d

end Bind

/-- The scope of a unit has each of its names once. -/
theorem nodup_globals (unit : TranslationUnit) : (bind unit).globals.names.Nodup := by
  have hprogram := Bind.program_unit unit
  have houter : ((unit.mapM Bind.topLevel).run Bind.start).2.scopes.outer = [] :=
    (hprogram.sameAround Bind.start).outer
  have hglobal : (bind unit).globals =
      ((unit.mapM Bind.topLevel).run Bind.start).2.scopes.global := rfl
  rw [hglobal, ScopeStack.global, houter]
  exact hprogram.nodup_names (s := Bind.start) List.nodup_nil

end Shader
