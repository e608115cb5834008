import Shader.Proofs.Overloads
import Shader.Proofs.Resolver

/-! Lexical scoping. The binder, which enters and leaves scopes on one stack, resolves every name as
environments do. -/

namespace Shader

namespace ScopeStack

variable {s t : ScopeStack} {x y : String} {b : Binding}

theorem lookup?_eq (s : ScopeStack) (x : String) :
    s.lookup? x = (s.inner.lookup? x <|>
      (s.outer.findSome? (fun scope => scope.lookup? x) <|> s.lookupBuiltin? x)) := by
  rw [lookup?, List.findSome?_cons]
  cases s.inner.lookup? x <;> rfl

theorem lookup?_of_inner (h : s.inner.lookup? x = some b) : s.lookup? x = some b := by
  rw [lookup?_eq, h]
  rfl

theorem lookup?_of_inner_eq {inner : Scope}
    (h : ∀ y, inner.lookup? y = if y = x then some b else s.inner.lookup? y) (y : String) :
    ScopeStack.lookup? { s with inner } y = if y = x then some b else s.lookup? y := by
  rw [lookup?_eq, lookup?_eq, h]
  by_cases hy : y = x
  · simp [hy]
  · simp [hy, lookupBuiltin?]

theorem lookup?_new (builtins : Option Scope) (x : String) :
    (new builtins).lookup? x = builtins.bind fun scope => scope.lookup? x := by
  rw [lookup?_eq]
  simp only [new, Scope.lookup?, Scope.empty, List.lookup_nil, List.findSome?_nil, lookupBuiltin?]
  cases builtins <;> rfl

theorem lookup?_push (s : ScopeStack) (x : String) : s.push.lookup? x = s.lookup? x := by
  rw [lookup?_eq, lookup?_eq]
  simp only [push, Scope.lookup?, Scope.empty, List.lookup_nil, List.findSome?_cons, lookupBuiltin?]
  cases s.inner.entries.lookup x <;> rfl

end ScopeStack

/-- The environment gives every name the meaning that it has in the scopes. -/
structure Env.Shows (env : Env) (s : ScopeStack) : Prop where
  builtins : s.builtins = some env.builtins
  meaning : ∀ x, env.meaning x = s.lookup? x
  own : ∀ x, x ∈ env.own ↔ (s.inner.lookup? x).isSome = true
  isGlobal : env.isGlobal = s.isGlobal

namespace Env.Shows

variable {env : Env} {s t : ScopeStack} {x : String} {b : Binding}

theorem start (builtins : Scope) : (Env.start builtins).Shows (.new (some builtins)) where
  builtins := rfl
  meaning x := (ScopeStack.lookup?_new (some builtins) x).symm
  own x := by simp [Env.start, ScopeStack.new, Scope.lookup?, Scope.empty]
  isGlobal := rfl

theorem push (h : env.Shows s) : env.nest.Shows s.push where
  builtins := h.builtins
  meaning x := (h.meaning x).trans (s.lookup?_push x).symm
  own x := by simp [nest, ScopeStack.push, Scope.lookup?, Scope.empty]
  isGlobal := rfl

theorem extend (h : env.Shows s) {inner : Scope}
    (hinner : ∀ y, inner.lookup? y = if y = x then some b else s.inner.lookup? y) :
    (env.extend x b).Shows { s with inner } where
  builtins := h.builtins
  meaning y := by
    rw [ScopeStack.lookup?_of_inner_eq hinner, ← h.meaning]
    rfl
  own y := by
    rw [hinner, Env.extend, List.mem_cons, h.own]
    by_cases hy : y = x <;> simp [hy]
  isGlobal := h.isGlobal

theorem declare (h : env.Shows s) (hs : s.define x b = .ok t) : (env.declare x b).Shows t := by
  obtain ⟨hnone, rfl⟩ := ScopeStack.define_eq_ok hs
  rw [Env.declare, if_neg (by simp [h.own, hnone])]
  exact h.extend fun y => Scope.lookup?_insert _ _ _ _

theorem declare_error (h : env.Shows s) {d : Duplicate} (hs : s.define x b = .error d) :
    env.declare x b = env := by
  have hown : x ∈ env.own := by
    rw [h.own]
    cases hx : s.inner.lookup? x with
    | none =>
      rw [ScopeStack.define, ScopeStack.lookupLocal?, hx] at hs
      cases hs
    | some b => rfl
  rw [Env.declare, if_pos hown]

theorem lookupBuiltin? (h : env.Shows s) (x : String) :
    s.lookupBuiltin? x = env.builtins.lookup? x := by
  rw [ScopeStack.lookupBuiltin?, h.builtins, Option.bind_some]

theorem declareOverload (h : env.Shows s) {o : Overload} (hs : s.addOverload x o = .ok t) :
    (env.declareOverload x o).Shows t := by
  obtain ⟨inner, hadd, rfl⟩ := ScopeStack.addOverload_eq_ok hs
  obtain ⟨helse, g, hg, hcase⟩ := Scope.addOverload_eq_ok hadd
  have hinner : ∀ y, inner.lookup? y = if y = x then some (.function g) else s.inner.lookup? y := by
    intro y
    by_cases hy : y = x
    · rw [if_pos hy, hy, hg]
    · rw [if_neg hy, helse y hy]
  unfold Env.declareOverload
  split
  · rename_i f hf
    rw [ScopeStack.addOverload, h.lookupBuiltin?, hf] at hs
    cases hs
  · rcases hcase with ⟨hnone, rfl⟩ | ⟨f, hf, hfg⟩
    · rw [if_neg (by simp [h.own, hnone])]
      exact h.extend hinner
    · rw [if_pos (by simp [h.own, hf]), h.meaning, ScopeStack.lookup?_of_inner hf]
      simp only [hfg]
      exact h.extend hinner

theorem declareOverload_error (h : env.Shows s) {o : Overload} {p : BindProblem}
    (hs : s.addOverload x o = .error p) : env.declareOverload x o = env := by
  unfold Env.declareOverload
  split
  · rfl
  · rename_i hbuiltin
    have hinner : s.inner.addOverload x false o = .error p := by
      refine ScopeStack.addOverload_eq_error hs fun f hf => hbuiltin f ?_
      rw [← h.lookupBuiltin?, hf]
    cases hx : s.inner.lookup? x with
    | none =>
      rw [Scope.addOverload, hx] at hinner
      cases hinner
    | some b =>
      rw [if_pos (by simp [h.own, hx]), h.meaning, ScopeStack.lookup?_of_inner hx]
      cases b with
      | «variable» v => rfl
      | struct ty => rfl
      | function f =>
        cases hadd : f.addOverload o with
        | error d => simp only [hadd]
        | ok g =>
          simp only [Scope.addOverload, hx, hadd] at hinner
          cases hinner

end Env.Shows

open Resolve (Numbered)

namespace Bind

/-- Wherever the environment shows the scopes, the action returns what the resolver does, numbers
the structs alike, and leaves scopes that the environment after it shows, the same ones around the
innermost. -/
def Follows {α : Type} (x : Bind α) (y : Env → Numbered (α × Env)) : Prop :=
  ∀ s env, env.Shows s.scopes → s.scopes.SameAround (x.run s).2.scopes ∧
    ∃ env', env'.Shows (x.run s).2.scopes ∧
      (y env).run s.nextStruct = (((x.run s).1, env'), (x.run s).2.nextStruct)

section Follows

variable {α β : Type} {x : Bind α} {y : Env → Numbered (α × Env)}

theorem Follows.pure (a : α) : Follows (pure a) fun env => pure (a, env) :=
  fun _ env h => ⟨.refl _, env, h, rfl⟩

theorem Follows.bind {f : α → Bind β} {g : α → Env → Numbered (β × Env)} (hx : Follows x y)
    (hf : ∀ a, Follows (f a) (g a)) :
    Follows (x >>= f) fun env => y env >>= fun r => g r.1 r.2 := by
  intro s env h
  obtain ⟨hsame₁, env₁, h₁, heq₁⟩ := hx s env h
  obtain ⟨hsame₂, env₂, h₂, heq₂⟩ := hf (x.run s).1 (x.run s).2 env₁ h₁
  refine ⟨hsame₁.trans hsame₂, env₂, h₂, ?_⟩
  rw [StateT.run_bind, heq₁]
  exact heq₂

theorem Follows.congr {z : Env → Numbered (α × Env)} (h : Follows x y)
    (hyz : ∀ env, y env = z env) :
    Follows x z :=
  fun s env hs => hyz env ▸ h s env hs

theorem Follows.ite {c : Prop} [Decidable c] {x' : Bind α} {a b : α}
    (hx : Follows x fun env => Pure.pure (a, env))
    (hx' : Follows x' fun env => Pure.pure (b, env)) :
    Follows (if c then x else x') fun env => Pure.pure (if c then a else b, env) := by
  split
  · exact hx
  · exact hx'

theorem Follows.mapM {f : α → Bind β} {g : Env → α → Numbered (β × Env)}
    (h : ∀ a, Follows (f a) fun env => g env a) (as : List α) :
    Follows (as.mapM f) fun env => Resolve.inOrder g env as := by
  induction as with
  | nil => exact .pure []
  | cons a as ih =>
    rw [List.mapM_cons]
    exact (h a).bind (fun b => ih.bind fun bs => .pure (b :: bs)) |>.congr fun _ => rfl

theorem Follows.mapM_read {f : α → Bind β} {v : Env → α → β}
    (h : ∀ a, Follows (f a) fun env => Pure.pure (v env a, env)) (as : List α) :
    Follows (as.mapM f) fun env => Pure.pure (as.map (v env), env) := by
  induction as with
  | nil => exact .pure []
  | cons a as ih =>
    rw [List.mapM_cons]
    exact (h a).bind fun b => ih.bind fun bs => .pure (b :: bs)

/-- What runs in a scope of its own is resolved in a nested environment, which is dropped. -/
theorem Follows.nested (hx : Follows x y) :
    Follows (nested x) fun env => y env.nest >>= fun r => Pure.pure (r.1, env) := by
  intro s env h
  obtain ⟨hsame, env', -, heq⟩ := hx { s with scopes := s.scopes.push } env.nest h.push
  rw [scopes_nested_of hsame, StateT.run_bind, heq]
  exact ⟨.refl _, env, h, rfl⟩

end Follows

section Actions

variable {α : Type}

theorem follows_report (problem : BindProblem) (span : Span) :
    Follows (report problem span) fun env => pure ((), env) :=
  fun _ env h => ⟨.refl _, env, h, rfl⟩

theorem follows_reported (problem : BindProblem) (span : Span) (a : α) :
    Follows (do report problem span; return a) fun env => pure (a, env) :=
  (follows_report problem span).bind fun _ => .pure a

theorem follows_define (name : String) (b : Binding) (span : Span) :
    Follows (define name b span) fun env => pure ((), env.declare name b) := by
  intro s env h
  cases hdefine : s.scopes.define name b with
  | error d =>
    rw [run_define_error hdefine]
    exact ⟨.refl _, _, (h.declare_error hdefine).symm ▸ h, rfl⟩
  | ok scopes =>
    rw [run_define hdefine]
    exact ⟨.define hdefine, _, h.declare hdefine, rfl⟩

theorem follows_addOverload (name : String) (o : Overload) :
    Follows (addOverload name o) fun env => pure ((), env.declareOverload name o) := by
  intro s env h
  cases hadd : s.scopes.addOverload name o with
  | error d =>
    rw [run_addOverload_error hadd]
    exact ⟨.refl _, _, (h.declareOverload_error hadd).symm ▸ h, rfl⟩
  | ok scopes =>
    rw [run_addOverload hadd]
    exact ⟨.addOverload hadd, _, h.declareOverload hadd, rfl⟩

theorem follows_freshStruct :
    Follows freshStruct fun env => do return (← Resolve.freshStruct, env) :=
  fun _ env h => ⟨.refl _, env, h, rfl⟩

theorem follows_declarationKind : Follows declarationKind fun env => pure (env.kind, env) := by
  intro s env h
  refine ⟨.refl _, env, h, ?_⟩
  dsimp only [Env.kind]
  rw [h.isGlobal]
  rfl

end Actions

theorem follows_reference (x : String) (span : Span) :
    Follows (reference x span) fun env => pure (env.reference? x, env) := by
  intro s env h
  have hx := h.meaning x
  rcases hb : s.scopes.lookup? x with _ | v | f | t <;> rw [hb] at hx
  all_goals
    simp only [reference, lookup?, Env.reference?, hx, StateT.run_bind, StateT.run_get, hb,
      pure_bind]
    exact ⟨.refl _, env, h, rfl⟩

theorem follows_namedTy (x : String) (span : Span) :
    Follows (namedTy x span) fun env => pure (env.ty? x, env) := by
  intro s env h
  have hx := h.meaning x
  rcases hb : s.scopes.lookup? x with _ | v | f | t <;> rw [hb] at hx
  all_goals
    simp only [namedTy, lookup?, Env.ty?, hx, StateT.run_bind, StateT.run_get, hb, pure_bind]
    exact ⟨.refl _, env, h, rfl⟩

theorem follows_plainTarget (x : String) (span : Span) :
    Follows (plainTarget x span) fun env => pure (env.target x, env) := by
  intro s env h
  have hx := h.meaning x
  rcases hb : s.scopes.lookup? x with _ | v | f | t <;> rw [hb] at hx
  all_goals
    simp only [plainTarget, lookup?, Env.target, hx, StateT.run_bind, StateT.run_get, hb, pure_bind]
    exact ⟨.refl _, env, h, rfl⟩

theorem follows_size (e : Expr) (span : Span) :
    Follows (size e span) fun env => pure (suffixExtent (some ⟨some e, span⟩), env) := by
  unfold size
  simp only [suffixExtent]
  cases e.constant? with
  | none => exact follows_reported _ _ _
  | some c =>
    simp only [Option.bind_some]
    cases c.index? with
    | none => exact follows_reported _ _ _
    | some i =>
      cases i with
      | negSucc n => exact follows_reported _ _ _
      | ofNat n =>
        cases n with
        | zero => exact follows_reported _ _ _
        | succ n => exact .pure _

theorem follows_exprs_of {es : List Expr}
    (h : ∀ e ∈ es, Follows (expr e) fun env => pure (Resolve.expr env e, env)) :
    Follows (exprs es) fun env => pure (Resolve.exprs env es, env) := by
  induction es with
  | nil =>
    unfold exprs Resolve.exprs
    exact .pure []
  | cons e es ih =>
    unfold exprs Resolve.exprs
    have hrest := ih fun a ha => h a (by simp [ha])
    exact ((h e (by simp)).bind fun e => hrest.bind fun es => .pure (e :: es))

theorem follows_arraySuffix_of {suffix : Option (ArraySuffix Expr)}
    (h : ∀ e span, suffix = some ⟨some e, span⟩ →
      Follows (expr e) fun env => pure (Resolve.expr env e, env)) :
    Follows (arraySuffix suffix) fun env =>
      let suffix := Resolve.arraySuffix env suffix
      pure ((suffix, suffixExtent suffix), env) := by
  rcases suffix with _ | ⟨_ | e, span⟩ <;> unfold arraySuffix Resolve.arraySuffix
  · exact .pure _
  · exact .pure _
  · exact (h e span rfl).bind fun e => (follows_size e span).bind fun extent => .pure (_, extent)

theorem follows_expr (e : Expr) : Follows (expr e) fun env => pure (Resolve.expr env e, env) := by
  induction e using Expr.induction with
  | int text n | float text n | bool b n =>
    unfold expr Resolve.expr
    exact .pure _
  | var x binding n =>
    unfold expr Resolve.expr
    exact (follows_reference x n.span).bind fun _ => .pure _
  | unary op e n ih | update op before e n ih | length e n ih | field e x n ih =>
    unfold expr Resolve.expr
    exact ih.bind fun _ => .pure _
  | binary op l r n ihl ihr | comma l r n ihl ihr | assign op l r n ihl ihr | index l r n ihl ihr =>
    unfold expr Resolve.expr
    exact ihl.bind fun _ => ihr.bind fun _ => .pure _
  | ternary c t e n ihc iht ihe =>
    unfold expr Resolve.expr
    exact ihc.bind fun _ => iht.bind fun _ => ihe.bind fun _ => .pure _
  | call callee suffix args target n ihsuffix ihargs =>
    have hargs := follows_exprs_of ihargs
    have hsuffix := follows_arraySuffix_of ihsuffix
    obtain ⟨name, span⟩ := callee
    cases name with
    | basic b =>
      unfold expr Resolve.expr
      exact hargs.bind fun _ => hsuffix.bind fun _ => .pure _
    | named x =>
      cases suffix with
      | none =>
        unfold expr Resolve.expr
        exact hargs.bind fun _ => (follows_plainTarget x _).bind fun _ => .pure _
      | some a =>
        unfold expr Resolve.expr
        exact hargs.bind fun _ => (follows_namedTy x _).bind fun _ => hsuffix.bind fun _ => .pure _

theorem follows_arraySuffix (suffix : Option (ArraySuffix Expr)) :
    Follows (arraySuffix suffix) fun env =>
      pure ((Resolve.arraySuffix env suffix, suffixExtent (Resolve.arraySuffix env suffix)), env) :=
  follows_arraySuffix_of fun e _ _ => follows_expr e

theorem follows_optionExpr (e : Option Expr) :
    Follows (e.mapM expr) fun env => pure (e.map (Resolve.expr env), env) := by
  cases e with
  | none => exact .pure none
  | some e => exact (follows_expr e).bind fun e => .pure (some e)

theorem follows_requireSized (ty : Option Ty) (name : String) (span : Span) :
    Follows (requireSized ty name span) fun env => pure (Resolve.sizedTy ty, env) := by
  unfold requireSized Resolve.sizedTy
  cases ty with
  | none => exact .pure _
  | some t =>
    cases t with
    | array element size =>
      cases size with
      | none => exact follows_reported _ _ _
      | some n => exact .pure _
    | _ => exact .pure _

theorem follows_memberNames (base : Option Ty) (ms : List MemberName) (fields : List Field) :
    Follows (memberNames base ms fields)
      fun env => pure (Resolve.memberNames env base ms fields, env) := by
  induction ms generalizing fields with
  | nil =>
    unfold memberNames Resolve.memberNames
    exact .pure _
  | cons m ms ih =>
    unfold memberNames Resolve.memberNames
    by_cases hrepeated : (fields.any fun f => f.name = m.name) = true
    · simp only [hrepeated, if_true, pure_bind]
      exact (follows_arraySuffix m.array).bind fun _ => (follows_requireSized _ _ _).bind fun _ =>
        (follows_report _ _).bind fun _ => (ih fields).bind fun _ => .pure _
    · simp only [hrepeated, pure_bind]
      exact (follows_arraySuffix m.array).bind fun _ => (follows_requireSized _ _ _).bind fun ty =>
        (ih (fields ++ (ty.map fun t => Field.mk m.name t m.span).toList)).bind fun _ => .pure _

theorem follows_reportStruct (spec : TypeSpec) :
    Follows (reportStruct spec) fun env => pure ((), env) := by
  cases spec with
  | basic b note | named x note => exact .pure _
  | struct tag ms span note => exact follows_report _ _

theorem follows_memberLines_of {ms : List (Member TypeSpec)}
    (h : ∀ m ∈ ms, Follows (typeSpec m.spec) fun env => Resolve.typeSpec env m.spec)
    (fields : List Field) :
    Follows (memberLines ms fields) fun env => Resolve.memberLines env ms fields := by
  induction ms generalizing fields with
  | nil =>
    unfold memberLines Resolve.memberLines
    exact .pure _
  | cons m ms ih =>
    unfold memberLines Resolve.memberLines
    have hrest := ih fun a ha => h a (by simp [ha])
    exact (follows_reportStruct m.spec).bind fun _ => (h m (by simp)).bind fun spec =>
      (follows_memberNames spec.ty m.names fields).bind fun names =>
        (hrest names.2).bind fun rest => .pure _

theorem follows_typeSpec (spec : TypeSpec) :
    Follows (typeSpec spec) fun env => Resolve.typeSpec env spec := by
  induction spec using TypeSpec.induction with
  | basic b note =>
    unfold typeSpec Resolve.typeSpec
    exact (follows_arraySuffix _).bind fun _ => .pure _
  | named x note =>
    unfold typeSpec Resolve.typeSpec
    exact (follows_namedTy x _).bind fun _ => (follows_arraySuffix _).bind fun _ => .pure _
  | struct tag ms span note ih =>
    have hmembers := follows_memberLines_of ih []
    cases tag with
    | none =>
      unfold typeSpec Resolve.typeSpec
      exact hmembers.bind fun r => follows_freshStruct.bind fun id =>
        (follows_arraySuffix note.array).bind fun _ => .pure _
    | some x =>
      unfold typeSpec Resolve.typeSpec
      exact hmembers.bind fun r => follows_freshStruct.bind fun id =>
        (follows_define x (.struct (.struct id (some x) (r.2.map Field.entry))) span).bind fun _ =>
          (follows_arraySuffix note.array).bind fun _ => .pure _

theorem follows_memberLines (ms : List (Member TypeSpec)) (fields : List Field) :
    Follows (memberLines ms fields) fun env => Resolve.memberLines env ms fields :=
  follows_memberLines_of (fun m _ => follows_typeSpec m.spec) fields

theorem follows_declaratorTy (base : Option Ty) (extent : Extent) (d : Declarator) :
    Follows (declaratorTy base extent d)
      fun env => pure (Resolve.declaratorTy base extent d, env) := by
  unfold declaratorTy Resolve.declaratorTy
  cases base with
  | none => exact .pure _
  | some t =>
    simp only [Option.bind_some]
    refine .ite (follows_reported _ _ _) ?_
    cases extent.apply (some t) with
    | none => exact .pure _
    | some ty =>
      cases ty with
      | array element size =>
        cases size with
        | none =>
          cases d.init.bind initializerSize? with
          | none => exact follows_reported _ _ _
          | some n => exact .pure _
        | some n => exact .pure _
      | _ => exact .pure _

theorem follows_declarator (q : Qualifiers) (base : Option Ty) (kind : VariableKind)
    (d : Declarator) :
    Follows (declarator q base kind d) fun env => Resolve.declarator q base kind env d := by
  unfold declarator Resolve.declarator
  exact (follows_optionExpr d.init).bind fun init => (follows_arraySuffix d.array).bind fun a =>
    (follows_declaratorTy base a.2 { d with init, array := a.1 }).bind fun ty =>
      (follows_define _ _ _).bind fun _ => .pure _

theorem follows_fields (storage : Option Storage) (fields : List Field) :
    Follows (forIn fields PUnit.unit fun f _ => do
        define f.name (.variable ⟨f.name, some f.ty, .blockMember, storage, none, f.span⟩) f.span
        return .yield PUnit.unit)
      fun env => pure (PUnit.unit, Resolve.declareFields storage env fields) := by
  induction fields with
  | nil => exact .pure _
  | cons f fields ih =>
    simp only [List.forIn_cons, bind_assoc, pure_bind]
    exact (follows_define _ _ _).bind fun _ => ih

theorem follows_interfaceBlock (b : InterfaceBlock) :
    Follows (interfaceBlock b) fun env => Resolve.interfaceBlock env b := by
  unfold interfaceBlock Resolve.interfaceBlock
  cases b.instance? with
  | some d =>
    exact (follows_memberLines b.members []).bind fun r => follows_freshStruct.bind fun id =>
      (follows_arraySuffix d.array).bind fun a => (follows_requireSized _ _ _).bind fun ty =>
        follows_declarationKind.bind fun kind => (follows_define _ _ _).bind fun _ => .pure _
  | none =>
    exact (follows_memberLines b.members []).bind fun r =>
      (follows_fields b.qualifiers.storage r.2).bind fun _ => .pure _

theorem follows_declaration (d : Declaration) :
    Follows (declaration d) fun env => Resolve.declaration env d := by
  cases d with
  | vars q spec ds span =>
    exact (follows_typeSpec spec).bind fun spec => follows_declarationKind.bind fun kind =>
      (Follows.mapM (follows_declarator q spec.ty kind) ds).bind fun _ => .pure _
  | block b span => exact (follows_interfaceBlock b).bind fun _ => .pure _
  | precision p spec span => exact (follows_typeSpec spec).bind fun _ => .pure _
  | invariant targets span =>
    have htarget : ∀ t : InvariantTarget,
        Follows (do return { t with binding := ← reference t.name t.span })
          fun env => pure ({ t with binding := env.reference? t.name }, env) :=
      fun t => (follows_reference t.name t.span).bind fun _ => .pure _
    exact (Follows.mapM_read htarget targets).bind fun _ => .pure _

/-- A part of a statement is resolved in an environment of its own. A block brings one along, and
nothing is lost by nesting it once more. -/
theorem follows_ownScope {s : Stmt} (h : Follows (stmt s) fun env => Resolve.stmt env s) :
    Follows (ownScope s (stmt s))
      fun env => Resolve.stmt env.nest s >>= fun r => pure (r.1, env) := by
  unfold ownScope
  split
  · cases s with
    | block b span =>
      obtain ⟨stmts, inner⟩ := b
      refine h.congr fun env => ?_
      unfold Resolve.stmt
      rfl
    | _ => contradiction
  · exact h.nested

theorem follows_statements_of {ss : List Stmt}
    (h : ∀ s ∈ ss, Follows (stmt s) fun env => Resolve.stmt env s) :
    Follows (statements ss) fun env => Resolve.statements env ss := by
  induction ss with
  | nil =>
    unfold statements Resolve.statements
    exact .pure _
  | cons s ss ih =>
    unfold statements Resolve.statements
    have hrest := ih fun a ha => h a (by simp [ha])
    exact (h s (by simp)).bind fun s => hrest.bind fun ss => .pure _

theorem follows_stmt (s : Stmt) : Follows (stmt s) fun env => Resolve.stmt env s := by
  induction s using Stmt.induction with
  | expr e span | caseLabel e span =>
    unfold stmt Resolve.stmt
    exact (follows_expr e).bind fun _ => .pure _
  | giveBack value span =>
    cases value with
    | none =>
      unfold stmt Resolve.stmt
      exact .pure _
    | some e =>
      unfold stmt Resolve.stmt
      exact (follows_expr e).bind fun _ => .pure _
  | empty span | defaultLabel span | continueLoop span | breakLoop span | discard span =>
    unfold stmt Resolve.stmt
    exact .pure _
  | block stmts inner span ih =>
    have hblock := (follows_statements_of ih).nested
    unfold stmt Resolve.stmt
    exact hblock.bind fun _ => .pure _
  | decl d span =>
    unfold stmt Resolve.stmt
    exact (follows_declaration d).bind fun _ => .pure _
  | branch c t e span iht ihe =>
    cases e with
    | none =>
      unfold stmt Resolve.stmt
      exact (follows_expr c).bind fun _ => (follows_ownScope iht).bind fun _ => .pure _
    | some e =>
      unfold stmt Resolve.stmt
      exact (follows_expr c).bind fun _ => (follows_ownScope iht).bind fun _ =>
        (follows_ownScope (ihe e rfl)).bind fun _ => .pure _
  | switch e stmts inner span ih =>
    have hblock := (follows_statements_of ih).nested
    unfold stmt Resolve.stmt
    exact (follows_expr e).bind fun _ => hblock.bind fun _ => .pure _
  | whileLoop c body span ih =>
    unfold stmt Resolve.stmt
    exact (follows_expr c).bind fun _ => (follows_ownScope ih).bind fun _ => .pure _
  | doLoop body c span ih =>
    unfold stmt Resolve.stmt
    exact (follows_ownScope ih).bind fun _ => (follows_expr c).bind fun _ => .pure _
  | forLoop init c u body span ihinit ihbody =>
    cases init with
    | none =>
      unfold stmt Resolve.stmt
      exact ((follows_optionExpr c).bind fun _ => (follows_optionExpr u).bind fun _ =>
        (follows_ownScope ihbody).bind fun _ => .pure _).nested
    | some s =>
      unfold stmt Resolve.stmt
      exact ((ihinit s rfl).bind fun _ => (follows_optionExpr c).bind fun _ =>
        (follows_optionExpr u).bind fun _ => (follows_ownScope ihbody).bind fun _ => .pure _).nested

theorem follows_statements (ss : List Stmt) :
    Follows (statements ss) fun env => Resolve.statements env ss :=
  follows_statements_of fun s _ => follows_stmt s

theorem follows_parameter (p : ParamDecl) :
    Follows (parameter p) fun env => Resolve.parameter env p :=
  (follows_typeSpec p.spec).bind fun _ => (follows_arraySuffix p.array).bind fun _ =>
    (follows_requireSized _ _ _).bind fun _ => .pure _

theorem follows_parameterVariable (p : ParamDecl × Parameter) :
    Follows (parameterVariable p) fun env => Resolve.parameterVariable env p := by
  unfold parameterVariable Resolve.parameterVariable
  cases p.1.name with
  | none => exact .pure _
  | some x => exact (follows_define _ _ _).bind fun _ => .pure _

theorem follows_function (f : FunctionDecl) :
    Follows (function f) fun env => Resolve.function env f := by
  have hparams := Follows.mapM follows_parameter f.params
  unfold function Resolve.function
  cases f.body with
  | none =>
    exact (follows_typeSpec f.spec).bind fun _ => hparams.bind fun _ =>
      (follows_addOverload _ _).bind fun _ => .pure _
  | some body =>
    exact (follows_typeSpec f.spec).bind fun _ => hparams.bind fun ps =>
      (follows_addOverload _ _).bind fun _ =>
        ((Follows.mapM follows_parameterVariable ps).bind fun _ =>
          (follows_statements body.stmts).bind fun _ => .pure _).nested

theorem follows_topLevel (d : TopLevel) :
    Follows (topLevel d) fun env => Resolve.topLevel env d := by
  cases d with
  | declaration d => exact (follows_declaration d).bind fun _ => .pure _
  | function f => exact (follows_function f).bind fun _ => .pure _

/-- The program leaves the stack as deep as it was, and no scope changes but the innermost one. -/
structure Confined {α : Type} (x : Bind α) (s : BindState) : Prop where
  depth : (x.run s).2.scopes.depth = s.scopes.depth
  around : s.scopes.SameAround (x.run s).2.scopes

theorem Program.confined {α : Type} {x : Bind α} (h : Program x) (s : BindState) :
    Confined x s where
  depth := by rw [ScopeStack.depth, (h.sameAround s).outer, ScopeStack.depth]
  around := h.sameAround s

theorem unit_bind (unit : TranslationUnit) : (Shader.bind unit).unit = Resolve.unit unit := by
  obtain ⟨-, env, -, heq⟩ := Follows.mapM follows_topLevel unit start _ (.start Prelude.scope)
  exact (congrArg (fun r => r.1.1) heq).symm

end Bind

/-- The binder resolves every name of a unit as environments do, in which declarations come into
effect one by one and what is nested leaves nothing behind. Binding a statement or a declaration
leaves the scopes around the innermost one as they were. -/
theorem bind_lexical :
    (∀ unit, (bind unit).unit = Resolve.unit unit) ∧
      (∀ stmt s, Bind.Confined (Bind.stmt stmt) s) ∧
      (∀ d s, Bind.Confined (Bind.declaration d) s) ∧
      (∀ f s, Bind.Confined (Bind.function f) s) ∧
      ∀ d s, Bind.Confined (Bind.topLevel d) s :=
  ⟨Bind.unit_bind, fun stmt => (Bind.program_stmt stmt).confined,
    fun d => (Bind.program_declaration d).confined, fun f => (Bind.program_function f).confined,
    fun d => (Bind.program_topLevel d).confined⟩

end Shader
