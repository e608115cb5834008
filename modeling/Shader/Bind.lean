import Shader.Bind.Declaration

/-! Binding translation units: every name is resolved where it stands, from the start of the unit to
its end. -/

namespace Shader

namespace Bind

/-- Binds a statement that is part of another. It has a scope of its own, which a block brings
along. -/
def ownScope (s : Stmt) (x : Bind Stmt) : Bind Stmt :=
  if s.isBlock then x else nested x

mutual

def stmt : Stmt → Bind Stmt
  | .expr e span => return .expr (← expr e) span
  | .caseLabel e span => return .caseLabel (← expr e) span
  | .giveBack (some e) span => return .giveBack (some (← expr e)) span
  | .block ⟨stmts, inner⟩ span => do
    let stmts ← nested (statements stmts)
    return .block ⟨stmts, inner⟩ span
  | .decl d span => return .decl (← declaration d) span
  | .branch c t none span => do
    let c ← expr c
    let t ← ownScope t (stmt t)
    return .branch c t none span
  | .branch c t (some e) span => do
    let c ← expr c
    let t ← ownScope t (stmt t)
    let e ← ownScope e (stmt e)
    return .branch c t (some e) span
  | .switch e ⟨stmts, inner⟩ span => do
    let e ← expr e
    let stmts ← nested (statements stmts)
    return .switch e ⟨stmts, inner⟩ span
  | .whileLoop c body span => do
    let c ← expr c
    let body ← ownScope body (stmt body)
    return .whileLoop c body span
  | .doLoop body c span => do
    let body ← ownScope body (stmt body)
    let c ← expr c
    return .doLoop body c span
  | .forLoop none c u body span => nested do
    let c ← c.mapM expr
    let u ← u.mapM expr
    let body ← ownScope body (stmt body)
    return .forLoop none c u body span
  | .forLoop (some init) c u body span => nested do
    let init ← stmt init
    let c ← c.mapM expr
    let u ← u.mapM expr
    let body ← ownScope body (stmt body)
    return .forLoop (some init) c u body span
  | .giveBack none span => return .giveBack none span
  | .empty span => return .empty span
  | .defaultLabel span => return .defaultLabel span
  | .continueLoop span => return .continueLoop span
  | .breakLoop span => return .breakLoop span
  | .discard span => return .discard span

def statements : List Stmt → Bind (List Stmt)
  | [] => return []
  | s :: ss => do
    let s ← stmt s
    let ss ← statements ss
    return s :: ss

end

def parameter (p : ParamDecl) : Bind (ParamDecl × Parameter) := do
  let spec ← typeSpec p.spec
  let (array, extent) ← arraySuffix p.array
  let ty ← requireSized (extent.apply spec.ty) (p.name.getD "parameter") p.span
  return ({ p with spec, array }, ⟨ty, .ofStorage p.qualifiers.storage⟩)

def parameterVariable (p : ParamDecl × Parameter) : Bind ParamDecl := do
  match p.1.name with
  | none => return p.1
  | some x =>
    let v : Variable := ⟨x, p.2.ty, .parameter, p.1.qualifiers.storage, none, p.1.span⟩
    define x (.variable v) p.1.span
    return { p.1 with binding := some v }

/-- A function is visible in its own body, and its parameters share the scope of the body. -/
def function (f : FunctionDecl) : Bind FunctionDecl := do
  let spec ← typeSpec f.spec
  let params ← f.params.mapM parameter
  addOverload f.name ⟨params.map Prod.snd, spec.ty, f.span, f.body.isSome⟩
  match f.body with
  | none => return { f with spec, params := params.map Prod.fst }
  | some body => nested do
    let params ← params.mapM parameterVariable
    let stmts ← statements body.stmts
    return { f with spec, params, body := some { body with stmts } }

def topLevel : TopLevel → Bind TopLevel
  | .declaration d => return .declaration (← declaration d)
  | .function f => return .function (← function f)

end Bind

/-- A unit with its names resolved, its global scope, and the problems in the order found. -/
structure Bound where
  unit : TranslationUnit
  globals : Scope
  problems : List Diagnostic

def bind (unit : TranslationUnit) : Bound :=
  let (unit, state) := (unit.mapM Bind.topLevel).run Bind.start
  ⟨unit, state.scopes.global, state.problems.reverse⟩

end Shader
