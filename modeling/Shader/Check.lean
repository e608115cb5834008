import Shader.Check.Declaration

/-! Checking bound translation units: types, qualifiers and the rules of the shader stage. -/

namespace Shader

namespace Check

structure Context where
  stage : Stage
  /-- The result type of the function, if it is known. -/
  result : Option Ty
  /-- The type of the selector of the innermost switch, if there is one. -/
  selector : Option (Option Ty)

def giveBack (ctx : Context) (value : Option Expr) (span : Span) : Checked Unit :=
  match ctx.result, value with
  | none, _ => pure ()
  | some expected, some e =>
    if expected.isVoid then report (.stmt .valueFromVoid) e.span
    else
      match e.ty with
      | some actual =>
        require (actual = expected) (.stmt (.resultType actual expected)) e.span
      | none => pure ()
  | some expected, none => require expected.isVoid (.stmt (.valueMissing expected)) span

/-- A case label is to be a constant of the type of the selector. -/
def caseLabel (ctx : Context) (e : Expr) (span : Span) : Checked Unit :=
  match ctx.selector with
  | none => report (.stmt .caseOutside) span
  | some selector =>
    match e.ty with
    | none => pure ()
    | some ty =>
      if e.constant?.isNone then report (.stmt .caseNotConstant) e.span
      else require (selector.all (· = ty)) (.stmt (.caseType ty)) e.span

def requireInteger (e : Expr) : Checked Unit :=
  match e.ty with
  | some t => require t.isInteger (.stmt (.selectorNotInteger t)) e.span
  | none => pure ()

mutual

def stmt (ctx : Context) : Stmt → Checked Stmt
  | .expr e span => return .expr (← expr ctx.stage e) span
  | .block ⟨stmts, inner⟩ span => do
    let stmts ← statements ctx stmts
    return .block ⟨stmts, inner⟩ span
  | .decl d span => return .decl (← declaration ⟨ctx.stage, true⟩ d) span
  | .branch c t none span => do
    let c ← condition ctx.stage c
    let t ← stmt ctx t
    return .branch c t none span
  | .branch c t (some e) span => do
    let c ← condition ctx.stage c
    let t ← stmt ctx t
    let e ← stmt ctx e
    return .branch c t (some e) span
  | .switch e ⟨stmts, inner⟩ span => do
    let e ← expr ctx.stage e
    requireInteger e
    let stmts ← statements { ctx with selector := some e.ty } stmts
    return .switch e ⟨stmts, inner⟩ span
  | .caseLabel e span => do
    let e ← expr ctx.stage e
    caseLabel ctx e span
    return .caseLabel e span
  | .whileLoop c body span => do
    let c ← condition ctx.stage c
    let body ← stmt ctx body
    return .whileLoop c body span
  | .doLoop body c span => do
    let body ← stmt ctx body
    let c ← condition ctx.stage c
    return .doLoop body c span
  | .forLoop none c u body span => do
    let c ← c.mapM (condition ctx.stage)
    let u ← u.mapM (expr ctx.stage)
    let body ← stmt ctx body
    return .forLoop none c u body span
  | .forLoop (some init) c u body span => do
    let init ← stmt ctx init
    let c ← c.mapM (condition ctx.stage)
    let u ← u.mapM (expr ctx.stage)
    let body ← stmt ctx body
    return .forLoop (some init) c u body span
  | .giveBack value span => do
    let value ← value.mapM (expr ctx.stage)
    giveBack ctx value span
    return .giveBack value span
  | .discard span => do
    require (ctx.stage ≠ .vertex) (.stmt .discardInVertex) span
    return .discard span
  | .empty span => pure (.empty span)
  | .defaultLabel span => pure (.defaultLabel span)
  | .continueLoop span => pure (.continueLoop span)
  | .breakLoop span => pure (.breakLoop span)

def statements (ctx : Context) : List Stmt → Checked (List Stmt)
  | [] => pure []
  | s :: ss => do
    let s ← stmt ctx s
    let ss ← statements ctx ss
    return s :: ss

end

def parameterQualifiers (q : Qualifiers) : Bool :=
  (match q.storage with
    | some .uniform | some .centroidInput | some .centroidOutput => false
    | _ => true)
    && q.interpolation.isNone && !q.invariant && q.layout.isEmpty

def parameter (stage : Stage) (p : ParamDecl) : Checked ParamDecl := do
  let spec ← typeSpec stage p.spec
  let array ← p.array.mapM (arraySuffix stage)
  let storage := p.qualifiers.storage
  require (parameterQualifiers p.qualifiers) (.decl .parameterQualifiers) p.span
  if spec.ty.any fun t => t.base.isVoid then report (.decl .voidParameter) p.span
  else
    require (!(spec.ty.any Ty.isOpaque && (storage = some .output || storage = some .inout)))
      (.decl .samplerOutput) p.span
  return { p with spec, array }

def function (stage : Stage) (f : FunctionDecl) : Checked FunctionDecl := do
  let spec ← typeSpec stage f.spec
  require f.qualifiers.storage.isNone (.decl .resultQualified) f.qualifiers.span
  let params ← f.params.mapM (parameter stage)
  require (!(f.name = "main" && (!params.isEmpty || !spec.ty.any Ty.isVoid)))
    (.decl .mainSignature) f.span
  let body ← f.body.mapM fun b => do
    let stmts ← statements ⟨stage, spec.ty, none⟩ b.stmts
    return { b with stmts }
  return { f with spec, params, body }

def topLevel (stage : Stage) : TopLevel → Checked TopLevel
  | .declaration d => return .declaration (← declaration ⟨stage, false⟩ d)
  | .function f => return .function (← function stage f)

end Check

/-- Checks a bound unit for a stage and records the type of every expression. -/
def check (stage : Stage) (unit : TranslationUnit) : Checked TranslationUnit :=
  unit.mapM (Check.topLevel stage)

end Shader
