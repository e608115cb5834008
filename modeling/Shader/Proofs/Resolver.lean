import Shader.Proofs.Entry

/-! Names resolved by environments. An environment says what each name means at a place of a unit;
declarations hand an extended one to what follows them, and what is nested gets one of its own, of
which nothing comes back. There is no stack of scopes and nothing is undone. -/

namespace Shader

/-- What the names mean at a place of a unit. -/
structure Env where
  /-- What is declared before the unit. -/
  builtins : Scope
  meaning : String → Option Binding
  /-- The names that were declared since the innermost nesting began. -/
  own : List String
  /-- The place is in no nesting. -/
  isGlobal : Bool

namespace Env

def start (builtins : Scope) : Env :=
  ⟨builtins, builtins.lookup?, [], true⟩

def nest (env : Env) : Env :=
  { env with own := [], isGlobal := false }

def extend (env : Env) (x : String) (b : Binding) : Env :=
  { env with
    meaning := fun y => if y = x then some b else env.meaning y
    own := x :: env.own }

/-- A second declaration in one nesting is ignored. -/
def declare (env : Env) (x : String) (b : Binding) : Env :=
  if x ∈ env.own then env else env.extend x b

/-- An overload joins the function of its name that was declared in the same nesting. A name that
is a builtin function's takes none. -/
def declareOverload (env : Env) (x : String) (o : Overload) : Env :=
  match env.builtins.lookup? x with
  | some (.function _) => env
  | _ =>
    if x ∈ env.own then
      match env.meaning x with
      | some (.function f) =>
        match f.addOverload o with
        | .ok g => env.extend x (.function g)
        | .error _ => env
      | _ => env
    else env.extend x (.function ⟨x, false, [o]⟩)

def reference? (env : Env) (x : String) : Option Variable :=
  match env.meaning x with
  | some (.variable v) => some v
  | _ => none

def ty? (env : Env) (x : String) : Option Ty :=
  match env.meaning x with
  | some (.struct t) => some t
  | _ => none

def target (env : Env) (x : String) : Target :=
  match env.meaning x with
  | some (.function f) => .function f
  | some (.struct t) => .constructor t
  | _ => .unresolved

def kind (env : Env) : VariableKind :=
  if env.isGlobal then .global else .nested

end Env

namespace Resolve

mutual

def expr (env : Env) : Expr → Expr
  | .var x _ note => .var x (env.reference? x) note
  | .unary op e note => .unary op (expr env e) note
  | .update op before e note => .update op before (expr env e) note
  | .length e note => .length (expr env e) note
  | .field e x note => .field (expr env e) x note
  | .binary op l r note => .binary op (expr env l) (expr env r) note
  | .comma l r note => .comma (expr env l) (expr env r) note
  | .assign op t v note => .assign op (expr env t) (expr env v) note
  | .index a i note => .index (expr env a) (expr env i) note
  | .ternary c t e note => .ternary (expr env c) (expr env t) (expr env e) note
  | .call callee suffix args _ note =>
    let args := exprs env args
    match callee.name, suffix with
    | .named x, none => .call callee none args (env.target x) note
    | .named x, suffix =>
      let array := arraySuffix env suffix
      let ty := (suffixExtent array).apply (env.ty? x)
      .call callee array args (Bind.constructorTarget ty args) note
    | .basic b, suffix =>
      let array := arraySuffix env suffix
      let ty := (suffixExtent array).apply (some (.basic b))
      .call callee array args (Bind.constructorTarget ty args) note
  | .int text note => .int text note
  | .float text note => .float text note
  | .bool b note => .bool b note

def exprs (env : Env) : List Expr → List Expr
  | [] => []
  | e :: es => expr env e :: exprs env es

def arraySuffix (env : Env) : Option (ArraySuffix Expr) → Option (ArraySuffix Expr)
  | none => none
  | some ⟨none, span⟩ => some ⟨none, span⟩
  | some ⟨some e, span⟩ => some ⟨some (expr env e), span⟩

end

/-- Structs are numbered in the order of their declarations. What is declared comes with the
environment for what follows it. -/
abbrev Numbered :=
  StateM Nat

def freshStruct : Numbered Nat :=
  modifyGet fun n => (n, n + 1)

/-- Resolves the parts in order, each in the environment that the ones before it leave. -/
def inOrder {α β : Type} (f : Env → α → Numbered (β × Env)) :
    Env → List α → Numbered (List β × Env)
  | env, [] => return ([], env)
  | env, a :: as => do
    let (b, env) ← f env a
    let (bs, env) ← inOrder f env as
    return (b :: bs, env)

def sizedTy : Option Ty → Option Ty
  | some (.array _ none) => none
  | t => t

def memberNames (env : Env) (base : Option Ty) :
    List MemberName → List Field → List MemberName × List Field
  | [], fields => ([], fields)
  | m :: ms, fields =>
    let array := arraySuffix env m.array
    let ty := sizedTy ((suffixExtent array).apply base)
    let fields :=
      if fields.any fun f => f.name = m.name then fields
      else fields ++ (ty.map fun t => Field.mk m.name t m.span).toList
    let rest := memberNames env base ms fields
    ({ m with array } :: rest.1, rest.2)

mutual

/-- The name of a struct is there after its members, and before the brackets behind them. -/
def typeSpec : Env → TypeSpec → Numbered (TypeSpec × Env)
  | env, .basic b note =>
    let array := arraySuffix env note.array
    return (.basic b { note with array, ty := (suffixExtent array).apply (some (.basic b)) }, env)
  | env, .named x note =>
    let array := arraySuffix env note.array
    return (.named x { note with array, ty := (suffixExtent array).apply (env.ty? x) }, env)
  | env, .struct tag members structSpan note => do
    let ((members, fields), env) ← memberLines env members []
    let ty : Ty := .struct (← freshStruct) tag (fields.map Field.entry)
    let env := tag.elim env fun name => env.declare name (.struct ty)
    let array := arraySuffix env note.array
    let ty := (suffixExtent array).apply (some ty)
    return (.struct tag members structSpan { note with array, ty }, env)

def memberLines : Env → List (Member TypeSpec) → List Field →
    Numbered ((List (Member TypeSpec) × List Field) × Env)
  | env, [], fields => return (([], fields), env)
  | env, ⟨quals, spec, names, span⟩ :: rest, fields => do
    let (spec, env) ← typeSpec env spec
    let (names, fields) := memberNames env spec.ty names fields
    let ((rest, fields), env) ← memberLines env rest fields
    return ((⟨quals, spec, names, span⟩ :: rest, fields), env)

end

/-- The type of a declared variable. -/
def declaratorTy (base : Option Ty) (extent : Extent) (d : Declarator) : Option Ty :=
  base.bind fun t =>
    if t.isArray && (extent = .unsized || extent matches .sized _) then none
    else
      match extent.apply base with
      | some (.array element none) =>
        (d.init.bind Bind.initializerSize?).map fun n => .array element (some n)
      | ty => ty

/-- A declarator extends the environment after its initializer and its size. -/
def declarator (quals : Qualifiers) (base : Option Ty) (kind : VariableKind) (env : Env)
    (d : Declarator) : Numbered (Declarator × Env) :=
  let init := d.init.map (expr env)
  let array := arraySuffix env d.array
  let d := { d with init, array }
  let ty := declaratorTy base (suffixExtent array) d
  let v : Variable := ⟨d.name, ty, kind, quals.storage, Bind.constantOf quals ty init, d.span⟩
  return ({ d with binding := some v }, env.declare d.name (.variable v))

/-- The members of a block without an instance name are variables. -/
def declareFields (storage : Option Storage) (env : Env) (fields : List Field) : Env :=
  fields.foldl (fun env f =>
    env.declare f.name (.variable ⟨f.name, some f.ty, .blockMember, storage, none, f.span⟩)) env

def interfaceBlock (env : Env) (b : InterfaceBlock) : Numbered (InterfaceBlock × Env) := do
  let ((members, fields), env) ← memberLines env b.members []
  match b.instance? with
  | some d => do
    let ty : Ty := .struct (← freshStruct) (some b.name) (fields.map Field.entry)
    let array := arraySuffix env d.array
    let ty := sizedTy ((suffixExtent array).apply (some ty))
    let v : Variable := ⟨d.name, ty, env.kind, b.qualifiers.storage, none, d.span⟩
    let instance? := some { d with array, binding := some v }
    return ({ b with members, instance? }, env.declare d.name (.variable v))
  | none => return ({ b with members }, declareFields b.qualifiers.storage env fields)

def declaration (env : Env) : Declaration → Numbered (Declaration × Env)
  | .vars quals spec ds span => do
    let (spec, env) ← typeSpec env spec
    let (ds, env) ← inOrder (declarator quals spec.ty env.kind) env ds
    return (.vars quals spec ds span, env)
  | .block b span => do
    let (b, env) ← interfaceBlock env b
    return (.block b span, env)
  | .precision p spec span => do
    let (spec, env) ← typeSpec env spec
    return (.precision p spec span, env)
  | .invariant targets span =>
    return (.invariant (targets.map fun t => { t with binding := env.reference? t.name }) span, env)

mutual

/-- A part of a statement that is a statement itself is nested, and so is a loop with its header. -/
def stmt : Env → Stmt → Numbered (Stmt × Env)
  | env, .expr e span => return (.expr (expr env e) span, env)
  | env, .caseLabel e span => return (.caseLabel (expr env e) span, env)
  | env, .giveBack value span => return (.giveBack (value.map (expr env)) span, env)
  | env, .block ⟨stmts, inner⟩ span => do
    let (stmts, _) ← statements env.nest stmts
    return (.block ⟨stmts, inner⟩ span, env)
  | env, .decl d span => do
    let (d, env) ← declaration env d
    return (.decl d span, env)
  | env, .branch c t none span => do
    let (t, _) ← stmt env.nest t
    return (.branch (expr env c) t none span, env)
  | env, .branch c t (some e) span => do
    let (t, _) ← stmt env.nest t
    let (e, _) ← stmt env.nest e
    return (.branch (expr env c) t (some e) span, env)
  | env, .switch e ⟨stmts, inner⟩ span => do
    let (stmts, _) ← statements env.nest stmts
    return (.switch (expr env e) ⟨stmts, inner⟩ span, env)
  | env, .whileLoop c body span => do
    let (body, _) ← stmt env.nest body
    return (.whileLoop (expr env c) body span, env)
  | env, .doLoop body c span => do
    let (body, _) ← stmt env.nest body
    return (.doLoop body (expr env c) span, env)
  | env, .forLoop none c u body span => do
    let header := env.nest
    let (body, _) ← stmt header.nest body
    return (.forLoop none (c.map (expr header)) (u.map (expr header)) body span, env)
  | env, .forLoop (some init) c u body span => do
    let (init, header) ← stmt env.nest init
    let (body, _) ← stmt header.nest body
    return (.forLoop (some init) (c.map (expr header)) (u.map (expr header)) body span, env)
  | env, .empty span => return (.empty span, env)
  | env, .defaultLabel span => return (.defaultLabel span, env)
  | env, .continueLoop span => return (.continueLoop span, env)
  | env, .breakLoop span => return (.breakLoop span, env)
  | env, .discard span => return (.discard span, env)

def statements : Env → List Stmt → Numbered (List Stmt × Env)
  | env, [] => return ([], env)
  | env, s :: ss => do
    let (s, env) ← stmt env s
    let (ss, env) ← statements env ss
    return (s :: ss, env)

end

def parameter (env : Env) (p : ParamDecl) : Numbered ((ParamDecl × Parameter) × Env) := do
  let (spec, env) ← typeSpec env p.spec
  let array := arraySuffix env p.array
  let ty := sizedTy ((suffixExtent array).apply spec.ty)
  return (({ p with spec, array }, ⟨ty, .ofStorage p.qualifiers.storage⟩), env)

def parameterVariable (env : Env) (p : ParamDecl × Parameter) : Numbered (ParamDecl × Env) :=
  match p.1.name with
  | none => return (p.1, env)
  | some x =>
    let v : Variable := ⟨x, p.2.ty, .parameter, p.1.qualifiers.storage, none, p.1.span⟩
    return ({ p.1 with binding := some v }, env.declare x (.variable v))

/-- The name of a function is there after its signature. Its parameters and its body are nested
together. -/
def function (env : Env) (f : FunctionDecl) : Numbered (FunctionDecl × Env) := do
  let (spec, env) ← typeSpec env f.spec
  let (params, env) ← inOrder parameter env f.params
  let o : Overload := ⟨params.map Prod.snd, spec.ty, f.span, f.body.isSome⟩
  let env := env.declareOverload f.name o
  match f.body with
  | none => return ({ f with spec, params := params.map Prod.fst }, env)
  | some body => do
    let (params, inner) ← inOrder parameterVariable env.nest params
    let (stmts, _) ← statements inner body.stmts
    return ({ f with spec, params, body := some { body with stmts } }, env)

def topLevel (env : Env) : TopLevel → Numbered (TopLevel × Env)
  | .declaration d => do
    let (d, env) ← declaration env d
    return (.declaration d, env)
  | .function f => do
    let (f, env) ← function env f
    return (.function f, env)

def unit (u : TranslationUnit) : TranslationUnit :=
  ((inOrder topLevel (Env.start Prelude.scope) u).run (Prelude.depthRangeId + 1)).1.1

end Resolve

end Shader
