import Shader.Check.Constructor
import Shader.Check.Result
import Shader.Fold

/-! Checking expressions. Each node gets its type. A node whose type is unknown was reported where
it went wrong, so the nodes above it stay silent. -/

namespace Shader

/-- Why an expression cannot be assigned to. An unresolved variable is not reported again. -/
def Expr.assignProblem? : Expr → Option NotAssignable
  | .var _ none _ => none
  | .var x (some v) _ =>
    if v.isWritable then none
    else
      match v.storage with
      | some .uniform => some (.uniform x)
      | some s => some (if s.isInput then .input x else .const x)
      | none => some (.const x)
  | .field e x _ =>
    if e.ty.any Ty.isVector
        && (Swizzle.indices x ((e.ty.map Ty.vectorSize).getD 0)).toOption.any Swizzle.repeats then
      some (.repeated x)
    else e.assignProblem?
  | .index a _ _ => a.assignProblem?
  | _ => some .noPlace

namespace Check

def binaryTy (op : BinaryOp) (l r : Ty) (span : Span) : Checked (Option Ty) :=
  if op.isEquality && l = r && (l.isArray || l.isStruct) && !l.isOpaque then pure (some .bool)
  else
    match l.basic?, r.basic? with
    | some a, some b =>
      match op.rule a b with
      | some result => pure (some (.basic result))
      | none => untyped (.noOperator op l r) span
    | _, _ => untyped (.noOperator op l r) span

def unaryTy (op : UnaryOp) (ty : Ty) (span : Span) : Checked (Option Ty) :=
  match ty.basic?.bind op.rule with
  | some result => pure (some (.basic result))
  | none => untyped (.unary op ty) span

def requireAssignable (e : Expr) (operation : String) : Checked Unit :=
  match e.assignProblem? with
  | some why => report (.expr (.notAssignable operation why)) e.span
  | none => pure ()

def updateTy (op : UpdateOp) (ty : Ty) (span : Span) : Checked (Option Ty) :=
  if ty.componentKind?.any ScalarKind.isNumeric then pure (some ty)
  else untyped (.update op ty) span

/-- An assignment has the type of its target. -/
def assignTy (op : AssignOp) (target value : Ty) (span : Span) : Checked (Option Ty) :=
  match op.binary? with
  | none => do
    require (target = value) (.expr (.assignType value target)) span
    return some target
  | some b => do
    match ← binaryTy b target value span with
    | none => return none
    | some result =>
      require (result = target) (.expr (.storeBack op target value result)) span
      return some target

def branchTy (whenTrue whenFalse : Ty) (span : Span) : Checked (Option Ty) :=
  if whenTrue = whenFalse then pure (some whenTrue)
  else untyped (.branches whenTrue whenFalse) span

def outArguments (function : String) : List Parameter → List Expr → Checked Unit
  | p :: params, a :: args => do
    if p.direction.isOutput then
      match a.assignProblem? with
      | some why => report (.expr (.outArgument function why)) a.span
      | none => pure ()
    outArguments function params args
  | _, _ => pure ()

/-- The derivative functions have no meaning in a vertex shader. -/
def isFragmentOnly (f : Function) : Bool :=
  f.builtin && ["dFdx", "dFdy", "fwidth"].contains f.name

def callTy (stage : Stage) (f : Function) (args : List Expr) (span : Span) :
    Checked (Option Ty) := do
  match args.mapM Expr.ty with
  | none => return none
  | some types =>
    match f.overload? (types.map some) with
    | none => untyped (.noOverload f types) span
    | some o =>
      outArguments f.name o.params args
      require (!(isFragmentOnly f && stage = .vertex)) (.expr (.fragmentOnly f.name)) span
      return o.result

/-- A constructor has its type even where its arguments do not fit. -/
def constructTy (ty : Ty) (args : List Expr) (span : Span) : Checked (Option Ty) := do
  match (args.mapM Expr.ty).bind (constructorProblem? ty) with
  | some p => report (.expr (.constructor p)) span
  | none => pure ()
  return some ty

def fieldTy (ty : Ty) (name : String) (span : Span) : Checked (Option Ty) :=
  match ty with
  | .basic (.vector kind n) =>
    match Swizzle.indices name n.toNat with
    | .ok indices => pure (some (.basic (.ofComponents kind indices.length)))
    | .error p => untyped (.swizzle p) span
  | .struct _ _ fields =>
    match fields.lookup name with
    | some t => pure (some t)
    | none => untyped (.noField ty name) span
  | .basic (.scalar _) =>
    if Swizzle.isLike name then untyped (.scalarSwizzle ty) span else untyped (.noFields ty) span
  | _ => untyped (.noFields ty) span

def lengthTy (ty : Ty) (span : Span) : Checked (Option Ty) :=
  if ty.length?.isSome then pure (some .int) else untyped (.noLength ty) span

/-- What indexing gives, and the first index that is out of range. -/
def elementOf? : Ty → Option (Ty × Option Nat)
  | .array element size => some (element, size)
  | .basic (.vector kind n) => some (.scalar kind, some n.toNat)
  | .basic (.matrix c r) => some (.basic (.vector .float r), some c.toNat)
  | _ => none

/-- A constant index is to be in range. Output arrays of a fragment shader and arrays of samplers
take no other index. -/
def checkIndex (stage : Stage) (array : Expr) (ty : Ty) (bound : Option Nat) (index : Expr) :
    Checked Unit :=
  let constant := if index.ty.any Ty.isInteger then index.constant?.bind Constant.index? else none
  match constant with
  | some i =>
    require (!(i < 0 || bound.any fun n => (n : Int) ≤ i)) (.expr (.indexRange i ty)) index.span
  | none =>
    if ty.isArray then
      if stage = .fragment && array.binding?.any Variable.isOutput then
        report (.expr .outputIndex) index.span
      else require (!ty.isOpaque) (.expr .samplerIndex) index.span
    else pure ()

def indexTy (stage : Stage) (array index : Expr) (span : Span) : Checked (Option Ty) := do
  match index.ty with
  | some t => require t.isInteger (.expr (.indexType t)) index.span
  | none => pure ()
  match array.ty with
  | none => return none
  | some ty =>
    match elementOf? ty with
    | none => untyped (.notIndexable ty) span
    | some (element, bound) =>
      checkIndex stage array ty bound index
      return some element

def requireBool (e : Expr) : Checked Unit :=
  match e.ty with
  | some t => require t.isBool (.stmt (.conditionNotBool t)) e.span
  | none => pure ()

mutual

def expr (stage : Stage) : Expr → Checked Expr
  | .int text n =>
    match Literal.int text with
    | .ok s => pure (.int text { n with ty := some (.scalar s.kind) })
    | .error e => do
      report (.expr (.literal e)) n.span
      return .int text { n with ty := none }
  | .float text n => pure (.float text { n with ty := some .float })
  | .bool b n => pure (.bool b { n with ty := some .bool })
  | .var x binding n => pure (.var x binding { n with ty := binding.bind Variable.ty })
  | .unary op e n => do
    let e ← expr stage e
    let ty ←
      match e.ty with
      | some t => unaryTy op t n.span
      | none => pure none
    return .unary op e { n with ty }
  | .update op before e n => do
    let e ← expr stage e
    requireAssignable e op.text
    let ty ←
      match e.ty with
      | some t => updateTy op t n.span
      | none => pure none
    return .update op before e { n with ty }
  | .binary op l r n => do
    let l ← expr stage l
    let r ← expr stage r
    let ty ←
      match l.ty, r.ty with
      | some a, some b => binaryTy op a b n.span
      | _, _ => pure none
    return .binary op l r { n with ty }
  | .assign op t v n => do
    let t ← expr stage t
    let v ← expr stage v
    requireAssignable t op.text
    let ty ←
      match t.ty, v.ty with
      | some a, some b => assignTy op a b n.span
      | _, _ => pure none
    return .assign op t v { n with ty }
  | .ternary c t e n => do
    let c ← expr stage c
    requireBool c
    let t ← expr stage t
    let e ← expr stage e
    let ty ←
      match t.ty, e.ty with
      | some a, some b => branchTy a b n.span
      | _, _ => pure none
    return .ternary c t e { n with ty }
  | .comma l r n => do
    let l ← expr stage l
    let r ← expr stage r
    return .comma l r { n with ty := r.ty }
  | .call callee suffix args target n => do
    let args ← exprs stage args
    let ty ←
      match target with
      | .constructor t => constructTy t args n.span
      | .function f => callTy stage f args n.span
      | .unresolved => pure none
    return .call callee suffix args target { n with ty }
  | .field e x n => do
    let e ← expr stage e
    let ty ←
      match e.ty with
      | some t => fieldTy t x n.span
      | none => pure none
    return .field e x { n with ty }
  | .index a i n => do
    let a ← expr stage a
    let i ← expr stage i
    let ty ← indexTy stage a i n.span
    return .index a i { n with ty }
  | .length e n => do
    let e ← expr stage e
    let ty ←
      match e.ty with
      | some t => lengthTy t n.span
      | none => pure none
    return .length e { n with ty }

def exprs (stage : Stage) : List Expr → Checked (List Expr)
  | [] => pure []
  | e :: es => do
    let e ← expr stage e
    let es ← exprs stage es
    return e :: es

end

def condition (stage : Stage) (e : Expr) : Checked Expr := do
  let e ← expr stage e
  requireBool e
  return e

def arraySuffix (stage : Stage) (a : ArraySuffix Expr) : Checked (ArraySuffix Expr) := do
  let size ← a.size.mapM (expr stage)
  return { a with size }

end Check

end Shader
