import Shader.Fold.Access
import Shader.Fold.Construct
import Shader.Library
import Shader.Literal
import Shader.Tree

/-! Folding bound expressions to constants. Trees need not be checked: what the typing rules refuse
is simply not constant. -/

namespace Shader

namespace Fold

/-- The value of a builtin call. Functions of the unit itself are never constant, nor are calls
that write to an argument. -/
def builtinCall (f : Function) (args : List Constant) : Outcome Constant := do
  if !f.builtin then .notConstant
  else
    let o ← .ofOption (f.overload? (args.map fun a => some a.ty))
    if o.hasOutput then .notConstant
    else
      let result ← .ofOption o.result
      let v ← Library.call f.name (args.map Constant.value)
      return ⟨result, v⟩

def call (target : Target) (args : List Constant) : Outcome Constant :=
  match target with
  | .unresolved => .notConstant
  | .function f => builtinCall f args
  | .constructor ty => construct ty args

/-- Both branches have to be constant and of one type. -/
def select (condition whenTrue whenFalse : Constant) : Outcome Constant :=
  if whenTrue.ty = whenFalse.ty then
    match condition.value with
    | .scalar (.bool b) => .value (if b then whenTrue else whenFalse)
    | _ => .notConstant
  else .notConstant

/-- The length of a value of the given type, as a 32-bit integer. -/
def length (ty : Ty) : Outcome Constant := do
  let n ← .ofOption ty.length?
  return .ofScalar (.int (Int32.ofNat n))

end Fold

/-- The type of an expression as far as it is known without folding. -/
def Expr.knownTy (e : Expr) : Option Ty :=
  e.ty <|> e.binding?.bind Variable.ty

mutual

/-- The constant that an expression folds to. -/
def Expr.fold : Expr → Outcome Constant
  | .int text _ => do
    let s ← .ofOption (Literal.int text).toOption
    return .ofScalar s
  | .float text _ => do
    let x ← .ofOption (Literal.float? text)
    return .ofScalar (.float x)
  | .bool b _ => .value (.ofBool b)
  | .var _ binding _ => .ofOption (binding.bind Variable.constant)
  | .unary op e _ => do
    let c ← e.fold
    Fold.unary op c
  | .binary op l r _ => do
    let a ← l.fold
    let b ← r.fold
    Fold.binary op a b
  | .ternary c t e _ => do
    let condition ← c.fold
    let whenTrue ← t.fold
    let whenFalse ← e.fold
    Fold.select condition whenTrue whenFalse
  | .call _ _ args target _ => do
    let cs ← Expr.foldAll args
    Fold.call target cs
  | .field e name _ => do
    let c ← e.fold
    Fold.field c name
  | .index a i _ => do
    let array ← a.fold
    let index ← i.fold
    Fold.index array index
  | .length e _ =>
    match e.knownTy with
    | some ty => Fold.length ty
    | none => do
      let c ← e.fold
      Fold.length c.ty
  | .update _ _ _ _ | .assign _ _ _ _ | .comma _ _ _ => .notConstant

def Expr.foldAll : List Expr → Outcome (List Constant)
  | [] => .value []
  | e :: es => do
    let c ← e.fold
    let cs ← Expr.foldAll es
    return c :: cs

end

def Expr.constant? (e : Expr) : Option Constant :=
  e.fold.value?

end Shader
