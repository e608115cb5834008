import Shader.Problem

/-! The arguments that constructors take. -/

namespace Shader

namespace Check

def totalComponents (args : List Ty) : Nat :=
  args.foldr (fun a n => a.componentCount + n) 0

/-- Vectors and matrices of `needed` components. One component is enough for all of them; an
argument of which nothing is used is one too many. -/
def componentsProblem? (ty : Ty) (needed : Nat) (args : List Ty) : Option ConstructorProblem :=
  let supplied := totalComponents args
  if supplied = 1 then none
  else if supplied < needed then some (.tooFew ty needed supplied)
  else if needed ≤ totalComponents args.dropLast then some (.tooMany ty)
  else none

def compositeProblem? (ty : Ty) (needed : Nat) (args : List Ty) : Option ConstructorProblem :=
  if args.isEmpty then some (.noArguments ty)
  else
    match args.find? fun a => a.componentCount = 0 with
    | some a => some (.unusable a ty)
    | none =>
      if ty.isMatrix && args.any Ty.isMatrix then
        if 1 < args.length then some .matrixNotAlone else none
      else componentsProblem? ty needed args

/-- The first field whose argument has another type. -/
def fieldProblem? (ty : Ty) : List (String × Ty) → List Ty → Option ConstructorProblem
  | (x, t) :: fields, a :: args =>
    if t = a then fieldProblem? ty fields args else some (.fieldType x ty t a)
  | _, _ => none

/-- What is wrong with constructing a type from arguments of the given types. -/
def constructorProblem? (ty : Ty) (args : List Ty) : Option ConstructorProblem :=
  match ty with
  | .basic (.scalar _) =>
    match args with
    | [a] => if 0 < a.componentCount then none else some (.conversion a ty)
    | _ => some (.singleArgument ty args.length)
  | .basic (.vector k n) => compositeProblem? ty (BasicTy.vector k n).componentCount args
  | .basic (.matrix c r) => compositeProblem? ty (BasicTy.matrix c r).componentCount args
  | .struct _ _ fields =>
    if args.length = fields.length then fieldProblem? ty fields args
    else some (.argumentCount ty fields.length args.length)
  | .array element (some n) =>
    if args.length = n then
      (args.find? fun a => a ≠ element).map fun a => .elementType ty element a
    else some (.argumentCount ty n args.length)
  | _ => some (.notConstructible ty)

end Check

end Shader
