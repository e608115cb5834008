import Shader.Constant
import Shader.Library.Matrix
import Shader.Outcome

/-! Values of constructors. -/

namespace Shader

namespace Fold

def flatten (kind : ScalarKind) (args : List Constant) : Option (List Scalar) :=
  if args.any fun a => a.ty.componentCount = 0 then none
  else some (args.flatMap fun a => a.value.components.map fun s => s.convert kind)

/-- A vector of `n` components: one component fills it, more than `n` are cut off. -/
def vectorOf (kind : ScalarKind) (n : Nat) (args : List Constant) : Option Value := do
  match ← flatten kind args with
  | [s] => return .vector (List.replicate n s)
  | cs => if cs.length < n then none else return .vector (cs.take n)

/-- `d` on the diagonal and 0 elsewhere. -/
def diagonal (d : Binary32) : Grid Binary32 :=
  fun c r => if c = r then d else .zero

/-- A matrix of another shape, filled up from the identity. -/
def resize (cols rows fromCols fromRows : Nat) (data : List Binary32) :
    Outcome (List Binary32) :=
  (Grid.toList cols rows fun c r => (c, r)).mapM fun (c, r) =>
    if c < fromCols && r < fromRows then .ofExcept (component data (c * fromRows + r))
    else .value (diagonal .one c r)

def matrixOf (cols rows : Nat) (args : List Constant) : Outcome Value := do
  let data ←
    match args with
    | [⟨_, .matrix c r data⟩] => resize cols rows c r data
    | [⟨_, .scalar s⟩] => .value ((diagonal s.toBinary32).toList cols rows)
    | _ =>
      if args.any fun a => a.ty.isMatrix then .notConstant
      else do
        let cs ← .ofOption (flatten .float args)
        if cs.length < cols * rows then .notConstant
        else .value ((cs.take (cols * rows)).map Scalar.toBinary32)
  return .matrix cols rows data

/-- The value that the constructor of a type gives for constant arguments. -/
def constructValue (ty : Ty) (args : List Constant) : Outcome Value :=
  match ty with
  | .basic (.scalar kind) => do
    match args with
    | [arg] =>
      match ← .ofOption (flatten kind [arg]) with
      | s :: _ => return .scalar s
      | [] => .notConstant
    | _ => .notConstant
  | .basic (.vector kind n) => .ofOption (vectorOf kind n.toNat args)
  | .basic (.matrix c r) => matrixOf c.toNat r.toNat args
  | .struct _ _ fields =>
    if fields.map Prod.snd = args.map Constant.ty then
      .value (.struct (fields.zipWith (fun f a => (f.1, a.value)) args))
    else .notConstant
  | .array element (some n) =>
    if args.length = n && args.all fun a => a.ty = element then
      .value (.array (args.map Constant.value))
    else .notConstant
  | _ => .notConstant

def construct (ty : Ty) (args : List Constant) : Outcome Constant := do
  let v ← constructValue ty args
  return ⟨ty, v⟩

end Fold

end Shader
