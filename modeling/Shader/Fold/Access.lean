import Shader.Fold.Operator
import Shader.Swizzle

/-! Values of fields, swizzles and indices. -/

namespace Shader

namespace Fold

def field (object : Constant) (name : String) : Outcome Constant :=
  match object.ty, object.value with
  | .struct _ _ fields, .struct values => do
    let ty ← .ofOption (fields.lookup name)
    let value ← .ofOption (values.lookup name)
    return ⟨ty, value⟩
  | .basic (.vector kind n), value => do
    let indices ← .ofOption (Swizzle.indices name n.toNat).toOption
    let cs ← indices.mapM fun i => .ofExcept (component value.components i)
    ofComponents (.ofComponents kind cs.length) cs
  | _, _ => .notConstant

def place? (index : Constant) : Option Nat :=
  if index.ty.isInteger then
    match index.index? with
    | some (.ofNat n) => some n
    | _ => none
  else none

def index (array index : Constant) : Outcome Constant := do
  let i ← .ofOption (place? index)
  match array.ty, array.value with
  | .array element _, .array values =>
    let v ← .ofOption values[i]?
    return ⟨element, v⟩
  | .basic (.vector _ _), .vector cs =>
    let s ← .ofOption cs[i]?
    return .ofScalar s
  | .basic (.matrix _ rows), value =>
    let column ← .ofExcept (value.column? i)
    let v ← .ofOption column
    return ⟨.basic (.vector .float rows), v⟩
  | _, _ => .notConstant

end Fold

end Shader
