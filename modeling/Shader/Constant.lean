import Shader.Value

/-! Constants: values with their types, and their source text. -/

namespace Shader

/-- The name that a constructor of the type is called by. -/
def Ty.constructorName : Ty → String
  | .basic b => b.name
  | .struct _ name _ => name.getD ""
  | .array e (some n) => s!"{e.constructorName}[{n}]"
  | .array e none => s!"{e.constructorName}[]"

def constructorCall (t : Ty) (args : List String) : String :=
  t.constructorName ++ "(" ++ ", ".intercalate args ++ ")"

namespace Value

mutual

/-- Source text that denotes a value of the given type. -/
def text : Value → Ty → Except Fault String
  | scalar s, _ => .ok s.text
  | vector cs, t => .ok (constructorCall t (cs.map Scalar.text))
  | matrix _ _ data, t => .ok (constructorCall t (data.map Scalar.floatText))
  | struct values, t =>
    match t with
    | .struct _ _ fields => do
      let parts ← fieldTexts values fields
      return constructorCall t parts
    | _ => .error .shape
  | array values, t =>
    match t with
    | .array element _ => do
      let parts ← elementTexts values element
      return constructorCall t parts
    | _ => .error .shape

def fieldTexts : List (String × Value) → List (String × Ty) → Except Fault (List String)
  | (_, v) :: vs, (_, t) :: ts => do
    let first ← v.text t
    let rest ← fieldTexts vs ts
    return first :: rest
  | _, _ => .ok []

def elementTexts : List Value → Ty → Except Fault (List String)
  | v :: vs, t => do
    let first ← v.text t
    let rest ← elementTexts vs t
    return first :: rest
  | [], _ => .ok []

end

end Value

structure Constant where
  ty : Ty
  value : Value
deriving Repr

namespace Constant

def ofScalar (s : Scalar) : Constant :=
  ⟨.scalar s.kind, .scalar s⟩

def ofBool (b : Bool) : Constant :=
  ofScalar (.bool b)

def text (c : Constant) : Except Fault String :=
  c.value.text c.ty

def sameValue (c d : Constant) : Bool :=
  c.ty == d.ty && c.value.sameValue d.value

/-- The value of an integer constant, as an index or a size. -/
def index? (c : Constant) : Option Int :=
  c.value.scalar?.bind Scalar.index?

end Constant

end Shader
