import Shader.Library.Componentwise
import Shader.Library.Whole

/-! The values of builtin functions. -/

namespace Shader

namespace Library

/-- The value of a builtin call. Functions that have none before the shader runs, such as texture
look-ups, are not constant. -/
def call (name : String) (args : List Value) : Outcome Value :=
  match WholeFunction.ofName? name, ScalarFunction.ofName? name with
  | some f, _ => whole f args
  | none, some f => .ofOption (componentwise f args)
  | none, none => .notConstant

end Library

end Shader
