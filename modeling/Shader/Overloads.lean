import Shader.Problem

/-! Adding a declaration to the overloads of a function. -/

namespace Shader

/-- Adds an overload, or merges it with one of the same parameter types. -/
def Function.addOverload (f : Function) (o : Overload) : Except BindProblem Function :=
  match f.overload? o.paramTypes with
  | none => .ok { f with overloads := f.overloads ++ [o] }
  | some existing =>
    if existing.result.isSome && o.result.isSome && !typesMatch existing.result o.result then
      .error (.resultChanged f.name)
    else if existing.defined && o.defined then .error (.bodyRepeated f.name)
    else
      .ok { f with overloads := markDefined f.overloads }
where
  /-- The first overload of these parameter types gets the body of the new one. -/
  markDefined : List Overload → List Overload
    | [] => []
    | p :: ps =>
      if p.accepts o.paramTypes then { p with defined := p.defined || o.defined } :: ps
      else p :: markDefined ps

def Scope.addOverload (s : Scope) (name : String) (builtin : Bool) (o : Overload) :
    Except BindProblem Scope :=
  match s.lookup? name with
  | none => .ok (s.insert name (.function ⟨name, builtin, [o]⟩))
  | some (.function f) => do
    let f ← f.addOverload o
    return s.replace name (.function f)
  | some b => .error (.declaredAs name b)

/-- Adds an overload in the innermost scope. Builtin functions take no further overloads. -/
def ScopeStack.addOverload (s : ScopeStack) (name : String) (o : Overload) :
    Except BindProblem ScopeStack :=
  match s.lookupBuiltin? name with
  | some (.function _) => .error (.builtinRedefined name)
  | _ => do
    let inner ← s.inner.addOverload name false o
    return { s with inner }

end Shader
