import Shader.Fault

/-! Outcomes of folding an expression. -/

namespace Shader

inductive Outcome (α : Type) where
  | value (a : α)
  /-- The expression has no value before the shader runs. -/
  | notConstant
  | fault (f : Fault)
deriving DecidableEq, Repr

namespace Outcome

def bind {α β : Type} (x : Outcome α) (f : α → Outcome β) : Outcome β :=
  match x with
  | value a => f a
  | notConstant => notConstant
  | fault e => fault e

instance : Monad Outcome where
  pure := value
  bind := bind

def ofOption {α : Type} : Option α → Outcome α
  | some a => value a
  | none => notConstant

def ofExcept {α : Type} : Except Fault α → Outcome α
  | .ok a => value a
  | .error e => fault e

def value? {α : Type} : Outcome α → Option α
  | value a => some a
  | _ => none

end Outcome

end Shader
