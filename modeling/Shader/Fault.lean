/-! States that a well-formed constant never leads to. They are kept apart from the ordinary answer
that an expression is not constant. -/

namespace Shader

inductive Fault where
  /-- A scalar was to be made of no components. -/
  | noComponents
  /-- A value does not have the shape of the type that goes with it. -/
  | shape
  /-- An operator met operands that its typing rule refuses. -/
  | operand
  /-- A component was read beyond the end of a value. -/
  | missing (index length : Nat)
  /-- A run of components up to `stop` was read from a value with fewer. -/
  | short (stop length : Nat)
deriving DecidableEq, Repr

def Fault.message : Fault → String
  | noComponents => "scalar value without components"
  | shape => "constant value does not match its type"
  | operand => "operator accepted for other operands"
  | missing index length =>
    s!"index out of bounds: the len is {length} but the index is {index}"
  | short stop length => s!"range end index {stop} out of range for slice of length {length}"

/-- The component at an index that is known to be there. -/
def component {α : Type} (xs : List α) (i : Nat) : Except Fault α :=
  match xs[i]? with
  | some x => .ok x
  | none => .error (.missing i xs.length)

end Shader
