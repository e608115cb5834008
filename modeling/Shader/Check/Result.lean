import Shader.Problem
import Shader.Stage

/-! Results of checking: a value and the problems met on the way. -/

namespace Shader

structure Checked (α : Type) where
  value : α
  /-- In the order in which they were met. -/
  problems : List Diagnostic

namespace Checked

def pure {α : Type} (a : α) : Checked α :=
  ⟨a, []⟩

def bind {α β : Type} (x : Checked α) (f : α → Checked β) : Checked β :=
  let y := f x.value
  ⟨y.value, x.problems ++ y.problems⟩

instance : Monad Checked where
  pure := pure
  bind := bind

end Checked

namespace Check

def report (p : Problem) (span : Span) : Checked Unit :=
  ⟨(), [⟨span, p⟩]⟩

def require (holds : Bool) (p : Problem) (span : Span) : Checked Unit :=
  if holds then pure () else report p span

/-- Reports a problem with an expression, which therefore has no type. -/
def untyped (p : ExprProblem) (span : Span) : Checked (Option Ty) :=
  ⟨none, [⟨span, .expr p⟩]⟩

end Check

end Shader
