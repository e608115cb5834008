import Shader.Overloads
import Shader.Prelude

/-! The state of binding: the scopes at a place in the unit and the problems found before it. -/

namespace Shader

structure BindState where
  scopes : ScopeStack
  /-- The number that the next struct gets. -/
  nextStruct : Nat
  /-- The problems so far, the latest first. -/
  problems : List Diagnostic

abbrev Bind := StateM BindState

namespace Bind

def start : BindState :=
  ⟨.new (some Prelude.scope), Prelude.depthRangeId + 1, []⟩

def report (p : BindProblem) (span : Span) : Bind Unit :=
  modify fun s => { s with problems := ⟨span, .bind p⟩ :: s.problems }

def lookup? (name : String) : Bind (Option Binding) := do
  return (← get).scopes.lookup? name

/-- Declares a name in the innermost scope; a second declaration there is reported and ignored. -/
def define (name : String) (b : Binding) (span : Span) : Bind Unit := do
  match (← get).scopes.define name b with
  | .ok scopes => modify fun s => { s with scopes }
  | .error d => report (.duplicate d) span

/-- Declares an overload; a declaration that does not fit is reported and ignored. -/
def addOverload (name : String) (o : Overload) : Bind Unit := do
  match (← get).scopes.addOverload name o with
  | .ok scopes => modify fun s => { s with scopes }
  | .error p => report p o.span

def nested {α : Type} (x : Bind α) : Bind α := do
  modify fun s => { s with scopes := s.scopes.push }
  let a ← x
  modify fun s => { s with scopes := s.scopes.pop }
  return a

def freshStruct : Bind Nat :=
  modifyGet fun s => (s.nextStruct, { s with nextStruct := s.nextStruct + 1 })

def declarationKind : Bind VariableKind := do
  return if (← get).scopes.isGlobal then .global else .nested

def reference (name : String) (span : Span) : Bind (Option Variable) := do
  match ← lookup? name with
  | some (.variable v) => return some v
  | some b =>
    report (.notAVariable name b) span
    return none
  | none =>
    report (.undeclared name) span
    return none

def namedTy (name : String) (span : Span) : Bind (Option Ty) := do
  match ← lookup? name with
  | some (.struct ty) => return some ty
  | some b =>
    report (.notAType name b) span
    return none
  | none =>
    report (.unknownType name) span
    return none

end Bind

end Shader
