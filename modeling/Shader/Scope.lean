import Shader.Binding

/-! Scopes and the stack of nested scopes over a fixed outermost one. -/

namespace Shader

/-- Names with their bindings, the latest first. A name is added only where it is not declared yet,
so none occurs twice. -/
structure Scope where
  entries : List (String × Binding)
deriving Repr

namespace Scope

def empty : Scope := ⟨[]⟩

def lookup? (s : Scope) (name : String) : Option Binding :=
  s.entries.lookup name

def insert (s : Scope) (name : String) (b : Binding) : Scope :=
  ⟨(name, b) :: s.entries⟩

def replace (s : Scope) (name : String) (b : Binding) : Scope :=
  ⟨s.entries.map fun (n, old) => if n = name then (n, b) else (n, old)⟩

def names (s : Scope) : List String :=
  s.entries.map Prod.fst

def size (s : Scope) : Nat :=
  s.entries.length

end Scope

structure Duplicate where
  name : String
  existing : Binding
deriving Repr

def Duplicate.message (d : Duplicate) : String :=
  s!"'{d.name}' is already declared in this scope as a {d.existing.describe}"

/-- The scopes around a place in a unit: the innermost one, the ones around it from the inside out,
and the builtin one that they all stand in. -/
structure ScopeStack where
  builtins : Option Scope
  inner : Scope
  outer : List Scope
deriving Repr

namespace ScopeStack

def new (builtins : Option Scope) : ScopeStack :=
  ⟨builtins, .empty, []⟩

def push (s : ScopeStack) : ScopeStack :=
  { s with inner := .empty, outer := s.inner :: s.outer }

def pop (s : ScopeStack) : ScopeStack :=
  match s.outer with
  | [] => s
  | scope :: rest => { s with inner := scope, outer := rest }

def isGlobal (s : ScopeStack) : Bool :=
  s.outer.isEmpty

def depth (s : ScopeStack) : Nat :=
  s.outer.length + 1

def lookupBuiltin? (s : ScopeStack) (name : String) : Option Binding :=
  s.builtins.bind fun b => b.lookup? name

def lookupLocal? (s : ScopeStack) (name : String) : Option Binding :=
  s.inner.lookup? name

/-- The binding of a name from the innermost scope outward, builtins last. -/
def lookup? (s : ScopeStack) (name : String) : Option Binding :=
  (s.inner :: s.outer).findSome? (fun scope => scope.lookup? name) <|> s.lookupBuiltin? name

/-- Adds a name to the innermost scope, unless it is there already. -/
def define (s : ScopeStack) (name : String) (b : Binding) : Except Duplicate ScopeStack :=
  match s.lookupLocal? name with
  | some existing => .error ⟨name, existing⟩
  | none => .ok { s with inner := s.inner.insert name b }

def replaceLocal (s : ScopeStack) (name : String) (b : Binding) : ScopeStack :=
  { s with inner := s.inner.replace name b }

/-- The outermost scope of the unit itself. -/
def global (s : ScopeStack) : Scope :=
  s.outer.getLast?.getD s.inner

end ScopeStack

end Shader
