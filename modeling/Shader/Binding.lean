import Shader.Constant
import Shader.Qualifier

/-! What a name can stand for: a variable, an overloaded function or a struct. -/

namespace Shader

/-- Where a variable was declared; `nested` is any scope inside a function. -/
inductive VariableKind where
  | global
  | nested
  | parameter
  /-- A member of a block without an instance name. -/
  | blockMember
  | builtin
deriving DecidableEq, Repr

/-- A declared variable. Its type is missing if the declaration's type did not resolve; `constant`
is the folded initializer of a constant. -/
structure Variable where
  name : String
  ty : Option Ty
  kind : VariableKind
  storage : Option Storage
  constant : Option Constant
  span : Span
deriving Repr

namespace Variable

def isConst (v : Variable) : Bool :=
  v.storage == some .constant

def isWritable (v : Variable) : Bool :=
  match v.storage with
  | some .constant | some .uniform => false
  | some .input | some .centroidInput => v.kind = .parameter
  | _ => true

def isOutput (v : Variable) : Bool :=
  v.storage.any Storage.isOutput

end Variable

inductive Direction where
  | input
  | constInput
  | output
  | inout
deriving DecidableEq, Repr

namespace Direction

def ofStorage : Option Storage → Direction
  | some .constant => constInput
  | some .output => output
  | some .inout => inout
  | _ => input

/-- The argument is written back to the caller. -/
def isOutput : Direction → Bool
  | output | inout => true
  | _ => false

def text : Direction → String
  | input => "in"
  | constInput => "const in"
  | output => "out"
  | inout => "inout"

end Direction

structure Parameter where
  ty : Option Ty
  direction : Direction
deriving Repr

/-- One signature of a function; `defined` once a body has been seen for it. -/
structure Overload where
  params : List Parameter
  result : Option Ty
  span : Span
  defined : Bool
deriving Repr

def unknownText (t : Option Ty) : String :=
  (t.map Ty.text).getD "?"

namespace Overload

def paramTypes (o : Overload) : List (Option Ty) :=
  o.params.map Parameter.ty

/-- The parameter types are exactly the given ones; an unknown type matches nothing. -/
def accepts (o : Overload) (args : List (Option Ty)) : Bool :=
  o.params.length == args.length && (o.paramTypes.zipWith typesMatch args).all id

def hasOutput (o : Overload) : Bool :=
  o.params.any fun p => p.direction.isOutput

def signature (o : Overload) (name : String) : String :=
  name ++ "(" ++ ", ".intercalate (o.paramTypes.map unknownText) ++ ") -> " ++ unknownText o.result

end Overload

structure Function where
  name : String
  builtin : Bool
  overloads : List Overload
deriving Repr

/-- The first overload that accepts the argument types. -/
def Function.overload? (f : Function) (args : List (Option Ty)) : Option Overload :=
  f.overloads.find? fun o => o.accepts args

inductive Binding where
  | variable (v : Variable)
  | function (f : Function)
  /-- A declared struct and its type. -/
  | struct (ty : Ty)
deriving Repr

def Binding.describe : Binding → String
  | .variable _ => "variable"
  | .function _ => "function"
  | .struct _ => "struct"

end Shader
