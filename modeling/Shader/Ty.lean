import Shader.Ty.Basic

/-! Types: basic types, arrays of them and structs. -/

namespace Shader

/-- A type of the language. Struct declarations are numbered by `id`, so that types are equal only
if they come from the same declarations. An array without a size is one whose size is still open. -/
inductive Ty where
  | basic (b : BasicTy)
  | array (element : Ty) (size : Option Nat)
  | struct (id : Nat) (name : Option String) (fields : List (String × Ty))
deriving Repr

namespace Ty

mutual

def decEq : (a b : Ty) → Decidable (a = b)
  | basic a, basic b =>
    if h : a = b then isTrue (by rw [h]) else isFalse (by simp [h])
  | array a m, array b n =>
    match decEq a b with
    | isFalse h => isFalse (by simp [h])
    | isTrue h => if h' : m = n then isTrue (by rw [h, h']) else isFalse (by simp [h'])
  | struct i m as, struct j n bs =>
    if hi : i = j then
      if hn : m = n then
        match decEqFields as bs with
        | isFalse h => isFalse (by simp [h])
        | isTrue h => isTrue (by rw [hi, hn, h])
      else isFalse (by simp [hn])
    else isFalse (by simp [hi])
  | basic _, array _ _ => isFalse (by simp)
  | basic _, struct _ _ _ => isFalse (by simp)
  | array _ _, basic _ => isFalse (by simp)
  | array _ _, struct _ _ _ => isFalse (by simp)
  | struct _ _ _, basic _ => isFalse (by simp)
  | struct _ _ _, array _ _ => isFalse (by simp)

def decEqFields : (as bs : List (String × Ty)) → Decidable (as = bs)
  | [], [] => isTrue rfl
  | [], _ :: _ => isFalse (by simp)
  | _ :: _, [] => isFalse (by simp)
  | (x, a) :: as, (y, b) :: bs =>
    if hx : x = y then
      match decEq a b with
      | isFalse h => isFalse (by simp [h])
      | isTrue h =>
        match decEqFields as bs with
        | isFalse h' => isFalse (by simp [h'])
        | isTrue h' => isTrue (by rw [hx, h, h'])
    else isFalse (by simp [hx])

end

instance : DecidableEq Ty :=
  decEq

def void : Ty := basic .void

def bool : Ty := basic (.scalar .bool)

def int : Ty := basic (.scalar .int)

def uint : Ty := basic (.scalar .uint)

def float : Ty := basic (.scalar .float)

def scalar (kind : ScalarKind) : Ty := basic (.scalar kind)

def text : Ty → String
  | basic b => b.name
  | array e (some n) => s!"{e.text}[{n}]"
  | array e none => s!"{e.text}[]"
  | struct _ (some name) _ => s!"struct {name}"
  | struct _ none _ => "anonymous struct"

def basic? : Ty → Option BasicTy
  | basic b => some b
  | _ => none

def isVoid (t : Ty) : Bool :=
  t.basic? == some .void

def isScalar (t : Ty) : Bool :=
  t.basic?.any BasicTy.isScalar

def isVector (t : Ty) : Bool :=
  t.basic?.any BasicTy.isVector

def isMatrix (t : Ty) : Bool :=
  t.basic?.any BasicTy.isMatrix

def isArray : Ty → Bool
  | array _ _ => true
  | _ => false

def isStruct : Ty → Bool
  | struct _ _ _ => true
  | _ => false

def scalarKind? : Ty → Option ScalarKind
  | basic (.scalar k) => some k
  | _ => none

def isBool (t : Ty) : Bool :=
  t.scalarKind? == some .bool

def isInteger (t : Ty) : Bool :=
  t.scalarKind?.any ScalarKind.isInteger

/-- The number of components of a vector type, 0 for any other type. -/
def vectorSize : Ty → Nat
  | basic (.vector _ n) => n.toNat
  | _ => 0

def vectorKind? : Ty → Option ScalarKind
  | basic (.vector k _) => some k
  | _ => none

def matrixDims? : Ty → Option (Dim × Dim)
  | basic (.matrix c r) => some (c, r)
  | _ => none

/-- The number of components of a scalar, vector or matrix, 0 for any other type. -/
def componentCount (t : Ty) : Nat :=
  (t.basic?.map BasicTy.componentCount).getD 0

def componentKind? (t : Ty) : Option ScalarKind :=
  t.basic?.bind BasicTy.componentKind?

def element? : Ty → Option Ty
  | array e _ => some e
  | _ => none

def arraySize? : Ty → Option Nat
  | array _ size => size
  | _ => none

/-- What the `length` method gives: the elements of a sized array, the components of a vector, the
columns of a matrix. -/
def length? : Ty → Option Nat
  | array _ size => size
  | basic (.vector _ n) => some n.toNat
  | basic (.matrix c _) => some c.toNat
  | _ => none

mutual

/-- The type is a sampler or has one inside. -/
def isOpaque : Ty → Bool
  | basic b => b.isSampler
  | array e _ => e.isOpaque
  | struct _ _ fields => anyOpaque fields

def anyOpaque : List (String × Ty) → Bool
  | [] => false
  | (_, t) :: rest => t.isOpaque || anyOpaque rest

end

/-- The innermost type that is not an array. -/
def base : Ty → Ty
  | array e _ => e.base
  | t => t

end Ty

/-- Equality of types that may be unknown; an unknown type matches nothing. -/
def typesMatch (a b : Option Ty) : Bool :=
  a.isSome && a == b

end Shader
