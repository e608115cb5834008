/-! The types that the language has names for: void, scalars, vectors, matrices and samplers. -/

namespace Shader

/-- The kind of a scalar, or of every component of a vector. -/
inductive ScalarKind where
  | bool
  | int
  | uint
  | float
deriving DecidableEq, Repr

namespace ScalarKind

def all : List ScalarKind :=
  [bool, int, uint, float]

def name : ScalarKind → String
  | bool => "bool"
  | int => "int"
  | uint => "uint"
  | float => "float"

def ofName? (name : String) : Option ScalarKind :=
  all.find? fun k => k.name = name

/-- What comes before `vec` in the name of a vector type. -/
def vectorLetter : ScalarKind → String
  | bool => "b"
  | int => "i"
  | uint => "u"
  | float => ""

def isInteger : ScalarKind → Bool
  | int | uint => true
  | _ => false

def isNumeric : ScalarKind → Bool
  | bool => false
  | _ => true

end ScalarKind

/-- How many components a vector, or rows or columns a matrix, has. -/
inductive Dim where
  | two
  | three
  | four
deriving DecidableEq, Repr

namespace Dim

def all : List Dim :=
  [two, three, four]

def toNat : Dim → Nat
  | two => 2
  | three => 3
  | four => 4

def ofNat? : Nat → Option Dim
  | 2 => some two
  | 3 => some three
  | 4 => some four
  | _ => none

def text (d : Dim) : String :=
  toString d.toNat

end Dim

inductive SamplerShape where
  | plane
  | volume
  | cube
  | planes
deriving DecidableEq, Repr

def SamplerShape.name : SamplerShape → String
  | plane => "2D"
  | volume => "3D"
  | cube => "Cube"
  | planes => "2DArray"

/-- An opaque texture handle; `sampled` is the kind of component that a look-up gives. -/
structure Sampler where
  shape : SamplerShape
  sampled : ScalarKind
  shadow : Bool
deriving DecidableEq, Repr

namespace Sampler

def all : List Sampler :=
  [⟨.plane, .float, false⟩, ⟨.volume, .float, false⟩, ⟨.cube, .float, false⟩,
    ⟨.planes, .float, false⟩, ⟨.plane, .float, true⟩, ⟨.cube, .float, true⟩,
    ⟨.planes, .float, true⟩,
    ⟨.plane, .int, false⟩, ⟨.volume, .int, false⟩, ⟨.cube, .int, false⟩, ⟨.planes, .int, false⟩,
    ⟨.plane, .uint, false⟩, ⟨.volume, .uint, false⟩, ⟨.cube, .uint, false⟩,
    ⟨.planes, .uint, false⟩]

def name (s : Sampler) : String :=
  let letter :=
    match s.sampled with
    | .int => "i"
    | .uint => "u"
    | _ => ""
  letter ++ "sampler" ++ s.shape.name ++ if s.shadow then "Shadow" else ""

end Sampler

inductive BasicTy where
  | void
  | scalar (kind : ScalarKind)
  | vector (kind : ScalarKind) (size : Dim)
  /-- A float matrix of `cols` columns with `rows` components each. -/
  | matrix (cols rows : Dim)
  | sampler (sampler : Sampler)
deriving DecidableEq, Repr

namespace BasicTy

def name : BasicTy → String
  | void => "void"
  | scalar k => k.name
  | vector k n => k.vectorLetter ++ "vec" ++ n.text
  | matrix c r => if c = r then "mat" ++ c.text else "mat" ++ c.text ++ "x" ++ r.text
  | sampler s => s.name

/-- Scalars, then vectors, then matrices: every type with components. -/
def withComponents : List BasicTy :=
  ScalarKind.all.map scalar
    ++ ScalarKind.all.flatMap (fun k => Dim.all.map (vector k))
    ++ Dim.all.flatMap (fun c => Dim.all.map (matrix c))

/-- The basic types with their names; a square matrix also goes by its long name. -/
def byName : List (String × BasicTy) :=
  (void :: withComponents ++ Sampler.all.map sampler).map (fun b => (b.name, b))
    ++ Dim.all.map (fun n => ("mat" ++ n.text ++ "x" ++ n.text, matrix n n))

def ofName? (name : String) : Option BasicTy :=
  byName.lookup name

/-- The kind of the components: float for matrices, none for void and samplers. -/
def componentKind? : BasicTy → Option ScalarKind
  | scalar k | vector k _ => some k
  | matrix _ _ => some .float
  | void | sampler _ => none

def componentCount : BasicTy → Nat
  | scalar _ => 1
  | vector _ n => n.toNat
  | matrix c r => c.toNat * r.toNat
  | void | sampler _ => 0

def isScalar : BasicTy → Bool
  | scalar _ => true
  | _ => false

def isVector : BasicTy → Bool
  | vector _ _ => true
  | _ => false

def isMatrix : BasicTy → Bool
  | matrix _ _ => true
  | _ => false

def isSampler : BasicTy → Bool
  | sampler _ => true
  | _ => false

/-- The scalar or vector type of `n` components of one kind; `n` is at most 4. -/
def ofComponents (kind : ScalarKind) (n : Nat) : BasicTy :=
  match Dim.ofNat? n with
  | some d => vector kind d
  | none => scalar kind

end BasicTy

end Shader
