import Shader.Ty.Basic

/-! Families of types over which builtin functions are overloaded. -/

namespace Shader

inductive Family where
  /-- A scalar kind and the vectors of it. -/
  | generic (kind : ScalarKind)
  | vectors (kind : ScalarKind)
  | matrices
  /-- The samplers of one shape, one for each kind of component. -/
  | samplers (shape : SamplerShape)
  /-- The vectors of four components that such samplers give. -/
  | samples
deriving DecidableEq, Repr

namespace Family

def all : List Family :=
  [generic .float, generic .int, generic .uint, generic .bool,
    vectors .float, vectors .int, vectors .uint, vectors .bool, matrices,
    samplers .plane, samplers .volume, samplers .cube, samplers .planes, samples]

def name : Family → String
  | generic .float => "genType"
  | generic .int => "genIType"
  | generic .uint => "genUType"
  | generic .bool => "genBType"
  | vectors k => k.vectorLetter ++ "vec"
  | matrices => "mat"
  | samplers shape => "gsampler" ++ shape.name
  | samples => "gvec4"

def ofName? (name : String) : Option Family :=
  all.find? fun f => f.name = name

/-- The kinds of component that a sampler can give. -/
def sampledKinds : List ScalarKind :=
  [.float, .int, .uint]

/-- Matrix types, the square ones first. -/
def matrixShapes : List BasicTy :=
  [.matrix .two .two, .matrix .three .three, .matrix .four .four, .matrix .two .three,
    .matrix .two .four, .matrix .three .two, .matrix .three .four, .matrix .four .two,
    .matrix .four .three]

def members : Family → List BasicTy
  | generic k => .scalar k :: Dim.all.map (.vector k)
  | vectors k => Dim.all.map (.vector k)
  | matrices => matrixShapes
  | samplers shape => sampledKinds.map fun k => .sampler ⟨shape, k, false⟩
  | samples => sampledKinds.map fun k => .vector k .four

end Family

end Shader
