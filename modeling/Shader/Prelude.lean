import Shader.Overloads
import Shader.Prelude.Prototype

/-! The builtin scope: special variables, implementation limits and functions. The variables are
declared in a text of their own, and their spans are places in it. -/

namespace Shader

namespace Prelude

def builtin (name : String) (ty : Ty) (storage : Storage) (span : Span) : Variable :=
  ⟨name, some ty, .builtin, some storage, none, span⟩

def limit (name : String) (value : Int32) (span : Span) : Variable :=
  ⟨name, some .int, .builtin, some .constant, some (.ofScalar (.int value)), span⟩

def float4 : Ty := .basic (.vector .float .four)

def float2 : Ty := .basic (.vector .float .two)

/-- The number of the struct of the prelude; structs of a unit have greater ones. -/
def depthRangeId : Nat :=
  0

def depthRangeName : String :=
  "gl_DepthRangeParameters"

def depthRange : Ty :=
  .struct depthRangeId (some depthRangeName)
    [("near", .float), ("far", .float), ("diff", .float)]

def dataVariables : List Variable :=
  [builtin "gl_VertexID" .int .input ⟨278, 289⟩,
    builtin "gl_InstanceID" .int .input ⟨304, 317⟩,
    builtin "gl_Position" float4 .output ⟨334, 345⟩,
    builtin "gl_PointSize" .float .output ⟨363, 375⟩,
    builtin "gl_FragCoord" float4 .input ⟨429, 441⟩,
    builtin "gl_FrontFacing" .bool .input ⟨451, 465⟩,
    builtin "gl_FragDepth" .float .output ⟨483, 495⟩,
    builtin "gl_PointCoord" float2 .input ⟨513, 526⟩,
    limit "gl_MaxVertexAttribs" 16 ⟨572, 596⟩,
    limit "gl_MaxVertexUniformVectors" 256 ⟨616, 648⟩,
    limit "gl_MaxVertexOutputVectors" 16 ⟨668, 698⟩,
    limit "gl_MaxFragmentInputVectors" 15 ⟨718, 749⟩,
    limit "gl_MaxVertexTextureImageUnits" 16 ⟨769, 803⟩,
    limit "gl_MaxCombinedTextureImageUnits" 32 ⟨823, 859⟩,
    limit "gl_MaxTextureImageUnits" 16 ⟨879, 907⟩,
    limit "gl_MaxFragmentUniformVectors" 224 ⟨927, 961⟩,
    limit "gl_MaxDrawBuffers" 4 ⟨981, 1002⟩,
    limit "gl_MinProgramTexelOffset" (-8) ⟨1022, 1051⟩,
    limit "gl_MaxProgramTexelOffset" 7 ⟨1071, 1099⟩,
    builtin "gl_DepthRange" depthRange .uniform ⟨1272, 1285⟩]

def dataScope : Scope :=
  let scope := dataVariables.foldl (fun s v => Scope.insert s v.name (.variable v)) Scope.empty
  scope.insert depthRangeName (.struct depthRange)

def declare (s : Scope) (p : Prototype) : Scope :=
  p.overloads.foldl (fun s o => (s.addOverload p.name true o).toOption.getD s) s

def scope : Scope :=
  prototypes.foldl declare dataScope

end Prelude

end Shader
