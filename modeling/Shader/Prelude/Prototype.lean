import Shader.Binding
import Shader.Prelude.Family

/-! The builtin functions with their parameter and result types. -/

namespace Shader

/-- A type in a prototype: one type, or any member of a family. -/
inductive Slot where
  | exact (b : BasicTy)
  | family (f : Family)
deriving DecidableEq, Repr

namespace Slot

def family? : Slot → Option Family
  | exact _ => none
  | family f => some f

def member (s : Slot) (i : Nat) : BasicTy :=
  match s with
  | exact b => b
  | family f => f.members.getD i .void

def genType : Slot := .family (.generic .float)

def genIType : Slot := .family (.generic .int)

def genUType : Slot := .family (.generic .uint)

def genBType : Slot := .family (.generic .bool)

def vec : Slot := .family (.vectors .float)

def ivec : Slot := .family (.vectors .int)

def uvec : Slot := .family (.vectors .uint)

def bvec : Slot := .family (.vectors .bool)

def mat : Slot := .family .matrices

def gsampler2D : Slot := .family (.samplers .plane)

def gsampler3D : Slot := .family (.samplers .volume)

def gsamplerCube : Slot := .family (.samplers .cube)

def gsampler2DArray : Slot := .family (.samplers .planes)

def gvec4 : Slot := .family .samples

def bool : Slot := .exact (.scalar .bool)

def float : Slot := .exact (.scalar .float)

def int : Slot := .exact (.scalar .int)

def uint : Slot := .exact (.scalar .uint)

def ivec2 : Slot := .exact (.vector .int .two)

def ivec3 : Slot := .exact (.vector .int .three)

def vec2 : Slot := .exact (.vector .float .two)

def vec3 : Slot := .exact (.vector .float .three)

def vec4 : Slot := .exact (.vector .float .four)

def mat2 : Slot := .exact (.matrix .two .two)

def mat2x3 : Slot := .exact (.matrix .two .three)

def mat2x4 : Slot := .exact (.matrix .two .four)

def mat3 : Slot := .exact (.matrix .three .three)

def mat3x2 : Slot := .exact (.matrix .three .two)

def mat3x4 : Slot := .exact (.matrix .three .four)

def mat4 : Slot := .exact (.matrix .four .four)

def mat4x2 : Slot := .exact (.matrix .four .two)

def mat4x3 : Slot := .exact (.matrix .four .three)

def sampler2DArrayShadow : Slot := .exact (.sampler ⟨.planes, .float, true⟩)

def sampler2DShadow : Slot := .exact (.sampler ⟨.plane, .float, true⟩)

def samplerCubeShadow : Slot := .exact (.sampler ⟨.cube, .float, true⟩)

end Slot

/-- A builtin function. All families of a prototype have as many members, and there is an overload
for each place in them. -/
structure Prototype where
  result : Slot
  name : String
  params : List (Slot × Direction)
deriving Repr

namespace Prototype

def slots (p : Prototype) : List Slot :=
  p.result :: p.params.map Prod.fst

def count (p : Prototype) : Nat :=
  match p.slots.findSome? Slot.family? with
  | some f => f.members.length
  | none => 1

def overload (p : Prototype) (i : Nat) : Overload where
  params := p.params.map fun (s, d) => ⟨some (.basic (s.member i)), d⟩
  result := some (.basic (p.result.member i))
  span := ⟨0, 0⟩
  defined := false

def overloads (p : Prototype) : List Overload :=
  (List.range p.count).map p.overload

end Prototype

namespace Prelude

open Slot

def function (result : Slot) (name : String) (params : List Slot) : Prototype :=
  ⟨result, name, params.map fun s => (s, .input)⟩

def trigonometry : List Prototype :=
  [function genType "radians" [genType], function genType "degrees" [genType],
    function genType "sin" [genType], function genType "cos" [genType],
    function genType "tan" [genType], function genType "asin" [genType],
    function genType "acos" [genType], function genType "atan" [genType, genType],
    function genType "atan" [genType], function genType "sinh" [genType],
    function genType "cosh" [genType], function genType "tanh" [genType],
    function genType "asinh" [genType], function genType "acosh" [genType],
    function genType "atanh" [genType]]

def exponential : List Prototype :=
  [function genType "pow" [genType, genType], function genType "exp" [genType],
    function genType "log" [genType], function genType "exp2" [genType],
    function genType "log2" [genType], function genType "sqrt" [genType],
    function genType "inversesqrt" [genType]]

def common : List Prototype :=
  [function genType "abs" [genType], function genIType "abs" [genIType],
    function genType "sign" [genType], function genIType "sign" [genIType],
    function genType "floor" [genType], function genType "trunc" [genType],
    function genType "round" [genType], function genType "roundEven" [genType],
    function genType "ceil" [genType], function genType "fract" [genType],
    function genType "mod" [genType, float], function genType "mod" [genType, genType],
    ⟨genType, "modf", [(genType, .input), (genType, .output)]⟩,
    function genType "min" [genType, genType], function genType "min" [genType, float],
    function genIType "min" [genIType, genIType], function genIType "min" [genIType, int],
    function genUType "min" [genUType, genUType], function genUType "min" [genUType, uint],
    function genType "max" [genType, genType], function genType "max" [genType, float],
    function genIType "max" [genIType, genIType], function genIType "max" [genIType, int],
    function genUType "max" [genUType, genUType], function genUType "max" [genUType, uint],
    function genType "clamp" [genType, genType, genType],
    function genType "clamp" [genType, float, float],
    function genIType "clamp" [genIType, genIType, genIType],
    function genIType "clamp" [genIType, int, int],
    function genUType "clamp" [genUType, genUType, genUType],
    function genUType "clamp" [genUType, uint, uint],
    function genType "mix" [genType, genType, genType],
    function genType "mix" [genType, genType, float],
    function genType "mix" [genType, genType, genBType],
    function genType "step" [genType, genType], function genType "step" [float, genType],
    function genType "smoothstep" [genType, genType, genType],
    function genType "smoothstep" [float, float, genType], function genBType "isnan" [genType],
    function genBType "isinf" [genType], function genIType "floatBitsToInt" [genType],
    function genUType "floatBitsToUint" [genType], function genType "intBitsToFloat" [genIType],
    function genType "uintBitsToFloat" [genUType]]

def packing : List Prototype :=
  [function uint "packSnorm2x16" [vec2], function vec2 "unpackSnorm2x16" [uint],
    function uint "packUnorm2x16" [vec2], function vec2 "unpackUnorm2x16" [uint],
    function uint "packHalf2x16" [vec2], function vec2 "unpackHalf2x16" [uint]]

def geometric : List Prototype :=
  [function float "length" [genType], function float "distance" [genType, genType],
    function float "dot" [genType, genType], function vec3 "cross" [vec3, vec3],
    function genType "normalize" [genType],
    function genType "faceforward" [genType, genType, genType],
    function genType "reflect" [genType, genType],
    function genType "refract" [genType, genType, float]]

def matrixFunctions : List Prototype :=
  [function mat "matrixCompMult" [mat, mat], function mat2 "outerProduct" [vec2, vec2],
    function mat3 "outerProduct" [vec3, vec3], function mat4 "outerProduct" [vec4, vec4],
    function mat2x3 "outerProduct" [vec3, vec2], function mat3x2 "outerProduct" [vec2, vec3],
    function mat2x4 "outerProduct" [vec4, vec2], function mat4x2 "outerProduct" [vec2, vec4],
    function mat3x4 "outerProduct" [vec4, vec3], function mat4x3 "outerProduct" [vec3, vec4],
    function mat2 "transpose" [mat2], function mat3 "transpose" [mat3],
    function mat4 "transpose" [mat4], function mat2x3 "transpose" [mat3x2],
    function mat3x2 "transpose" [mat2x3], function mat2x4 "transpose" [mat4x2],
    function mat4x2 "transpose" [mat2x4], function mat3x4 "transpose" [mat4x3],
    function mat4x3 "transpose" [mat3x4], function float "determinant" [mat2],
    function float "determinant" [mat3], function float "determinant" [mat4],
    function mat2 "inverse" [mat2], function mat3 "inverse" [mat3],
    function mat4 "inverse" [mat4]]

def relational : List Prototype :=
  [function bvec "lessThan" [vec, vec], function bvec "lessThan" [ivec, ivec],
    function bvec "lessThan" [uvec, uvec], function bvec "lessThanEqual" [vec, vec],
    function bvec "lessThanEqual" [ivec, ivec], function bvec "lessThanEqual" [uvec, uvec],
    function bvec "greaterThan" [vec, vec], function bvec "greaterThan" [ivec, ivec],
    function bvec "greaterThan" [uvec, uvec], function bvec "greaterThanEqual" [vec, vec],
    function bvec "greaterThanEqual" [ivec, ivec], function bvec "greaterThanEqual" [uvec, uvec],
    function bvec "equal" [vec, vec], function bvec "equal" [ivec, ivec],
    function bvec "equal" [uvec, uvec], function bvec "equal" [bvec, bvec],
    function bvec "notEqual" [vec, vec], function bvec "notEqual" [ivec, ivec],
    function bvec "notEqual" [uvec, uvec], function bvec "notEqual" [bvec, bvec],
    function bool "any" [bvec], function bool "all" [bvec], function bvec "not" [bvec]]

def textureLookup : List Prototype :=
  [function ivec2 "textureSize" [gsampler2D, int], function ivec3 "textureSize" [gsampler3D, int],
    function ivec2 "textureSize" [gsamplerCube, int],
    function ivec2 "textureSize" [sampler2DShadow, int],
    function ivec2 "textureSize" [samplerCubeShadow, int],
    function ivec3 "textureSize" [gsampler2DArray, int],
    function ivec3 "textureSize" [sampler2DArrayShadow, int],
    function gvec4 "texture" [gsampler2D, vec2],
    function gvec4 "texture" [gsampler2D, vec2, float],
    function gvec4 "texture" [gsampler3D, vec3],
    function gvec4 "texture" [gsampler3D, vec3, float],
    function gvec4 "texture" [gsamplerCube, vec3],
    function gvec4 "texture" [gsamplerCube, vec3, float],
    function float "texture" [sampler2DShadow, vec3],
    function float "texture" [sampler2DShadow, vec3, float],
    function float "texture" [samplerCubeShadow, vec4],
    function float "texture" [samplerCubeShadow, vec4, float],
    function gvec4 "texture" [gsampler2DArray, vec3],
    function gvec4 "texture" [gsampler2DArray, vec3, float],
    function float "texture" [sampler2DArrayShadow, vec4],
    function gvec4 "textureProj" [gsampler2D, vec3],
    function gvec4 "textureProj" [gsampler2D, vec3, float],
    function gvec4 "textureProj" [gsampler2D, vec4],
    function gvec4 "textureProj" [gsampler2D, vec4, float],
    function gvec4 "textureProj" [gsampler3D, vec4],
    function gvec4 "textureProj" [gsampler3D, vec4, float],
    function float "textureProj" [sampler2DShadow, vec4],
    function float "textureProj" [sampler2DShadow, vec4, float],
    function gvec4 "textureLod" [gsampler2D, vec2, float],
    function gvec4 "textureLod" [gsampler3D, vec3, float],
    function gvec4 "textureLod" [gsamplerCube, vec3, float],
    function float "textureLod" [sampler2DShadow, vec3, float],
    function gvec4 "textureLod" [gsampler2DArray, vec3, float],
    function gvec4 "textureOffset" [gsampler2D, vec2, ivec2],
    function gvec4 "textureOffset" [gsampler2D, vec2, ivec2, float],
    function gvec4 "textureOffset" [gsampler3D, vec3, ivec3],
    function gvec4 "textureOffset" [gsampler3D, vec3, ivec3, float],
    function float "textureOffset" [sampler2DShadow, vec3, ivec2],
    function float "textureOffset" [sampler2DShadow, vec3, ivec2, float],
    function gvec4 "textureOffset" [gsampler2DArray, vec3, ivec2],
    function gvec4 "textureOffset" [gsampler2DArray, vec3, ivec2, float],
    function gvec4 "texelFetch" [gsampler2D, ivec2, int],
    function gvec4 "texelFetch" [gsampler3D, ivec3, int],
    function gvec4 "texelFetch" [gsampler2DArray, ivec3, int],
    function gvec4 "textureGrad" [gsampler2D, vec2, vec2, vec2],
    function gvec4 "textureGrad" [gsampler3D, vec3, vec3, vec3],
    function gvec4 "textureGrad" [gsamplerCube, vec3, vec3, vec3],
    function float "textureGrad" [sampler2DShadow, vec3, vec2, vec2],
    function float "textureGrad" [samplerCubeShadow, vec4, vec3, vec3],
    function gvec4 "textureGrad" [gsampler2DArray, vec3, vec2, vec2],
    function float "textureGrad" [sampler2DArrayShadow, vec4, vec2, vec2]]

def derivatives : List Prototype :=
  [function genType "dFdx" [genType], function genType "dFdy" [genType],
    function genType "fwidth" [genType]]

def prototypes : List Prototype :=
  trigonometry ++ exponential ++ common ++ packing ++ geometric ++ matrixFunctions ++ relational
    ++ textureLookup ++ derivatives

end Prelude

end Shader
