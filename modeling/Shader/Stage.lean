/-! Shader stages, which switch stage-specific rules on. -/

namespace Shader

/-- The stage a unit is checked for; `any` keeps to the rules common to every stage. -/
inductive Stage where
  | vertex
  | fragment
  | any
deriving DecidableEq, Repr, Inhabited

namespace Stage

def name : Stage → String
  | vertex => "vertex"
  | fragment => "fragment"
  | any => "none"

def ofName? : String → Option Stage
  | "vertex" => some vertex
  | "fragment" => some fragment
  | "none" => some any
  | _ => none

def ofExtension : String → Stage
  | "vert" | "vs" => vertex
  | "frag" | "fs" => fragment
  | _ => any

end Stage

end Shader
