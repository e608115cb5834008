import Shader.Span

/-! Qualifiers that stand before a type. -/

namespace Shader

inductive Storage where
  | constant
  | input
  | output
  | inout
  | uniform
  | centroidInput
  | centroidOutput
deriving DecidableEq, Repr

namespace Storage

def all : List Storage :=
  [constant, input, output, inout, uniform, centroidInput, centroidOutput]

def text : Storage → String
  | constant => "const"
  | input => "in"
  | output => "out"
  | inout => "inout"
  | uniform => "uniform"
  | centroidInput => "centroid in"
  | centroidOutput => "centroid out"

def ofText? (text : String) : Option Storage :=
  all.find? fun s => s.text = text

def isInput : Storage → Bool
  | input | centroidInput => true
  | _ => false

def isOutput : Storage → Bool
  | output | centroidOutput => true
  | _ => false

/-- The variable belongs to the interface of the shader. -/
def isInterface (s : Storage) : Bool :=
  s.isInput || s.isOutput || s = uniform

end Storage

inductive Interpolation where
  | smooth
  | flat
deriving DecidableEq, Repr

def Interpolation.text : Interpolation → String
  | smooth => "smooth"
  | flat => "flat"

inductive Precision where
  | low
  | medium
  | high
deriving DecidableEq, Repr

def Precision.text : Precision → String
  | low => "lowp"
  | medium => "mediump"
  | high => "highp"

/-- One entry of a layout list; its value is kept as written. -/
structure LayoutItem where
  name : String
  value : Option String
  span : Span
deriving DecidableEq, Repr

structure Qualifiers where
  storage : Option Storage
  interpolation : Option Interpolation
  invariant : Bool
  precision : Option Precision
  layout : List LayoutItem
  span : Span
deriving DecidableEq, Repr

namespace Qualifiers

def isConst (q : Qualifiers) : Bool :=
  q.storage == some .constant

def isEmpty (q : Qualifiers) : Bool :=
  q.storage.isNone && q.interpolation.isNone && !q.invariant && q.precision.isNone
    && q.layout.isEmpty

end Qualifiers

end Shader
