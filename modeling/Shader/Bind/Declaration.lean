import Shader.Bind.Expr

/-! Binding types and declarations. -/

namespace Shader

structure Field where
  name : String
  ty : Ty
  span : Span
deriving Repr

def Field.entry (f : Field) : String × Ty :=
  (f.name, f.ty)

namespace Bind

def requireSized (ty : Option Ty) (name : String) (span : Span) : Bind (Option Ty) := do
  match ty with
  | some (.array _ none) =>
    report (.sizeRequired name) span
    return none
  | t => return t

/-- The names of one member line. A name that occurred before is reported and dropped, one without
a known type only dropped. -/
def memberNames (base : Option Ty) :
    List MemberName → List Field → Bind (List MemberName × List Field)
  | [], fields => return ([], fields)
  | m :: ms, fields => do
    let (array, extent) ← arraySuffix m.array
    let ty ← requireSized (extent.apply base) m.name m.span
    let fields ←
      if fields.any fun f => f.name = m.name then do
        report (.duplicateMember m.name) m.span
        pure fields
      else
        pure (fields ++ (ty.map fun t => Field.mk m.name t m.span).toList)
    let (ms, fields) ← memberNames base ms fields
    return ({ m with array } :: ms, fields)

def reportStruct : TypeSpec → Bind Unit
  | .struct tag _ _ note => report (.structInMembers tag) note.span
  | _ => return

mutual

def typeSpec : TypeSpec → Bind TypeSpec
  | .basic b note => do
    let (array, extent) ← arraySuffix note.array
    return .basic b { note with array, ty := extent.apply (some (.basic b)) }
  | .named x note => do
    let base ← namedTy x note.span
    let (array, extent) ← arraySuffix note.array
    return .named x { note with array, ty := extent.apply base }
  | .struct tag members structSpan note => do
    let (members, fields) ← memberLines members []
    let ty : Ty := .struct (← freshStruct) tag (fields.map Field.entry)
    if let some name := tag then define name (.struct ty) structSpan
    let (array, extent) ← arraySuffix note.array
    return .struct tag members structSpan { note with array, ty := extent.apply (some ty) }

def memberLines :
    List (Member TypeSpec) → List Field → Bind (List (Member TypeSpec) × List Field)
  | [], fields => return ([], fields)
  | ⟨quals, spec, names, span⟩ :: rest, fields => do
    reportStruct spec
    let spec ← typeSpec spec
    let (names, fields) ← memberNames spec.ty names fields
    let (rest, fields) ← memberLines rest fields
    return (⟨quals, spec, names, span⟩ :: rest, fields)

end

/-- The array size that an initializer brings along. -/
def initializerSize? : Expr → Option Nat
  | .call _ _ _ (.constructor ty) _ => ty.arraySize?
  | .var _ (some v) _ => v.ty.bind Ty.arraySize?
  | _ => none

/-- The type of a declared variable. An array of open size takes that of its initializer. -/
def declaratorTy (base : Option Ty) (extent : Extent) (d : Declarator) : Bind (Option Ty) := do
  match base with
  | none => return none
  | some t =>
    if t.isArray && (extent = .unsized || extent matches .sized _) then
      report (.arrayOfArrays d.name) d.span
      return none
    else
      match extent.apply base with
      | some (.array element none) =>
        match d.init.bind initializerSize? with
        | some n => return some (.array element (some n))
        | none =>
          report (.sizeUnknown d.name) d.span
          return none
      | ty => return ty

/-- The value of a constant, if the initializer has the declared type. -/
def constantOf (quals : Qualifiers) (ty : Option Ty) (init : Option Expr) : Option Constant :=
  if quals.isConst then (init.bind Expr.constant?).filter fun c => ty = some c.ty else none

/-- A variable is not visible in its own initializer, nor in its size. -/
def declarator (quals : Qualifiers) (base : Option Ty) (kind : VariableKind) (d : Declarator) :
    Bind Declarator := do
  let init ← d.init.mapM expr
  let (array, extent) ← arraySuffix d.array
  let d := { d with init, array }
  let ty ← declaratorTy base extent d
  let v : Variable := ⟨d.name, ty, kind, quals.storage, constantOf quals ty init, d.span⟩
  define d.name (.variable v) d.span
  return { d with binding := some v }

/-- A block with an instance name is a variable of a struct type of its own; the members of a block
without one are variables themselves. -/
def interfaceBlock (b : InterfaceBlock) : Bind InterfaceBlock := do
  let (members, fields) ← memberLines b.members []
  match b.instance? with
  | some d => do
    let ty : Ty := .struct (← freshStruct) (some b.name) (fields.map Field.entry)
    let (array, extent) ← arraySuffix d.array
    let ty ← requireSized (extent.apply (some ty)) d.name d.span
    let v : Variable := ⟨d.name, ty, ← declarationKind, b.qualifiers.storage, none, d.span⟩
    define d.name (.variable v) d.span
    return { b with members, instance? := some { d with array, binding := some v } }
  | none => do
    for f in fields do
      define f.name
        (.variable ⟨f.name, some f.ty, .blockMember, b.qualifiers.storage, none, f.span⟩) f.span
    return { b with members }

def declaration : Declaration → Bind Declaration
  | .vars quals spec ds span => do
    let spec ← typeSpec spec
    let kind ← declarationKind
    let ds ← ds.mapM (declarator quals spec.ty kind)
    return .vars quals spec ds span
  | .block b span => return .block (← interfaceBlock b) span
  | .precision p spec span => return .precision p (← typeSpec spec) span
  | .invariant targets span => do
    let targets ← targets.mapM fun t => do
      return { t with binding := ← reference t.name t.span }
    return .invariant targets span

end Bind

end Shader
