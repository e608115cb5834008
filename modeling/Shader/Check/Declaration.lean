import Shader.Check.Expr

/-! Checking declarations: where qualifiers and types may stand. -/

namespace Shader

namespace Check

structure Place where
  stage : Stage
  /-- It stands inside a function. -/
  nested : Bool

def memberNames (stage : Stage) (names : List MemberName) : Checked (List MemberName) :=
  names.mapM fun m => do
    let array ← m.array.mapM (arraySuffix stage)
    return { m with array }

mutual

def typeSpec (stage : Stage) : TypeSpec → Checked TypeSpec
  | .basic b note => do
    let array ← note.array.mapM (arraySuffix stage)
    return .basic b { note with array }
  | .named x note => do
    let array ← note.array.mapM (arraySuffix stage)
    return .named x { note with array }
  | .struct tag members structSpan note => do
    let array ← note.array.mapM (arraySuffix stage)
    let members ← memberLines stage members
    return .struct tag members structSpan { note with array }

def memberLines (stage : Stage) : List (Member TypeSpec) → Checked (List (Member TypeSpec))
  | [] => pure []
  | ⟨quals, spec, names, span⟩ :: rest => do
    let spec ← typeSpec stage spec
    let names ← memberNames stage names
    require (!spec.ty.any Ty.isVoid) (.decl (.voidMember .struct)) span
    let rest ← memberLines stage rest
    return ⟨quals, spec, names, span⟩ :: rest

end

/-- Outputs can be invariant, and inputs of a fragment shader that match such an output. -/
def mayBeInvariant (stage : Stage) (storage : Option Storage) : Bool :=
  match storage with
  | some s => s.isOutput || (s.isInput && stage ≠ .vertex)
  | none => false

/-- Placement rules for the qualifiers of a declaration. -/
def qualifiers (place : Place) (q : Qualifiers) (span : Span) : Checked Unit := do
  let interface := q.storage.any Storage.isInterface
  require (q.storage ≠ some .inout) (.decl .inoutMisplaced) span
  match q.storage with
  | some s => require (!(s.isInterface && place.nested)) (.decl (.notGlobal s)) span
  | none => pure ()
  require (q.interpolation.isNone || q.storage.any fun s => s.isInput || s.isOutput)
    (.decl .interpolationMisplaced) span
  require (q.layout.isEmpty || interface) (.decl .layoutMisplaced) span
  require (!q.invariant || (!place.nested && mayBeInvariant place.stage q.storage))
    (.decl .invariantMisplaced) span
  match place.stage, q.storage with
  | .vertex, some .centroidInput => report (.decl .centroidInput) span
  | .fragment, some .centroidOutput => report (.decl .centroidOutput) span
  | _, _ => pure ()

/-- The types that inputs of a vertex shader and outputs of a fragment shader can have. -/
def interfaceTy (stage : Stage) (storage : Option Storage) (ty : Ty) (name : String) (span : Span) :
    Checked Unit :=
  let isBool := ty.base.componentKind? = some .bool
  match stage, storage with
  | .vertex, some s =>
    require (!(s.isInput && (isBool || ty.isArray || ty.base.isStruct)))
      (.decl (.vertexInput name)) span
  | .fragment, some s =>
    require (!(s.isOutput && (isBool || ty.base.isMatrix || ty.base.isStruct || ty.isOpaque)))
      (.decl (.fragmentOutput name)) span
  | _, _ => pure ()

/-- A checked initializer: the type fits, and that of a constant can be folded. -/
def initializer (storage : Option Storage) (declared : Option Ty) (name : String) (init : Expr) :
    Checked Unit := do
  match storage with
  | some s => require (s = .constant) (.decl (.initializerForbidden s)) init.span
  | none => pure ()
  match declared, init.ty with
  | some t, some actual =>
    if t ≠ actual then report (.decl (.initializerType name t actual)) init.span
    else
      require (!(storage = some .constant && init.constant?.isNone))
        (.decl (.initializerNotConstant name)) init.span
  | _, _ => pure ()

/-- Rules for a variable of a known type that is not void. -/
def variableTy (stage : Stage) (storage : Option Storage) (ty : Ty) (d : Declarator) :
    Checked Unit := do
  require (!(ty.isOpaque && storage ≠ some .uniform)) (.decl (.samplerNotUniform d.name)) d.span
  interfaceTy stage storage ty d.name d.span

def initialization (storage : Option Storage) (declared : Option Ty) (d : Declarator) :
    Checked Unit :=
  match d.init with
  | some init => initializer storage declared d.name init
  | none => require (storage ≠ some .constant) (.decl (.constUninitialized d.name)) d.span

def declarator (stage : Stage) (storage : Option Storage) (d : Declarator) :
    Checked Declarator := do
  let array ← d.array.mapM (arraySuffix stage)
  let init ← d.init.mapM (expr stage)
  let d := { d with array, init }
  match d.binding.bind Variable.ty with
  | some ty =>
    if ty.base.isVoid then report (.decl (.voidVariable d.name)) d.span
    else
      variableTy stage storage ty d
      initialization storage (some ty) d
  | none => initialization storage none d
  return d

/-- The types that a default precision can be set for. -/
def takesPrecision : Ty → Bool
  | .basic (.scalar .int) | .basic (.scalar .float) | .basic (.sampler _) => true
  | _ => false

def invariantTarget (place : Place) (t : InvariantTarget) : Checked Unit :=
  if place.nested then report (.decl .invariantNested) t.span
  else
    match t.binding with
    | some v => require (mayBeInvariant place.stage v.storage) (.decl (.notInvariant t.name)) t.span
    | none => pure ()

def blockMember (stage : Stage) (m : Member TypeSpec) : Checked (Member TypeSpec) := do
  let spec ← typeSpec stage m.spec
  let names ← memberNames stage m.names
  let q := m.qualifiers
  require (!spec.ty.any Ty.isVoid) (.decl (.voidMember .uniformBlock)) m.span
  require (q.storage.all (· = .uniform) && q.interpolation.isNone && !q.invariant)
    (.decl .blockMemberQualifiers) m.span
  match spec.ty with
  | some t => require (!(t.isOpaque || t.base.isStruct)) (.decl (.blockMemberType t)) m.span
  | none => pure ()
  return { m with spec, names }

def interfaceBlock (place : Place) (b : InterfaceBlock) (span : Span) :
    Checked InterfaceBlock := do
  if b.qualifiers.storage ≠ some .uniform then report (.decl (.blockNotUniform b.name)) span
  else qualifiers place b.qualifiers b.qualifiers.span
  let members ← b.members.mapM (blockMember place.stage)
  let instance? ← b.instance?.mapM fun d => do
    let array ← d.array.mapM (arraySuffix place.stage)
    return { d with array }
  return { b with members, instance? }

def declaration (place : Place) : Declaration → Checked Declaration
  | .vars q spec ds span => do
    let spec ← typeSpec place.stage spec
    qualifiers place q (q.span.merge spec.span)
    require (!ds.isEmpty || spec.isStruct) (.decl .declaresNothing) span
    let ds ← ds.mapM (declarator place.stage q.storage)
    return .vars q spec ds span
  | .block b span => return .block (← interfaceBlock place b span) span
  | .precision p spec span => do
    let spec ← typeSpec place.stage spec
    require (spec.ty.all takesPrecision && spec.note.array.isNone)
      (.decl .defaultPrecision) spec.span
    return .precision p spec span
  | .invariant targets span => do
    let _ ← targets.mapM (invariantTarget place)
    return .invariant targets span

end Check

end Shader
