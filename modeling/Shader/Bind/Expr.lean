import Shader.Bind.State
import Shader.Fold

/-! Binding the names in expressions, and array sizes. -/

namespace Shader

/-- What brackets after a type or a name say. -/
inductive Extent where
  /-- There are no brackets. -/
  | none
  | unsized
  | sized (n : Nat)
  /-- The size is no constant positive integer. -/
  | invalid
deriving DecidableEq, Repr

def Extent.apply (x : Extent) (base : Option Ty) : Option Ty :=
  match x with
  | none => base
  | unsized => base.map fun t => .array t .none
  | sized n => base.map fun t => .array t (some n)
  | invalid => .none

namespace Bind

def size (e : Expr) (span : Span) : Bind Extent := do
  match e.constant? with
  | none =>
    report .sizeNotConstant span
    return .invalid
  | some c =>
    match c.index? with
    | some (.ofNat (n + 1)) => return .sized (n + 1)
    | _ =>
      report (.sizeNotPositive c) span
      return .invalid

/-- The constructor type of a callee; `T[]` takes its size from the number of arguments, of which 32
bits are kept. -/
def constructorTy (ty : Option Ty) (count : Nat) : Option Ty :=
  match ty with
  | some (.array element none) => some (.array element (some (count % twoPow 32)))
  | t => t

def constructorTarget (ty : Option Ty) (args : List Expr) : Target :=
  match constructorTy ty args.length with
  | some t => .constructor t
  | none => .unresolved

/-- What a plain name in front of arguments calls: a function or a struct. -/
def plainTarget (name : String) (span : Span) : Bind Target := do
  match ← lookup? name with
  | some (.function f) => return .function f
  | some (.struct ty) => return .constructor ty
  | some (.variable _) =>
    report (.variableCalled name) span
    return .unresolved
  | none =>
    report (.unknownCallee name) span
    return .unresolved

mutual

def expr : Expr → Bind Expr
  | .var x _ note => do
    let binding ← reference x note.span
    return .var x binding note
  | .unary op e note => return .unary op (← expr e) note
  | .update op before e note => return .update op before (← expr e) note
  | .length e note => return .length (← expr e) note
  | .field e x note => return .field (← expr e) x note
  | .binary op l r note => do
    let l ← expr l
    let r ← expr r
    return .binary op l r note
  | .comma l r note => do
    let l ← expr l
    let r ← expr r
    return .comma l r note
  | .assign op t v note => do
    let t ← expr t
    let v ← expr v
    return .assign op t v note
  | .index a i note => do
    let a ← expr a
    let i ← expr i
    return .index a i note
  | .ternary c t e note => do
    let c ← expr c
    let t ← expr t
    let e ← expr e
    return .ternary c t e note
  | .call callee suffix args _ note => do
    let args ← exprs args
    match callee.name, suffix with
    | .named x, none =>
      let target ← plainTarget x callee.span
      return .call callee none args target note
    | .named x, suffix =>
      let base ← namedTy x callee.span
      let (suffix, extent) ← arraySuffix suffix
      return .call callee suffix args (constructorTarget (extent.apply base) args) note
    | .basic b, suffix =>
      let (suffix, extent) ← arraySuffix suffix
      return .call callee suffix args (constructorTarget (extent.apply (some (.basic b))) args) note
  | .int text note => return .int text note
  | .float text note => return .float text note
  | .bool b note => return .bool b note

def exprs : List Expr → Bind (List Expr)
  | [] => return []
  | e :: es => do
    let e ← expr e
    let es ← exprs es
    return e :: es

def arraySuffix : Option (ArraySuffix Expr) → Bind (Option (ArraySuffix Expr) × Extent)
  | none => return (none, .none)
  | some ⟨none, span⟩ => return (some ⟨none, span⟩, .unsized)
  | some ⟨some e, span⟩ => do
    let e ← expr e
    let extent ← size e span
    return (some ⟨some e, span⟩, extent)

end

end Bind

end Shader
