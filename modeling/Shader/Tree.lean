import Shader.Binding
import Shader.Operator

/-! Syntax trees of translation units. A tree comes from the parser with its annotations empty;
binding names and checking types fill them in. -/

namespace Shader

/-- The brackets after a type or a name, with a size or without. -/
structure ArraySuffix (α : Type) where
  size : Option α
  span : Span
deriving Repr

/-- Where an expression stands and, once it is checked, its type. -/
structure Note where
  span : Span
  ty : Option Ty
deriving Repr

inductive CalleeName where
  | basic (b : BasicTy)
  | named (name : String)
deriving Repr

/-- The name in front of an argument list; the span takes in the array suffix. -/
structure Callee where
  name : CalleeName
  span : Span
deriving Repr

/-- What a call calls: the overloads visible at that place, or a constructor. -/
inductive Target where
  | unresolved
  | function (f : Function)
  | constructor (ty : Ty)
deriving Repr

inductive Expr where
  | int (text : String) (note : Note)
  | float (text : String) (note : Note)
  | bool (value : Bool) (note : Note)
  | var (name : String) (binding : Option Variable) (note : Note)
  | unary (op : UnaryOp) (operand : Expr) (note : Note)
  | update (op : UpdateOp) (before : Bool) (operand : Expr) (note : Note)
  | binary (op : BinaryOp) (left right : Expr) (note : Note)
  | assign (op : AssignOp) (target value : Expr) (note : Note)
  | ternary (condition whenTrue whenFalse : Expr) (note : Note)
  | comma (left right : Expr) (note : Note)
  | call (callee : Callee) (suffix : Option (ArraySuffix Expr)) (args : List Expr) (target : Target)
      (note : Note)
  | field (object : Expr) (name : String) (note : Note)
  | index (array index : Expr) (note : Note)
  | length (operand : Expr) (note : Note)
deriving Repr

namespace Expr

def note : Expr → Note
  | int _ n | float _ n | bool _ n | var _ _ n | unary _ _ n | update _ _ _ n | binary _ _ _ n
  | assign _ _ _ n | ternary _ _ _ n | comma _ _ n | call _ _ _ _ n | field _ _ n | index _ _ n
  | length _ n => n

def mapNote (f : Note → Note) : Expr → Expr
  | int t n => int t (f n)
  | float t n => float t (f n)
  | bool b n => bool b (f n)
  | var x b n => var x b (f n)
  | unary op e n => unary op e (f n)
  | update op b e n => update op b e (f n)
  | binary op l r n => binary op l r (f n)
  | assign op t v n => assign op t v (f n)
  | ternary c t e n => ternary c t e (f n)
  | comma l r n => comma l r (f n)
  | call c s args t n => call c s args t (f n)
  | field e x n => field e x (f n)
  | index a i n => index a i (f n)
  | length e n => length e (f n)

def span (e : Expr) : Span :=
  e.note.span

def ty (e : Expr) : Option Ty :=
  e.note.ty

def withSpan (e : Expr) (span : Span) : Expr :=
  e.mapNote fun n => { n with span }

def binding? : Expr → Option Variable
  | var _ binding _ => binding
  | _ => none

end Expr

structure MemberName where
  name : String
  array : Option (ArraySuffix Expr)
  span : Span
deriving Repr

/-- One line of a member list: qualifiers, a type and names. -/
structure Member (τ : Type) where
  qualifiers : Qualifiers
  spec : τ
  names : List MemberName
  span : Span
deriving Repr

/-- What every type specifier has beside its name: an array suffix and, once bound, its type. -/
structure SpecNote where
  array : Option (ArraySuffix Expr)
  span : Span
  ty : Option Ty
deriving Repr

inductive TypeSpec where
  | basic (b : BasicTy) (note : SpecNote)
  | named (name : String) (note : SpecNote)
  /-- A struct declared in place. -/
  | struct (tag : Option String) (members : List (Member TypeSpec)) (structSpan : Span)
      (note : SpecNote)
deriving Repr

namespace TypeSpec

def note : TypeSpec → SpecNote
  | basic _ n | named _ n | struct _ _ _ n => n

def span (s : TypeSpec) : Span :=
  s.note.span

def ty (s : TypeSpec) : Option Ty :=
  s.note.ty

def name : TypeSpec → String
  | basic b _ => b.name
  | named n _ => n
  | struct tag _ _ _ => tag.getD "struct"

def isStruct : TypeSpec → Bool
  | struct _ _ _ _ => true
  | _ => false

end TypeSpec

structure Declarator where
  name : String
  array : Option (ArraySuffix Expr)
  init : Option Expr
  span : Span
  binding : Option Variable
deriving Repr

structure InterfaceBlock where
  qualifiers : Qualifiers
  name : String
  members : List (Member TypeSpec)
  instance? : Option Declarator
deriving Repr

structure InvariantTarget where
  name : String
  span : Span
  binding : Option Variable
deriving Repr

inductive Declaration where
  /-- Without declarators it declares at most a struct. -/
  | vars (qualifiers : Qualifiers) (spec : TypeSpec) (declarators : List Declarator)
      (span : Span)
  | block (block : InterfaceBlock) (span : Span)
  | precision (precision : Precision) (spec : TypeSpec) (span : Span)
  | invariant (targets : List InvariantTarget) (span : Span)
deriving Repr

def Declaration.span : Declaration → Span
  | vars _ _ _ s | block _ s | precision _ _ s | invariant _ s => s

structure Block (σ : Type) where
  stmts : List σ
  span : Span
deriving Repr

inductive Stmt where
  | expr (e : Expr) (span : Span)
  | empty (span : Span)
  | block (body : Block Stmt) (span : Span)
  | decl (d : Declaration) (span : Span)
  | branch (condition : Expr) (whenTrue : Stmt) (whenFalse : Option Stmt) (span : Span)
  | switch (selector : Expr) (body : Block Stmt) (span : Span)
  | caseLabel (value : Expr) (span : Span)
  | defaultLabel (span : Span)
  | whileLoop (condition : Expr) (body : Stmt) (span : Span)
  | doLoop (body : Stmt) (condition : Expr) (span : Span)
  | forLoop (init : Option Stmt) (condition update : Option Expr) (body : Stmt) (span : Span)
  | continueLoop (span : Span)
  | breakLoop (span : Span)
  | giveBack (value : Option Expr) (span : Span)
  | discard (span : Span)
deriving Repr

def Stmt.isBlock : Stmt → Bool
  | block _ _ => true
  | _ => false

structure ParamDecl where
  qualifiers : Qualifiers
  spec : TypeSpec
  name : Option String
  array : Option (ArraySuffix Expr)
  span : Span
  binding : Option Variable
deriving Repr

/-- A function prototype or, with a body, a definition. -/
structure FunctionDecl where
  qualifiers : Qualifiers
  spec : TypeSpec
  name : String
  params : List ParamDecl
  body : Option (Block Stmt)
  span : Span
deriving Repr

inductive TopLevel where
  | declaration (d : Declaration)
  | function (f : FunctionDecl)
deriving Repr

abbrev TranslationUnit := List TopLevel

end Shader
