import Shader.Operator
import Shader.Ty

/-! The typing relation of operators. There are no conversions: every rule matches the operand
types exactly. Checking and folding both go by these rules. -/

namespace Shader

/-- Products with a matrix on at least one side: a vector on the left is a row, on the right a
column. -/
def productRule : BasicTy → BasicTy → Option BasicTy
  | .matrix c₁ r₁, .matrix c₂ r₂ => if c₁ = r₂ then some (.matrix c₂ r₁) else none
  | .vector .float n, .matrix c r => if n = r then some (.vector .float c) else none
  | .matrix c r, .vector .float n => if n = c then some (.vector .float r) else none
  | _, _ => none

/-- Operators that work component by component, where a scalar pairs with every component of a
vector; `accepts` says for which kinds. -/
def componentRule (accepts : ScalarKind → Bool) : BasicTy → BasicTy → Option BasicTy
  | .scalar a, .scalar b => if a = b && accepts a then some (.scalar a) else none
  | .scalar a, .vector b n => if a = b && accepts a then some (.vector b n) else none
  | .vector a n, .scalar b => if a = b && accepts a then some (.vector a n) else none
  | .vector a n, .vector b m => if a = b && n = m && accepts a then some (.vector a n) else none
  | _, _ => none

/-- Matrices combine with float scalars and, unless they are multiplied, with matrices of their own
shape. -/
def matrixRule (op : BinaryOp) : BasicTy → BasicTy → Option BasicTy
  | .scalar .float, .matrix c r => some (.matrix c r)
  | .matrix c r, .scalar .float => some (.matrix c r)
  | .matrix c r, .matrix c' r' => if c = c' && r = r' && op ≠ .mul then some (.matrix c r) else none
  | _, _ => none

def arithmeticRule (op : BinaryOp) (l r : BasicTy) : Option BasicTy :=
  let product := if op = .mul then productRule l r else none
  product <|> componentRule ScalarKind.isNumeric l r <|> matrixRule op l r

/-- The left operand is shifted by integers of either kind. -/
def shiftRule : BasicTy → BasicTy → Option BasicTy
  | .scalar a, .scalar b => if a.isInteger && b.isInteger then some (.scalar a) else none
  | .vector a n, .scalar b => if a.isInteger && b.isInteger then some (.vector a n) else none
  | .vector a n, .vector b m =>
    if a.isInteger && b.isInteger && n = m then some (.vector a n) else none
  | _, _ => none

def relationalRule : BasicTy → BasicTy → Option BasicTy
  | .scalar a, .scalar b => if a = b && a.isNumeric then some (.scalar .bool) else none
  | _, _ => none

def equalityRule (l r : BasicTy) : Option BasicTy :=
  if l = r && l ≠ .void && !l.isSampler then some (.scalar .bool) else none

def logicalRule : BasicTy → BasicTy → Option BasicTy
  | .scalar .bool, .scalar .bool => some (.scalar .bool)
  | _, _ => none

/-- The type of `l op r` for basic types. -/
def BinaryOp.rule (op : BinaryOp) (l r : BasicTy) : Option BasicTy :=
  match op with
  | .add | .sub | .mul | .div => arithmeticRule op l r
  | .mod | .bitAnd | .bitOr | .bitXor => componentRule ScalarKind.isInteger l r
  | .shl | .shr => shiftRule l r
  | .lt | .le | .gt | .ge => relationalRule l r
  | .eq | .ne => equalityRule l r
  | .logAnd | .logXor | .logOr => logicalRule l r

structure Signature where
  left : BasicTy
  right : BasicTy
  result : BasicTy

/-- Every combination of types with components that the operator accepts. -/
def BinaryOp.signatures (op : BinaryOp) : List Signature :=
  BasicTy.withComponents.flatMap fun l =>
    BasicTy.withComponents.filterMap fun r =>
      (op.rule l r).map fun result => ⟨l, r, result⟩

def UnaryOp.accepts (op : UnaryOp) (operand : BasicTy) (kind : ScalarKind) : Bool :=
  match op with
  | .plus | .neg => kind.isNumeric
  | .not => operand = .scalar .bool
  | .bitNot => kind.isInteger && !operand.isMatrix

/-- The type of a unary operator applied to a basic type. -/
def UnaryOp.rule (op : UnaryOp) (operand : BasicTy) : Option BasicTy :=
  match operand.componentKind? with
  | some kind => if op.accepts operand kind then some operand else none
  | none => none

end Shader
