import Shader.Constant
import Shader.Library.Matrix
import Shader.Library.Whole
import Shader.Operator.Rule
import Shader.Outcome

/-! Values of operators on constants. The typing rules decide which operands an operator takes, so
operands that fit no case here are faults. -/

namespace Shader

namespace Fold

def ofComponents (b : BasicTy) (cs : List Scalar) : Outcome Constant := do
  let v ← .ofExcept (Value.ofComponents b cs)
  return ⟨.basic b, v⟩

def unaryScalar (op : UnaryOp) (s : Scalar) : Outcome Scalar :=
  match op, s with
  | .plus, s => .value s
  | .neg, .float x => .value (.float x.neg)
  | .neg, .int i => .value (.int (-i))
  | .neg, .uint u => .value (.uint (-u))
  | .not, .bool b => .value (.bool !b)
  | .bitNot, .int i => .value (.int (~~~i))
  | .bitNot, .uint u => .value (.uint (~~~u))
  | _, _ => .fault .operand

def unary (op : UnaryOp) (c : Constant) : Outcome Constant := do
  let b ← .ofOption c.ty.basic?
  let result ← .ofOption (op.rule b)
  let cs ← c.value.components.mapM (unaryScalar op)
  ofComponents result cs

/-- The order of two numbers of one kind; NaN has none. -/
def order? (a b : Scalar) : Outcome (Option Ordering) :=
  if a.kind = b.kind && a.kind.isNumeric then .value (a.compare? b) else .fault .operand

/-- With NaN no relation holds. -/
def relation (op : BinaryOp) (a b : Scalar) : Outcome Bool := do
  let order ← order? a b
  return order.any fun o =>
    match op with
    | .lt => o.isLT
    | .le => o.isLE
    | .gt => o.isGT
    | _ => o.isGE

def logical (op : BinaryOp) (a b : Bool) : Bool :=
  match op with
  | .logAnd => a && b
  | .logOr => a || b
  | _ => a != b

/-- Shifts take the amount modulo 32; a signed number keeps its sign to the right. -/
def shift (op : BinaryOp) (a b : Scalar) : Outcome Scalar := do
  let amount ←
    match b with
    | .int i => .value (i.toUInt32 % 32)
    | .uint u => .value (u % 32)
    | _ => .fault .operand
  match a with
  | .int x =>
    return .int (if op = .shl then (x.toUInt32 <<< amount).toInt32 else x >>> amount.toInt32)
  | .uint x => return .uint (if op = .shl then x <<< amount else x >>> amount)
  | _ => .fault .operand

def floatArithmetic (op : BinaryOp) (x y : Binary32) : Outcome Binary32 :=
  match op with
  | .add => .value (x.add y)
  | .sub => .value (x.sub y)
  | .mul => .value (x.mul y)
  | .div => .value (x.div y)
  | _ => .fault .operand

/-- Division cuts off toward zero; the remainder has the sign of the divisor. Neither has a value
for the divisor 0. -/
def intArithmetic (op : BinaryOp) (x y : Int32) : Outcome Int32 :=
  match op with
  | .add => .value (x + y)
  | .sub => .value (x - y)
  | .mul => .value (x * y)
  | .div => if y = 0 then .notConstant else .value (x / y)
  | .mod => if y = 0 then .notConstant else .value ((x % y + y) % y)
  | .bitAnd => .value (x &&& y)
  | .bitOr => .value (x ||| y)
  | .bitXor => .value (x ^^^ y)
  | _ => .fault .operand

def uintArithmetic (op : BinaryOp) (x y : UInt32) : Outcome UInt32 :=
  match op with
  | .add => .value (x + y)
  | .sub => .value (x - y)
  | .mul => .value (x * y)
  | .div => if y = 0 then .notConstant else .value (x / y)
  | .mod => if y = 0 then .notConstant else .value (x % y)
  | .bitAnd => .value (x &&& y)
  | .bitOr => .value (x ||| y)
  | .bitXor => .value (x ^^^ y)
  | _ => .fault .operand

/-- One component of an arithmetic, bitwise or shift operator. -/
def binaryScalar (op : BinaryOp) (a b : Scalar) : Outcome Scalar :=
  match op with
  | .shl | .shr => shift op a b
  | _ =>
    match a, b with
    | .float x, .float y => return .float (← floatArithmetic op x y)
    | .int x, .int y => return .int (← intArithmetic op x y)
    | .uint x, .uint y => return .uint (← uintArithmetic op x y)
    | _, _ => .fault .operand

/-- Component `i` of an operand; a single component stands for all. -/
def broadcast (cs : List Scalar) (i : Nat) : Outcome Scalar :=
  match cs with
  | [s] => .value s
  | _ => .ofExcept (component cs i)

def binaryComponents (op : BinaryOp) (as bs : List Scalar) : Outcome (List Scalar) :=
  (List.range (max as.length bs.length)).mapM fun i => do
    let a ← broadcast as i
    let b ← broadcast bs i
    binaryScalar op a b

/-- A matrix is on at least one side and no scalar on the other. -/
def isProduct (l r : BasicTy) : Bool :=
  (l.isMatrix || r.isMatrix) && !l.isScalar && !r.isScalar

/-- Columns and rows of the left factor, where a vector is a row. -/
def leftDims : BasicTy → Outcome (Nat × Nat)
  | .matrix c r => .value (c.toNat, r.toNat)
  | .vector _ n => .value (n.toNat, 1)
  | _ => .fault .operand

/-- Columns and rows of the right factor, where a vector is a column. -/
def rightDims : BasicTy → Outcome (Nat × Nat)
  | .matrix c r => .value (c.toNat, r.toNat)
  | .vector _ n => .value (1, n.toNat)
  | _ => .fault .operand

/-- The product of two factors with their types. -/
def product (a : Value) (l : BasicTy) (b : Value) (r : BasicTy) : Outcome (List Scalar) := do
  let (inner, rows) ← leftDims l
  let (cols, depth) ← rightDims r
  let m ← Library.widenedGrid inner rows (Library.floats a)
  let n ← Library.widenedGrid cols depth (Library.floats b)
  let entries := (m.product n inner).toList cols rows
  return entries.map (Library.rounded (Library.floats a ++ Library.floats b))

/-- The value of an operator whose operands have basic types `l` and `r` and whose result has the
basic type `result`. -/
def binaryBasic (op : BinaryOp) (a : Value) (l : BasicTy) (b : Value) (r result : BasicTy) :
    Outcome Value :=
  match op with
  | .eq => .value (.scalar (.bool (a.sameValue b)))
  | .ne => .value (.scalar (.bool !a.sameValue b))
  | .lt | .le | .gt | .ge =>
    match a, b with
    | .scalar x, .scalar y => return .scalar (.bool (← relation op x y))
    | _, _ => .fault .operand
  | .logAnd | .logXor | .logOr => do
    let x ← .ofOption a.scalar?
    let y ← .ofOption b.scalar?
    return .scalar (.bool (logical op x.toBool y.toBool))
  | _ => do
    let cs ←
      if op = .mul && isProduct l r then product a l b r
      else binaryComponents op a.components b.components
    .ofExcept (Value.ofComponents result cs)

/-- Arrays and structs only compare. -/
def compareWhole (op : BinaryOp) (a b : Constant) : Outcome Constant :=
  if op.isEquality && a.ty = b.ty && !a.ty.isOpaque then
    .value (.ofBool (a.value.sameValue b.value == (op = .eq)))
  else .notConstant

def binary (op : BinaryOp) (a b : Constant) : Outcome Constant :=
  match a.ty.basic?, b.ty.basic? with
  | some l, some r => do
    let result ← .ofOption (op.rule l r)
    let v ← binaryBasic op a.value l b.value r result
    return ⟨.basic result, v⟩
  | _, _ => compareWhole op a b

end Fold

end Shader
