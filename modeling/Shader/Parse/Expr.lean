import Shader.Operator.Mark
import Shader.Parse.Qualifiers
import Shader.Tree

/-! Parsing expressions. Every parser of the group takes a bound on the depth of its calls, which
is the fuel it has left. -/

namespace Shader

namespace Parse

/-- The note of a node that stands at `span` and has no type yet. -/
def untyped (span : Span) : Note :=
  ⟨span, none⟩

def calleeName (name : String) : CalleeName :=
  match BasicTy.ofName? name with
  | some b => .basic b
  | none => .named name

/-- `void)` in place of a list. -/
def atVoidList : Parser Bool := do
  let c ← get
  return c.kind = .identifier "void" && c.nextKind = .mark .rParen

mutual

def expression : Nat → Parser Expr
  | 0 => unfinished
  | n + 1 => do
    let left ← assignment n
    commaTail n left

def commaTail : Nat → Expr → Parser Expr
  | 0, _ => unfinished
  | n + 1, left => do
    if ← acceptMark .comma then
      let right ← assignment n
      commaTail n (.comma left right (untyped (left.span.merge right.span)))
    else return left

/-- An assignment groups to the right. -/
def assignment : Nat → Parser Expr
  | 0 => unfinished
  | n + 1 => do
    let target ← conditional n
    match AssignOp.ofToken? (← kind) with
    | some op =>
      advance
      let value ← assignment n
      return .assign op target value (untyped (target.span.merge value.span))
    | none => return target

def conditional : Nat → Parser Expr
  | 0 => unfinished
  | n + 1 => do
    let condition ← binary n 0
    if ← acceptMark .question then
      let whenTrue ← expression n
      expectMark .colon
      let whenFalse ← assignment n
      return .ternary condition whenTrue whenFalse
        (untyped (condition.span.merge whenFalse.span))
    else return condition

/-- Operands joined by binary operators of precedence `level` or more. -/
def binary : Nat → (level : Nat) → Parser Expr
  | 0, _ => unfinished
  | n + 1, level => do
    if level = BinaryOp.levels then unary n
    else
      let left ← binary n (level + 1)
      binaryTail n level left

/-- Operators of one precedence group to the left. -/
def binaryTail : Nat → (level : Nat) → Expr → Parser Expr
  | 0, _, _ => unfinished
  | n + 1, level, left => do
    match BinaryOp.ofToken? level (← kind) with
    | some op =>
      advance
      let right ← binary n (level + 1)
      binaryTail n level (.binary op left right (untyped (left.span.merge right.span)))
    | none => return left

def unary : Nat → Parser Expr
  | 0 => unfinished
  | n + 1 => do
    let start ← here
    let k ← kind
    match UnaryOp.ofToken? k, UpdateOp.ofToken? k with
    | some op, _ =>
      advance
      let operand ← unary n
      return .unary op operand (untyped (start.merge operand.span))
    | none, some op =>
      advance
      let operand ← unary n
      return .update op true operand (untyped (start.merge operand.span))
    | none, none =>
      let operand ← primary n
      accesses n operand

def accesses : Nat → Expr → Parser Expr
  | 0, _ => unfinished
  | n + 1, e => do
    let k ← kind
    if k = .mark .lBracket then
      advance
      let i ← expression n
      expectMark .rBracket
      accesses n (.index e i (untyped (← spanFrom e.span)))
    else if k = .mark .dot then
      advance
      match ← kind with
      | .identifier field =>
        advance
        let c ← get
        if field = "length" && c.kind = .mark .lParen && c.nextKind = .mark .rParen then
          advance
          advance
          accesses n (.length e (untyped (← spanFrom e.span)))
        else accesses n (.field e field (untyped (← spanFrom e.span)))
      | _ => expected .fieldName
    else
      match UpdateOp.ofToken? k with
      | some op =>
        advance
        accesses n (.update op false e (untyped (← spanFrom e.span)))
      | none => return e

def primary : Nat → Parser Expr
  | 0 => unfinished
  | n + 1 => do
    let start ← here
    match ← kind with
    | .intLiteral text =>
      advance
      return .int text (untyped start)
    | .floatLiteral text =>
      advance
      return .float text (untyped start)
    | .keyword .trueWord =>
      advance
      return .bool true (untyped start)
    | .keyword .falseWord =>
      advance
      return .bool false (untyped start)
    | .mark .lParen =>
      advance
      let e ← expression n
      expectMark .rParen
      return e.withSpan (← spanFrom start)
    | .identifier x =>
      if (← get).startsCall then call n x start
      else
        advance
        return .var x none (untyped start)
    | _ => expected .expression

def call : Nat → (name : String) → (start : Span) → Parser Expr
  | 0, _, _ => unfinished
  | n + 1, name, start => do
    advance
    let suffix ← arraySuffix? n
    let callee : Callee := ⟨calleeName name, ← spanFrom start⟩
    expectMark .lParen
    if ← atVoidList then
      advance
      expectMark .rParen
      return .call callee suffix [] .unresolved (untyped (← spanFrom start))
    else
      let args ← if ← atMark .rParen then pure [] else arguments n
      expectMark .rParen
      return .call callee suffix args .unresolved (untyped (← spanFrom start))

def arguments : Nat → Parser (List Expr)
  | 0 => unfinished
  | n + 1 => do
    let arg ← assignment n
    if ← acceptMark .comma then return arg :: (← arguments n) else return [arg]

def arraySuffix? : Nat → Parser (Option (ArraySuffix Expr))
  | 0 => unfinished
  | n + 1 => do
    let start ← here
    if ← acceptMark .lBracket then
      let size ← if ← atMark .rBracket then pure none else some <$> conditional n
      expectMark .rBracket
      return some ⟨size, ← spanFrom start⟩
    else return none

end

end Parse

end Shader
