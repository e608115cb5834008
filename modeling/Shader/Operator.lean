/-! Operators of expressions. -/

namespace Shader

inductive BinaryOp where
  | add | sub | mul | div | mod
  | bitAnd | bitOr | bitXor | shl | shr
  | logAnd | logXor | logOr
  | eq | ne | lt | le | gt | ge
deriving DecidableEq, Repr

namespace BinaryOp

def all : List BinaryOp :=
  [add, sub, mul, div, mod, bitAnd, bitOr, bitXor, shl, shr, logAnd, logXor, logOr,
    eq, ne, lt, le, gt, ge]

def text : BinaryOp → String
  | add => "+"
  | sub => "-"
  | mul => "*"
  | div => "/"
  | mod => "%"
  | bitAnd => "&"
  | bitOr => "|"
  | bitXor => "^"
  | shl => "<<"
  | shr => ">>"
  | logAnd => "&&"
  | logXor => "^^"
  | logOr => "||"
  | eq => "=="
  | ne => "!="
  | lt => "<"
  | le => "<="
  | gt => ">"
  | ge => ">="

def ofText? (text : String) : Option BinaryOp :=
  all.find? fun op => op.text = text

def isRelational : BinaryOp → Bool
  | lt | le | gt | ge => true
  | _ => false

def isEquality : BinaryOp → Bool
  | eq | ne => true
  | _ => false

def isLogical : BinaryOp → Bool
  | logAnd | logXor | logOr => true
  | _ => false

end BinaryOp

inductive UnaryOp where
  | plus | neg | not | bitNot
deriving DecidableEq, Repr

namespace UnaryOp

def all : List UnaryOp :=
  [plus, neg, not, bitNot]

def text : UnaryOp → String
  | plus => "+"
  | neg => "-"
  | not => "!"
  | bitNot => "~"

def ofText? (text : String) : Option UnaryOp :=
  all.find? fun op => op.text = text

end UnaryOp

inductive UpdateOp where
  | increment | decrement
deriving DecidableEq, Repr

def UpdateOp.text : UpdateOp → String
  | increment => "++"
  | decrement => "--"

/-- An assignment: plain, or one that first combines the target with the value. -/
inductive AssignOp where
  | plain
  | combine (op : BinaryOp)
deriving DecidableEq, Repr

namespace AssignOp

def all : List AssignOp :=
  [plain, combine .add, combine .sub, combine .mul, combine .div, combine .mod, combine .bitAnd,
    combine .bitOr, combine .bitXor, combine .shl, combine .shr]

def text : AssignOp → String
  | plain => "="
  | combine op => op.text ++ "="

def ofText? (text : String) : Option AssignOp :=
  all.find? fun op => op.text = text

def binary? : AssignOp → Option BinaryOp
  | plain => none
  | combine op => some op

end AssignOp

end Shader
