import Shader.Operator
import Shader.Token

/-! The marks that write operators, and how tightly binary operators bind. -/

namespace Shader

namespace BinaryOp

def mark : BinaryOp → Mark
  | add => .plus
  | sub => .minus
  | mul => .star
  | div => .slash
  | mod => .percent
  | bitAnd => .amp
  | bitOr => .pipe
  | bitXor => .caret
  | shl => .ltLt
  | shr => .gtGt
  | logAnd => .ampAmp
  | logXor => .caretCaret
  | logOr => .pipePipe
  | eq => .eqEq
  | ne => .notEq
  | lt => .lt
  | le => .ltEq
  | gt => .gt
  | ge => .gtEq

/-- The precedence, from 0 for the operator that binds least. -/
def level : BinaryOp → Nat
  | logOr => 0
  | logXor => 1
  | logAnd => 2
  | bitOr => 3
  | bitXor => 4
  | bitAnd => 5
  | eq | ne => 6
  | lt | le | gt | ge => 7
  | shl | shr => 8
  | add | sub => 9
  | mul | div | mod => 10

def levels : Nat :=
  11

/-- The operator of the given precedence that the token writes. -/
def ofToken? (level : Nat) (kind : TokenKind) : Option BinaryOp :=
  all.find? fun op => op.level = level && kind = .mark op.mark

end BinaryOp

namespace UnaryOp

def mark : UnaryOp → Mark
  | plus => .plus
  | neg => .minus
  | not => .bang
  | bitNot => .tilde

def ofToken? (kind : TokenKind) : Option UnaryOp :=
  all.find? fun op => kind = .mark op.mark

end UnaryOp

namespace UpdateOp

def mark : UpdateOp → Mark
  | increment => .plusPlus
  | decrement => .minusMinus

def ofToken? (kind : TokenKind) : Option UpdateOp :=
  [increment, decrement].find? fun op => kind = .mark op.mark

end UpdateOp

namespace AssignOp

/-- The mark of an assignment; only the operators in `all` have one of their own. -/
def mark : AssignOp → Mark
  | combine .add => .plusEq
  | combine .sub => .minusEq
  | combine .mul => .starEq
  | combine .div => .slashEq
  | combine .mod => .percentEq
  | combine .bitAnd => .ampEq
  | combine .bitOr => .pipeEq
  | combine .bitXor => .caretEq
  | combine .shl => .ltLtEq
  | combine .shr => .gtGtEq
  | _ => .eq

def ofToken? (kind : TokenKind) : Option AssignOp :=
  all.find? fun op => kind = .mark op.mark

end AssignOp

end Shader
