import Shader.Span

/-! Tokens of the shading language. Basic type names such as `vec3` are identifiers here. -/

namespace Shader

inductive Keyword where
  | constWord | uniformWord | inWord | outWord | inoutWord | centroidWord | flatWord | smoothWord
  | invariantWord | layoutWord | lowpWord | mediumpWord | highpWord | precisionWord
  | structWord | ifWord | elseWord | switchWord | caseWord | defaultWord | whileWord | doWord
  | forWord | continueWord | breakWord | returnWord | discardWord | trueWord | falseWord
deriving DecidableEq, Repr

namespace Keyword

def all : List Keyword :=
  [constWord, uniformWord, inWord, outWord, inoutWord, centroidWord, flatWord, smoothWord,
    invariantWord, layoutWord, lowpWord, mediumpWord, highpWord, precisionWord,
    structWord, ifWord, elseWord, switchWord, caseWord, defaultWord, whileWord, doWord,
    forWord, continueWord, breakWord, returnWord, discardWord, trueWord, falseWord]

def text : Keyword → String
  | constWord => "const"
  | uniformWord => "uniform"
  | inWord => "in"
  | outWord => "out"
  | inoutWord => "inout"
  | centroidWord => "centroid"
  | flatWord => "flat"
  | smoothWord => "smooth"
  | invariantWord => "invariant"
  | layoutWord => "layout"
  | lowpWord => "lowp"
  | mediumpWord => "mediump"
  | highpWord => "highp"
  | precisionWord => "precision"
  | structWord => "struct"
  | ifWord => "if"
  | elseWord => "else"
  | switchWord => "switch"
  | caseWord => "case"
  | defaultWord => "default"
  | whileWord => "while"
  | doWord => "do"
  | forWord => "for"
  | continueWord => "continue"
  | breakWord => "break"
  | returnWord => "return"
  | discardWord => "discard"
  | trueWord => "true"
  | falseWord => "false"

/-- The name under which messages mention the keyword. -/
def name : Keyword → String
  | inoutWord => "InOut"
  | k => k.text.capitalize

def ofText? (word : String) : Option Keyword :=
  all.find? fun k => k.text = word

/-- The keyword can only begin a qualified declaration. -/
def startsQualifier : Keyword → Bool
  | constWord | uniformWord | inWord | outWord | inoutWord | centroidWord | flatWord | smoothWord
  | invariantWord | layoutWord | lowpWord | mediumpWord | highpWord => true
  | _ => false

end Keyword

inductive Mark where
  | plus | minus | star | slash | percent | plusPlus | minusMinus | ltLt | gtGt | lt | gt | ltEq
  | gtEq | eqEq | notEq | amp | caret | pipe | ampAmp | caretCaret | pipePipe | bang | tilde | eq
  | plusEq | minusEq | starEq | slashEq | percentEq | ltLtEq | gtGtEq | ampEq | caretEq | pipeEq
  | lParen | rParen | lBracket | rBracket | lBrace | rBrace | semi | comma | dot | colon | question
deriving DecidableEq, Repr

namespace Mark

/-- Every mark, the longer texts first. -/
def all : List Mark :=
  [ltLtEq, gtGtEq,
    plusPlus, minusMinus, ltLt, gtGt, ltEq, gtEq, eqEq, notEq, ampAmp, caretCaret, pipePipe,
    plusEq, minusEq, starEq, slashEq, percentEq, ampEq, caretEq, pipeEq,
    plus, minus, star, slash, percent, lt, gt, amp, caret, pipe, bang, tilde, eq,
    lParen, rParen, lBracket, rBracket, lBrace, rBrace, semi, comma, dot, colon, question]

def chars : Mark → List Char
  | plus => ['+']
  | minus => ['-']
  | star => ['*']
  | slash => ['/']
  | percent => ['%']
  | plusPlus => ['+', '+']
  | minusMinus => ['-', '-']
  | ltLt => ['<', '<']
  | gtGt => ['>', '>']
  | lt => ['<']
  | gt => ['>']
  | ltEq => ['<', '=']
  | gtEq => ['>', '=']
  | eqEq => ['=', '=']
  | notEq => ['!', '=']
  | amp => ['&']
  | caret => ['^']
  | pipe => ['|']
  | ampAmp => ['&', '&']
  | caretCaret => ['^', '^']
  | pipePipe => ['|', '|']
  | bang => ['!']
  | tilde => ['~']
  | eq => ['=']
  | plusEq => ['+', '=']
  | minusEq => ['-', '=']
  | starEq => ['*', '=']
  | slashEq => ['/', '=']
  | percentEq => ['%', '=']
  | ltLtEq => ['<', '<', '=']
  | gtGtEq => ['>', '>', '=']
  | ampEq => ['&', '=']
  | caretEq => ['^', '=']
  | pipeEq => ['|', '=']
  | lParen => ['(']
  | rParen => [')']
  | lBracket => ['[']
  | rBracket => [']']
  | lBrace => ['{']
  | rBrace => ['}']
  | semi => [';']
  | comma => [',']
  | dot => ['.']
  | colon => [':']
  | question => ['?']

def text (m : Mark) : String :=
  String.ofList m.chars

def name : Mark → String
  | plus => "Plus"
  | minus => "Minus"
  | star => "Star"
  | slash => "Slash"
  | percent => "Percent"
  | plusPlus => "PlusPlus"
  | minusMinus => "MinusMinus"
  | ltLt => "LtLt"
  | gtGt => "GtGt"
  | lt => "Lt"
  | gt => "Gt"
  | ltEq => "LtEq"
  | gtEq => "GtEq"
  | eqEq => "EqEq"
  | notEq => "NotEq"
  | amp => "Amp"
  | caret => "Caret"
  | pipe => "Pipe"
  | ampAmp => "AmpAmp"
  | caretCaret => "CaretCaret"
  | pipePipe => "PipePipe"
  | bang => "Bang"
  | tilde => "Tilde"
  | eq => "Eq"
  | plusEq => "PlusEq"
  | minusEq => "MinusEq"
  | starEq => "StarEq"
  | slashEq => "SlashEq"
  | percentEq => "PercentEq"
  | ltLtEq => "LtLtEq"
  | gtGtEq => "GtGtEq"
  | ampEq => "AmpEq"
  | caretEq => "CaretEq"
  | pipeEq => "PipeEq"
  | lParen => "LParen"
  | rParen => "RParen"
  | lBracket => "LBracket"
  | rBracket => "RBracket"
  | lBrace => "LBrace"
  | rBrace => "RBrace"
  | semi => "Semi"
  | comma => "Comma"
  | dot => "Dot"
  | colon => "Colon"
  | question => "Question"

/-- Marks that messages quote by their text; the others go by their name. -/
def isQuoted : Mark → Bool
  | plus | minus | star | slash | eq | lParen | rParen | lBracket | rBracket | lBrace | rBrace
  | semi | comma | dot | colon | question => true
  | _ => false

end Mark

inductive TokenKind where
  | keyword (word : Keyword)
  | identifier (name : String)
  | intLiteral (text : String)
  | floatLiteral (text : String)
  | mark (mark : Mark)
  | eof
deriving DecidableEq, Repr

namespace TokenKind

def name : TokenKind → String
  | keyword k => k.name
  | identifier _ => "Identifier"
  | intLiteral _ => "IntLiteral"
  | floatLiteral _ => "FloatLiteral"
  | mark m => m.name
  | eof => "Eof"

/-- How a message speaks of the token. -/
def describe : TokenKind → String
  | keyword k => k.name
  | identifier name => s!"identifier '{name}'"
  | intLiteral text | floatLiteral text => s!"literal '{text}'"
  | mark m => if m.isQuoted then s!"'{m.text}'" else m.name
  | eof => "end of file"

def isIdentifier : TokenKind → Bool
  | identifier _ => true
  | _ => false

def startsQualifier : TokenKind → Bool
  | keyword k => k.startsQualifier
  | _ => false

end TokenKind

structure Token where
  kind : TokenKind
  span : Span
deriving DecidableEq, Repr

end Shader
