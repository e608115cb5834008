import Shader.Token

/-! A place in a token list, and the actions from which parsers are built. -/

namespace Shader

/-- What a parser would have taken where it met another token. -/
inductive Expectation where
  | token (kind : TokenKind)
  | identifier
  | typeSpecifier
  | layoutName
  | layoutValue
  | fieldName
  | expression
deriving DecidableEq, Repr

def Expectation.text : Expectation → String
  | token kind => kind.describe
  | identifier => "identifier"
  | typeSpecifier => "type specifier"
  | layoutName => "layout qualifier"
  | layoutValue => "integer layout value"
  | fieldName => "field name"
  | expression => "expression"

inductive ParseProblem where
  | expected (what : Expectation) (found : TokenKind)
  | precisionMissing
  | storageRepeated
  | centroidAlone
  | functionNested
  /-- The parser was given too little fuel to finish. -/
  | unfinished
deriving DecidableEq, Repr

def ParseProblem.message : ParseProblem → String
  | expected what found => s!"expected {what.text}, found {found.describe}"
  | precisionMissing => "expected precision qualifier"
  | storageRepeated => "multiple storage qualifiers"
  | centroidAlone => "'centroid' must be followed by 'in' or 'out'"
  | functionNested => "function declarations are only allowed at global scope"
  | unfinished => "nesting too deep"

structure ParseError where
  problem : ParseProblem
  span : Span
deriving DecidableEq, Repr

def ParseError.message (e : ParseError) : String :=
  e.problem.message

/-- A place in a token list: the token there and those after it. `before` is the span of the token
taken last; at the start of the list it is that of the first token. -/
structure Cursor where
  before : Span
  token : Token
  rest : List Token
deriving DecidableEq, Repr

namespace Cursor

def ofTokens (first : Token) (rest : List Token) : Cursor :=
  ⟨first.span, first, rest⟩

/-- One token further; at the last token the place stays. -/
def next (c : Cursor) : Cursor :=
  match c.rest with
  | [] => c
  | t :: ts => ⟨c.token.span, t, ts⟩

def kind (c : Cursor) : TokenKind :=
  c.token.kind

def nextKind (c : Cursor) : TokenKind :=
  c.next.kind

/-- The tokens after the bracket that closes `depth + 1` open ones, if it comes before the end of
the statement. -/
def afterClosing : Nat → List Token → Option (List Token)
  | _, [] => none
  | depth, t :: ts =>
    if t.kind = .mark .lBracket then afterClosing (depth + 1) ts
    else if t.kind = .mark .rBracket then
      match depth with
      | 0 => some ts
      | depth + 1 => afterClosing depth ts
    else if t.kind = .mark .semi || t.kind = .eof then none
    else afterClosing depth ts

/-- The token behind the brackets that follow the token here, if brackets follow it. -/
def behindBrackets? (c : Cursor) : Option TokenKind :=
  match c.rest with
  | [] => none
  | t :: ts =>
    if t.kind = .mark .lBracket then
      match afterClosing 0 ts with
      | some (u :: _) => some u.kind
      | _ => none
    else none

/-- The token here is a name that opens an argument list, perhaps with brackets between. -/
def startsCall (c : Cursor) : Bool :=
  c.nextKind = .mark .lParen || c.behindBrackets? = some (.mark .lParen)

/-- A declaration starts here and not an expression. -/
def startsDeclaration (c : Cursor) : Bool :=
  match c.kind with
  | .keyword k => k.startsQualifier || k = .structWord || k = .precisionWord
  | .identifier _ => c.nextKind.isIdentifier || c.behindBrackets?.any TokenKind.isIdentifier
  | _ => false

end Cursor

abbrev Parser := StateT Cursor (Except ParseError)

namespace Parse

def unfinished {α : Type} : Parser α := do
  throw ⟨.unfinished, (← get).token.span⟩

def expected {α : Type} (what : Expectation) : Parser α := do
  let t := (← get).token
  throw ⟨.expected what t.kind, t.span⟩

def kind : Parser TokenKind := do
  return (← get).kind

def here : Parser Span := do
  return (← get).token.span

/-- The span from `start` to the end of the token taken last. -/
def spanFrom (start : Span) : Parser Span := do
  return start.merge (← get).before

def advance : Parser Unit :=
  modify Cursor.next

def isAt (what : TokenKind) : Parser Bool := do
  return (← get).kind = what

/-- Takes the token if it is the given one. -/
def accept (what : TokenKind) : Parser Bool := do
  if ← isAt what then
    advance
    return true
  else return false

def expect (what : TokenKind) : Parser Unit := do
  if ← isAt what then advance else expected (.token what)

def atMark (m : Mark) : Parser Bool :=
  isAt (.mark m)

def acceptMark (m : Mark) : Parser Bool :=
  accept (.mark m)

def expectMark (m : Mark) : Parser Unit :=
  expect (.mark m)

def atIdentifier : Parser Bool := do
  return (← get).kind.isIdentifier

end Parse

end Shader
