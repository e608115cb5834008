import Shader.Token

/-! Cutting a source text into tokens. At each place the longest piece that any rule matches is
taken; blanks, comments and lines that start with a number sign are skipped. -/

namespace Shader

namespace Scan

def isBlank (c : Char) : Bool :=
  c = ' ' || c = '\t' || c = '\n' || c = '\r' || c = '\x0c'

def isDigit (c : Char) : Bool :=
  '0' ≤ c && c ≤ '9'

def isHexDigit (c : Char) : Bool :=
  isDigit c || ('a' ≤ c && c ≤ 'f') || ('A' ≤ c && c ≤ 'F')

def isWordStart (c : Char) : Bool :=
  ('a' ≤ c && c ≤ 'z') || ('A' ≤ c && c ≤ 'Z') || c = '_'

def isWordPart (c : Char) : Bool :=
  isWordStart c || isDigit c

def isUnsignedMark (c : Char) : Bool :=
  c = 'u' || c = 'U'

def isFloatMark (c : Char) : Bool :=
  c = 'f' || c = 'F'

def oneOf (p : Char → Bool) : List Char → List Char
  | c :: _ => if p c then [c] else []
  | [] => []

/-- An exponent with at least one digit, or nothing. -/
def exponent : List Char → List Char
  | e :: cs =>
    if e = 'e' || e = 'E' then
      let sign := oneOf (fun c => c = '+' || c = '-') cs
      let digits := (cs.drop sign.length).takeWhile isDigit
      if digits.isEmpty then [] else e :: sign ++ digits
    else []
  | [] => []

/-- The exponent and the float mark that may end a float literal. -/
def floatTail (cs : List Char) : List Char :=
  let ex := exponent cs
  ex ++ oneOf isFloatMark (cs.drop ex.length)

def hexLiteral : List Char → List Char
  | '0' :: x :: cs =>
    let digits := cs.takeWhile isHexDigit
    if (x = 'x' || x = 'X') && !digits.isEmpty then
      '0' :: x :: digits ++ oneOf isUnsignedMark (cs.drop digits.length)
    else []
  | _ => []

/-- The number at a place that starts with a digit. -/
def number (cs : List Char) : TokenKind × List Char :=
  let digits := cs.takeWhile isDigit
  let rest := cs.drop digits.length
  match rest with
  | '.' :: after =>
    let fraction := after.takeWhile isDigit
    let text := digits ++ '.' :: fraction ++ floatTail (after.drop fraction.length)
    (.floatLiteral (String.ofList text), text)
  | _ =>
    if !(exponent rest).isEmpty then
      let text := digits ++ floatTail rest
      (.floatLiteral (String.ofList text), text)
    else
      let hex := hexLiteral cs
      let text := if hex.isEmpty then digits ++ oneOf isUnsignedMark rest else hex
      (.intLiteral (String.ofList text), text)

/-- How many characters it takes to reach past the first closing of a block comment. -/
def pastClosing : List Char → Option Nat
  | '*' :: '/' :: _ => some 2
  | _ :: cs => (pastClosing cs).map (· + 1)
  | [] => none

def word (text : List Char) : TokenKind :=
  let name := String.ofList text
  match Keyword.ofText? name with
  | some k => .keyword k
  | none => .identifier name

/-- What stands at the start of a text. -/
inductive Piece where
  /-- A blank, comment or directive of `length` characters. -/
  | skip (length : Nat)
  | token (kind : TokenKind) (text : List Char)
  /-- No rule matches; `text` is what the error quotes. -/
  | bad (text : List Char)

/-- The longest piece at the start of `c :: cs`. -/
def piece (c : Char) (cs : List Char) : Piece :=
  if isBlank c then .skip (1 + (cs.takeWhile isBlank).length)
  else if c = '#' then .skip (1 + (cs.takeWhile (· ≠ '\n')).length)
  else if isWordStart c then
    let text := c :: cs.takeWhile isWordPart
    .token (word text) text
  else if isDigit c then
    let (kind, text) := number (c :: cs)
    .token kind text
  else
    match c, cs with
    | '/', '/' :: rest => .skip (2 + (rest.takeWhile (· ≠ '\n')).length)
    | '/', '*' :: rest =>
      match pastClosing rest with
      | some n => .skip (2 + n)
      | none => .bad (c :: cs)
    | _, _ =>
      let fraction := if c = '.' then cs.takeWhile isDigit else []
      if !fraction.isEmpty then
        let text := '.' :: fraction ++ floatTail (cs.drop fraction.length)
        .token (.floatLiteral (String.ofList text)) text
      else
        match Mark.all.find? (fun m => m.chars.isPrefixOf (c :: cs)) with
        | some m => .token (.mark m) m.chars
        | none => .bad [c]

def byteLength (text : List Char) : Nat :=
  text.foldr (fun c n => c.utf8Size + n) 0

end Scan

structure LexError where
  text : String
  span : Span
deriving DecidableEq, Repr

def LexError.message (e : LexError) : String :=
  s!"unexpected character '{e.text}'"

/-- The tokens up to the end of the source or up to the first error. -/
structure Scanned where
  tokens : List Token
  error : Option LexError

/-- Scans from byte `offset`, where `within` more characters belong to the piece before. The end
of the source is a token of its own. -/
def scanFrom : List Char → (within offset : Nat) → Scanned
  | [], _, offset => ⟨[⟨.eof, ⟨offset, offset⟩⟩], none⟩
  | c :: cs, within + 1, offset => scanFrom cs within (offset + c.utf8Size)
  | c :: cs, 0, offset =>
    match Scan.piece c cs with
    | .skip n => scanFrom cs (n - 1) (offset + c.utf8Size)
    | .token kind text =>
      let later := scanFrom cs (text.length - 1) (offset + c.utf8Size)
      { later with tokens := ⟨kind, ⟨offset, offset + Scan.byteLength text⟩⟩ :: later.tokens }
    | .bad text =>
      ⟨[], some ⟨String.ofList text, ⟨offset, offset + Scan.byteLength text⟩⟩⟩

def scan (source : String) : Scanned :=
  scanFrom source.toList 0 0

/-- All tokens of a source; the last one, and only it, marks the end. -/
def tokenize (source : String) : Except LexError (List Token) :=
  let scanned := scan source
  match scanned.error with
  | some e => .error e
  | none => .ok scanned.tokens

/-- The first `count` tokens, the end of the source repeating as often as asked; an error stops. -/
def firstTokens (source : String) (count : Nat) : Scanned :=
  let scanned := scan source
  match scanned.error with
  | some e =>
    if count ≤ scanned.tokens.length then ⟨scanned.tokens.take count, none⟩
    else ⟨scanned.tokens, some e⟩
  | none =>
    let stop := source.utf8ByteSize
    let past : Token := ⟨.eof, ⟨stop, stop⟩⟩
    ⟨(scanned.tokens ++ List.replicate count past).take count, none⟩

end Shader
