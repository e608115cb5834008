import Shader.Parse.Expr

/-! Parsing types and declarations. -/

namespace Shader

namespace Parse

def memberNames : Nat → Parser (List MemberName)
  | 0 => unfinished
  | n + 1 => do
    let (x, start) ← name
    let array ← arraySuffix? n
    let member : MemberName := ⟨x, array, ← spanFrom start⟩
    if ← acceptMark .comma then return member :: (← memberNames n)
    expectMark .semi
    return [member]

/-- Puts the array suffix that stands here on a type that starts at `start`. -/
def specNote (n : Nat) (start : Span) : Parser SpecNote := do
  let array ← arraySuffix? n
  return ⟨array, ← spanFrom start, none⟩

mutual

def typeSpec : Nat → Parser TypeSpec
  | 0 => unfinished
  | n + 1 => do
    let start ← here
    match ← kind with
    | .keyword .structWord =>
      advance
      let tag ← if ← atIdentifier then (some ·.1) <$> name else pure none
      expectMark .lBrace
      let members ← memberLines n
      let structSpan ← spanFrom start
      return .struct tag members structSpan (← specNote n start)
    | .identifier x =>
      advance
      let note ← specNote n start
      match BasicTy.ofName? x with
      | some b => return .basic b note
      | none => return .named x note
    | _ => expected .typeSpecifier

def memberLines : Nat → Parser (List (Member TypeSpec))
  | 0 => unfinished
  | n + 1 => do
    let k ← kind
    if k = .mark .rBrace || k = .eof then
      expectMark .rBrace
      return []
    else
      let start ← here
      let quals ← qualifiers n
      let spec ← typeSpec n
      let names ← memberNames n
      let span ← spanFrom start
      return ⟨quals, spec, names, span⟩ :: (← memberLines n)

end

def declarator (n : Nat) (x : String) (start : Span) : Parser Declarator := do
  let array ← arraySuffix? n
  let init ← if ← acceptMark .eq then some <$> assignment n else pure none
  return ⟨x, array, init, ← spanFrom start, none⟩

def moreDeclarators : Nat → Parser (List Declarator)
  | 0 => unfinished
  | n + 1 => do
    if ← acceptMark .comma then
      let (x, start) ← name
      let d ← declarator n x start
      return d :: (← moreDeclarators n)
    else
      expectMark .semi
      return []

def invariantTargets : Nat → Parser (List InvariantTarget)
  | 0 => unfinished
  | n + 1 => do
    let (x, span) ← name
    if ← acceptMark .comma then return ⟨x, span, none⟩ :: (← invariantTargets n)
    expectMark .semi
    return [⟨x, span, none⟩]

def interfaceBlock (n : Nat) (quals : Qualifiers) : Parser InterfaceBlock := do
  let (x, _) ← name
  expectMark .lBrace
  let members ← memberLines n
  if ← atIdentifier then
    let (y, start) ← name
    let array ← arraySuffix? n
    let span ← spanFrom start
    expectMark .semi
    return ⟨quals, x, members, some ⟨y, array, none, span, none⟩⟩
  else
    expectMark .semi
    return ⟨quals, x, members, none⟩

/-- What the first part of a declaration turned out to be: all of it, or the type and the name of a
function whose parameter list comes next. -/
inductive Head where
  | declaration (d : Declaration)
  | function (quals : Qualifiers) (spec : TypeSpec) (name : String) (nameSpan : Span)

/-- A declaration `invariant a, b;` rather than an invariant variable. -/
def atInvariantList : Parser Bool := do
  let c ← get
  let after := c.next.nextKind
  return c.kind = .keyword .invariantWord && c.nextKind.isIdentifier
    && (after = .mark .semi || after = .mark .comma)

def head (n : Nat) : Parser Head := do
  let start ← here
  if ← accept (.keyword .precisionWord) then
    match precision? (← kind) with
    | some p =>
      advance
      let spec ← typeSpec n
      expectMark .semi
      return .declaration (.precision p spec (← spanFrom start))
    | none => throw ⟨.precisionMissing, ← here⟩
  else if ← atInvariantList then
    advance
    let targets ← invariantTargets n
    return .declaration (.invariant targets (← spanFrom start))
  else
    let quals ← qualifiers n
    let c ← get
    if !quals.isEmpty && c.kind.isIdentifier && c.nextKind = .mark .lBrace then
      let block ← interfaceBlock n quals
      return .declaration (.block block (← spanFrom start))
    else
      let spec ← typeSpec n
      if ← acceptMark .semi then
        return .declaration (.vars quals spec [] (← spanFrom start))
      else
        let (x, nameSpan) ← name
        if ← atMark .lParen then return .function quals spec x nameSpan
        else
          let first ← declarator n x nameSpan
          let others ← moreDeclarators n
          return .declaration (.vars quals spec (first :: others) (← spanFrom start))

def localDeclaration (n : Nat) : Parser Declaration := do
  match ← head n with
  | .declaration d => return d
  | .function _ _ _ nameSpan => throw ⟨.functionNested, nameSpan⟩

end Parse

end Shader
