import Shader.Parse.Declaration

/-! Parsing statements. -/

namespace Shader

namespace Parse

def expressionStatement (n : Nat) : Parser Stmt := do
  let start ← here
  let e ← expression n
  expectMark .semi
  return .expr e (← spanFrom start)

def simpleStatement (n : Nat) : Parser Stmt := do
  if (← get).startsDeclaration then
    let d ← localDeclaration n
    return .decl d d.span
  else expressionStatement n

def enclosed (n : Nat) : Parser Expr := do
  expectMark .lParen
  let e ← expression n
  expectMark .rParen
  return e

def expressionBefore? (n : Nat) (stop : Mark) : Parser (Option Expr) := do
  if ← atMark stop then return none else some <$> expression n

mutual

def statement : Nat → Parser Stmt
  | 0 => unfinished
  | n + 1 => do
    let start ← here
    match ← kind with
    | .mark .lBrace =>
      let body ← block n
      return .block body (← spanFrom start)
    | .keyword .ifWord =>
      advance
      let condition ← enclosed n
      let whenTrue ← statement n
      if ← accept (.keyword .elseWord) then
        let whenFalse ← statement n
        return .branch condition whenTrue (some whenFalse) (← spanFrom start)
      else return .branch condition whenTrue none (← spanFrom start)
    | .keyword .switchWord =>
      advance
      let selector ← enclosed n
      let body ← block n
      return .switch selector body (← spanFrom start)
    | .keyword .caseWord =>
      advance
      let value ← expression n
      expectMark .colon
      return .caseLabel value (← spanFrom start)
    | .keyword .defaultWord =>
      advance
      expectMark .colon
      return .defaultLabel (← spanFrom start)
    | .keyword .whileWord =>
      advance
      let condition ← enclosed n
      let body ← statement n
      return .whileLoop condition body (← spanFrom start)
    | .keyword .doWord =>
      advance
      let body ← statement n
      expect (.keyword .whileWord)
      let condition ← enclosed n
      expectMark .semi
      return .doLoop body condition (← spanFrom start)
    | .keyword .forWord =>
      advance
      expectMark .lParen
      let init ← if ← acceptMark .semi then pure none else some <$> simpleStatement n
      let condition ← expressionBefore? n .semi
      expectMark .semi
      let update ← expressionBefore? n .rParen
      expectMark .rParen
      let body ← statement n
      return .forLoop init condition update body (← spanFrom start)
    | .keyword .continueWord =>
      advance
      expectMark .semi
      return .continueLoop (← spanFrom start)
    | .keyword .breakWord =>
      advance
      expectMark .semi
      return .breakLoop (← spanFrom start)
    | .keyword .discardWord =>
      advance
      expectMark .semi
      return .discard (← spanFrom start)
    | .keyword .returnWord =>
      advance
      let value ← expressionBefore? n .semi
      expectMark .semi
      return .giveBack value (← spanFrom start)
    | .mark .semi =>
      advance
      return .empty start
    | _ => simpleStatement n

def block : Nat → Parser (Block Stmt)
  | 0 => unfinished
  | n + 1 => do
    let start ← here
    expectMark .lBrace
    let stmts ← statements n
    return ⟨stmts, ← spanFrom start⟩

/-- The statements up to the closing brace, which is taken too. -/
def statements : Nat → Parser (List Stmt)
  | 0 => unfinished
  | n + 1 => do
    let k ← kind
    if k = .mark .rBrace || k = .eof then
      expectMark .rBrace
      return []
    else
      let s ← statement n
      return s :: (← statements n)

end

end Parse

end Shader
