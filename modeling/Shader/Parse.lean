import Shader.Parse.Statement
import Shader.Token.Scan

/-! Parsing translation units. -/

namespace Shader

inductive SourceError where
  | lexical (e : LexError)
  | syntactic (e : ParseError)
deriving DecidableEq, Repr

namespace SourceError

def span : SourceError → Span
  | lexical e => e.span
  | syntactic e => e.span

def message : SourceError → String
  | lexical e => e.message
  | syntactic e => e.message

end SourceError

namespace Parse

def parameter (n : Nat) : Parser ParamDecl := do
  let start ← here
  let quals ← qualifiers n
  let spec ← typeSpec n
  if ← atIdentifier then
    let (x, _) ← name
    let array ← arraySuffix? n
    return ⟨quals, spec, some x, array, ← spanFrom start, none⟩
  else return ⟨quals, spec, none, none, ← spanFrom start, none⟩

def parameters : Nat → Parser (List ParamDecl)
  | 0 => unfinished
  | n + 1 => do
    let p ← parameter n
    if ← acceptMark .comma then return p :: (← parameters n) else return [p]

def functionRest (n : Nat) (quals : Qualifiers) (spec : TypeSpec) (x : String) (start : Span) :
    Parser FunctionDecl := do
  expectMark .lParen
  let params ←
    if ← atVoidList then
      advance
      pure []
    else if ← atMark .rParen then pure []
    else parameters n
  expectMark .rParen
  let body ← if ← acceptMark .semi then pure none else some <$> block n
  return ⟨quals, spec, x, params, body, ← spanFrom start⟩

def topLevel (n : Nat) : Parser TopLevel := do
  let start ← here
  match ← head n with
  | .declaration d => return .declaration d
  | .function quals spec x _ => return .function (← functionRest n quals spec x start)

def topLevels : Nat → Parser TranslationUnit
  | 0 => unfinished
  | n + 1 => do
    if ← isAt .eof then return []
    else
      let d ← topLevel n
      return d :: (← topLevels n)

/-- Fuel for a list of `count` tokens. No more than twenty calls stand between one token and the
next, so it is never used up. -/
def fuelFor (count : Nat) : Nat :=
  32 * (count + 1)

end Parse

def parseTokens : List Token → Except ParseError TranslationUnit
  | [] => .ok []
  | t :: ts => (Parse.topLevels (Parse.fuelFor ts.length)).run' (.ofTokens t ts)

def parse (source : String) : Except SourceError TranslationUnit :=
  match tokenize source with
  | .error e => .error (.lexical e)
  | .ok tokens => (parseTokens tokens).mapError .syntactic

theorem parse_eq_ok {source : String} {unit : TranslationUnit} (h : parse source = .ok unit) :
    ∃ tokens, tokenize source = .ok tokens ∧ parseTokens tokens = .ok unit := by
  unfold parse at h
  cases htokens : tokenize source with
  | error e =>
    rw [htokens] at h
    cases h
  | ok tokens =>
    rw [htokens] at h
    cases hparse : parseTokens tokens with
    | error e =>
      simp only [hparse] at h
      cases h
    | ok unit' =>
      simp only [hparse] at h
      obtain rfl := Except.ok.inj h
      exact ⟨tokens, rfl, hparse⟩

theorem parse_eq_error {source : String} {e : SourceError} (h : parse source = .error e) :
    (∃ e', e = .lexical e' ∧ tokenize source = .error e') ∨
      ∃ tokens e', tokenize source = .ok tokens ∧ e = .syntactic e' ∧
        parseTokens tokens = .error e' := by
  unfold parse at h
  cases htokens : tokenize source with
  | error e' =>
    rw [htokens] at h
    exact .inl ⟨e', (Except.error.inj h).symm, rfl⟩
  | ok tokens =>
    rw [htokens] at h
    cases hparse : parseTokens tokens with
    | error e' =>
      simp only [hparse] at h
      exact .inr ⟨tokens, e', rfl, (Except.error.inj h).symm, hparse⟩
    | ok unit =>
      simp only [hparse] at h
      cases h

/-- A list of tokens that is read is empty, or its declarations are read from its first token on. -/
theorem parseTokens_eq_ok {tokens : List Token} {unit : TranslationUnit}
    (h : parseTokens tokens = .ok unit) :
    tokens = [] ∧ unit = [] ∨ ∃ t ts stop, tokens = t :: ts ∧
      Parse.topLevels (Parse.fuelFor ts.length) (.ofTokens t ts) = .ok (unit, stop) := by
  cases tokens with
  | nil => exact .inl ⟨rfl, (Except.ok.inj h).symm⟩
  | cons t ts =>
    cases hrun : Parse.topLevels (Parse.fuelFor ts.length) (.ofTokens t ts) with
    | error e =>
      simp only [parseTokens, StateT.run', hrun] at h
      cases h
    | ok r =>
      simp only [parseTokens, StateT.run', hrun] at h
      obtain rfl := Except.ok.inj h
      exact .inr ⟨t, ts, r.2, rfl, hrun⟩

end Shader
