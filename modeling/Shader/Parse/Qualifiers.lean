import Shader.Parse.Cursor
import Shader.Qualifier
import Shader.Ty.Basic

/-! Parsing names and qualifiers. -/

namespace Shader

namespace Parse

/-- An identifier that does not name a basic type, with its span. -/
def name : Parser (String × Span) := do
  match ← kind with
  | .identifier x =>
    if (BasicTy.ofName? x).isSome then expected .identifier
    else
      let span ← here
      advance
      return (x, span)
  | _ => expected .identifier

def precision? : TokenKind → Option Precision
  | .keyword .lowpWord => some .low
  | .keyword .mediumpWord => some .medium
  | .keyword .highpWord => some .high
  | _ => none

def storage? : TokenKind → Option Storage
  | .keyword .constWord => some .constant
  | .keyword .uniformWord => some .uniform
  | .keyword .inWord => some .input
  | .keyword .outWord => some .output
  | .keyword .inoutWord => some .inout
  | _ => none

def interpolation? : TokenKind → Option Interpolation
  | .keyword .flatWord => some .flat
  | .keyword .smoothWord => some .smooth
  | _ => none

def layoutItems : Nat → Parser (List LayoutItem)
  | 0 => unfinished
  | n + 1 => do
    let start ← here
    match ← kind with
    | .identifier name =>
      advance
      let value ← layoutValue
      let item : LayoutItem := ⟨name, value, ← spanFrom start⟩
      if ← acceptMark .comma then return item :: (← layoutItems n)
      expectMark .rParen
      return [item]
    | _ => expected .layoutName
where
  layoutValue : Parser (Option String) := do
    if ← acceptMark .eq then
      match ← kind with
      | .intLiteral text =>
        advance
        return some text
      | _ => expected .layoutValue
    else return none

/-- The qualifiers read so far; `centroid` says that the word was among them. -/
structure QualifierRun where
  qualifiers : Qualifiers
  centroid : Bool

def qualifierRun : Nat → QualifierRun → Parser QualifierRun
  | 0, _ => unfinished
  | n + 1, run => do
    let k ← kind
    let q := run.qualifiers
    if let some s := storage? k then
      if q.storage.isSome then throw ⟨.storageRepeated, ← here⟩
      advance
      qualifierRun n { run with qualifiers := { q with storage := some s } }
    else if let some i := interpolation? k then
      advance
      qualifierRun n { run with qualifiers := { q with interpolation := some i } }
    else if let some p := precision? k then
      advance
      qualifierRun n { run with qualifiers := { q with precision := some p } }
    else if k = .keyword .centroidWord then
      advance
      qualifierRun n { run with centroid := true }
    else if k = .keyword .invariantWord then
      advance
      qualifierRun n { run with qualifiers := { q with invariant := true } }
    else if k = .keyword .layoutWord then
      advance
      expectMark .lParen
      let items ← layoutItems n
      qualifierRun n { run with qualifiers := { q with layout := q.layout ++ items } }
    else return run

/-- All qualifiers that stand here. Where there are none their span is empty. -/
def qualifiers (n : Nat) : Parser Qualifiers := do
  let start ← here
  let none : Qualifiers := ⟨.none, .none, false, .none, [], ⟨start.start, start.start⟩⟩
  if (← get).kind.startsQualifier then
    let run ← qualifierRun n ⟨none, false⟩
    let q := { run.qualifiers with span := ← spanFrom start }
    if run.centroid then
      match q.storage with
      | some .input => return { q with storage := some .centroidInput }
      | some .output => return { q with storage := some .centroidOutput }
      | _ => throw ⟨.centroidAlone, start⟩
    else return q
  else return none

end Parse

end Shader
