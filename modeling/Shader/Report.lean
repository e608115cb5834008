import Shader.Parse
import Shader.Problem

/-! Reports: what a user is told about a failure or a problem, and where. -/

namespace Shader

/-- Why a file could not be checked at all. -/
inductive Failure where
  | lexical (message : String) (span : Span)
  | syntactic (message : String) (span : Span)
  | io (message : String)
deriving DecidableEq, Repr

namespace Failure

def ofSource : SourceError → Failure
  | .lexical e => lexical e.message e.span
  | .syntactic e => syntactic e.message e.span

def span? : Failure → Option Span
  | lexical _ s | syntactic _ s => some s
  | io _ => none

def text : Failure → String
  | lexical m s => s!"Lexer error at {s.text}: {m}"
  | syntactic m s => s!"Parser error at {s.text}: {m}"
  | io m => s!"IO error: {m}"

end Failure

def problemText (code : Code) (message : String) : String :=
  s!"[{code.text}] {message}"

/-- A message with a title; `label` is what it says about a place in the source. -/
structure Report where
  title : String
  code : Option Code
  label : Option (Span × String)

namespace Report

def ofFailure : Failure → Report
  | .lexical m s => ⟨"Lexer error", none, some (s, m)⟩
  | .syntactic m s => ⟨"Syntax error", none, some (s, m)⟩
  | .io m => ⟨s!"IO error: {m}", none, none⟩

def ofProblem (code : Code) (message : String) (span : Span) : Report :=
  ⟨if code.isBinding then "Binding error" else "Semantic error", some code, some (span, message)⟩

def ofDiagnostic (d : Diagnostic) : Report :=
  ofProblem d.code d.message d.span

def heading (r : Report) : String :=
  match r.code with
  | some c => s!"error[{c.text}]: {r.title}"
  | none => s!"error: {r.title}"

end Report

structure SourceFile where
  name : String
  source : String

/-- Where a span of a file starts, with columns counted in characters. -/
def SourceFile.location (f : SourceFile) (span : Span) : String :=
  let (line, column) := span.lineCharacter f.source
  s!"{f.name}:{line}:{column}"

structure Rendered where
  heading : String
  /-- The location, and what there is to say about it. -/
  place : Option (String × String)

/-- Renders a report against file number `id`. A report about a place needs the file to exist. -/
def Report.render? (r : Report) (files : List SourceFile) (id : Nat) : Option Rendered :=
  match r.label with
  | none => some ⟨r.heading, none⟩
  | some (span, message) =>
    files[id]?.map fun f => ⟨r.heading, some (f.location span, message)⟩

end Shader
