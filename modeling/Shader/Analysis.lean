import Shader.Bind
import Shader.Check
import Shader.Parse

/-! From source text to a checked unit. -/

namespace Shader

/-- A unit with all annotations and everything that is wrong with it. -/
structure Analysis where
  unit : TranslationUnit
  /-- By where they start; of those that start together, the ones about names come first. -/
  problems : List Diagnostic

def Analysis.isClean (a : Analysis) : Bool :=
  a.problems.isEmpty

/-- In source order. The sort is stable. -/
def sortProblems (problems : List Diagnostic) : List Diagnostic :=
  problems.mergeSort fun a b => a.span.start ≤ b.span.start

def analyzeUnit (unit : TranslationUnit) (stage : Stage) : Analysis :=
  let bound := bind unit
  let checked := check stage bound.unit
  ⟨checked.value, sortProblems (bound.problems ++ checked.problems)⟩

def analyze (source : String) (stage : Stage) : Except SourceError Analysis := do
  let unit ← parse source
  return analyzeUnit unit stage

theorem analyze_eq_ok {source : String} {stage : Stage} {a : Analysis}
    (h : analyze source stage = .ok a) :
    ∃ unit, parse source = .ok unit ∧ a = analyzeUnit unit stage := by
  cases hparse : parse source with
  | error e =>
    simp only [analyze, hparse] at h
    cases h
  | ok unit =>
    simp only [analyze, hparse] at h
    exact ⟨unit, rfl, (Except.ok.inj h).symm⟩

end Shader
