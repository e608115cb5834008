import Shader.Analysis
import Shader.Report

/-! The command line: its arguments, and what a run says and returns. -/

namespace Shader

namespace CommandLine

/-- The stage that is asked for; `auto` goes by the extension of each file. -/
inductive StageChoice where
  | fixed (stage : Stage)
  | auto
deriving DecidableEq, Repr

def StageChoice.ofText? : String → Option StageChoice
  | "auto" => some .auto
  | text => (Stage.ofName? text).map .fixed

structure Options where
  inputs : List String
  stage : Option StageChoice
  verbose : Bool
  dumpTree : Bool
deriving Repr

def Options.none : Options :=
  ⟨[], Option.none, false, false⟩

inductive ArgumentError where
  | noInputs
  | unexpected (argument : String)
  | noValue
  | badStage (value : String)
  | repeated (option : String)
deriving DecidableEq, Repr

def ArgumentError.message : ArgumentError → String
  | noInputs => "the following required arguments were not provided:"
  | unexpected a => s!"unexpected argument '{a}' found"
  | noValue => "a value is required for '--stage <STAGE>' but none was supplied"
  | badStage v => s!"invalid value '{v}' for '--stage <STAGE>'"
  | repeated o => s!"the argument '{o}' cannot be used multiple times"

inductive Request where
  | check (options : Options)
  | version
  | help

def setStage (o : Options) (value : String) : Except ArgumentError Options :=
  match o.stage, StageChoice.ofText? value with
  | some _, _ => .error (.repeated "--stage <STAGE>")
  | none, some choice => .ok { o with stage := some choice }
  | none, none => .error (.badStage value)

def setVerbose (o : Options) : Except ArgumentError Options :=
  if o.verbose then .error (.repeated "--verbose") else .ok { o with verbose := true }

def setDumpTree (o : Options) : Except ArgumentError Options :=
  if o.dumpTree then .error (.repeated "--dump-ast") else .ok { o with dumpTree := true }

inductive Step where
  | done (o : Options)
  /-- The next argument is the stage. -/
  | wantsStage (o : Options)
  | finish (r : Request)

def shortOptions : List Char → Options → Except ArgumentError Step
  | [], o => .ok (.done o)
  | 'v' :: cs, o => do shortOptions cs (← setVerbose o)
  | 'V' :: _, _ => .ok (.finish .version)
  | 'h' :: _, _ => .ok (.finish .help)
  | ['s'], o => .ok (.wantsStage o)
  | 's' :: '=' :: cs, o => do return .done (← setStage o (String.ofList cs))
  | 's' :: cs, o => do return .done (← setStage o (String.ofList cs))
  | c :: _, _ => .error (.unexpected s!"-{c}")

def longOption (text : String) (o : Options) : Except ArgumentError Step :=
  match text with
  | "--verbose" => return .done (← setVerbose o)
  | "--dump-ast" => return .done (← setDumpTree o)
  | "--version" => .ok (.finish .version)
  | "--help" => .ok (.finish .help)
  | "--stage" => .ok (.wantsStage o)
  | _ =>
    let stageMark := "--stage="
    if text.startsWith stageMark then do
      return .done (← setStage o (text.drop stageMark.length).toString)
    else .error (.unexpected text)

def argument (text : String) (o : Options) : Except ArgumentError Step :=
  match text.toList with
  | '-' :: '-' :: _ => longOption text o
  | '-' :: c :: cs => shortOptions (c :: cs) o
  | _ => .ok (.done { o with inputs := o.inputs ++ [text] })

/-- Reads arguments from left to right; after `--` all are inputs. -/
def readFrom : List String → Options → Except ArgumentError Request
  | [], o => if o.inputs.isEmpty then .error .noInputs else .ok (.check o)
  | "--" :: rest, o =>
    let o := { o with inputs := o.inputs ++ rest }
    if o.inputs.isEmpty then .error .noInputs else .ok (.check o)
  | text :: rest, o => do
    match ← argument text o with
    | .done o => readFrom rest o
    | .finish r => return r
    | .wantsStage o =>
      match rest with
      | value :: rest => readFrom rest (← setStage o value)
      | [] => .error .noValue

def pathParts (path : String) : List String :=
  (path.splitOn "/").filter fun p => p ≠ "" && p ≠ "."

/-- What follows the last dot of a file name; a dot at its start does not count. -/
def extension? (path : String) : Option String :=
  match (pathParts path).getLast? with
  | none => none
  | some name =>
    if name = ".." then none
    else
      match (name.splitOn ".").reverse with
      | last :: before => if before.all (· = "") && before.length ≤ 1 then none else some last
      | [] => none

/-- The stage of an input, and whether it is only assumed. -/
def stageOf (choice : StageChoice) (path : String) : Stage × Bool :=
  match choice with
  | .fixed s => (s, false)
  | .auto =>
    let s := ((extension? path).map Stage.ofExtension).getD .any
    (s, s = .any)

inductive Notice where
  | line (text : String)
  | report (r : Rendered)
  | tree (unit : TranslationUnit)

/-- What a run says on the error stream and on the output, and its exit code. -/
structure Run where
  exit : Nat
  notices : List Notice
  output : String

/-- A file that was read, or why it could not be. -/
abbrev Reader := String → Except String String

def problemNotices (file : SourceFile) (problems : List Diagnostic) : List Notice :=
  problems.filterMap fun d => ((Report.ofDiagnostic d).render? [file] 0).map .report

def checkFile (o : Options) (stage : Stage) (file : SourceFile) : Bool × List Notice :=
  let opening :=
    if o.verbose then [Notice.line s!"Checking {file.name} ({stage.name} stage)..."] else []
  match analyze file.source stage with
  | .error e =>
    let report := (Report.ofFailure (.ofSource e)).render? [file] 0
    (false, opening ++ (report.map Notice.report).toList)
  | .ok a =>
    let tree := if o.dumpTree then [Notice.tree a.unit] else []
    let closing :=
      if o.verbose then [Notice.line s!"{file.name}: {a.problems.length} diagnostic(s)"] else []
    (a.isClean, opening ++ tree ++ problemNotices file a.problems ++ closing)

/-- Checks the inputs one after another; a file that cannot be read ends the run. -/
def checkInputs (o : Options) (read : Reader) : List String → (clean : Bool) → Run
  | [], clean => ⟨if clean then 0 else 1, [], ""⟩
  | path :: rest, clean =>
    let (stage, assumed) := stageOf (o.stage.getD .auto) path
    let warning :=
      if assumed then
        [Notice.line (s!"warning: cannot detect stage of {path}, "
          ++ "checking stage-independent rules only")]
      else []
    match read path with
    | .error why => ⟨2, warning ++ [.line s!"error: cannot read {path}: {why}"], ""⟩
    | .ok source =>
      let (ok, notices) := checkFile o stage ⟨path, source⟩
      let later := checkInputs o read rest (clean && ok)
      { later with notices := warning ++ notices ++ later.notices }

def versionText : String :=
  "glslc 0.1.0\n"

def helpText : String :=
  "Usage: glslc [OPTIONS] <INPUTS>...\n"

def inputs (args : List String) : List String :=
  match readFrom args .none with
  | .ok (.check o) => o.inputs
  | _ => []

def run (args : List String) (read : Reader) : Run :=
  match readFrom args .none with
  | .error e => ⟨2, [.line s!"error: {e.message}"], ""⟩
  | .ok .version => ⟨0, [], versionText⟩
  | .ok .help => ⟨0, [], helpText⟩
  | .ok (.check o) => checkInputs o read o.inputs true

end CommandLine

end Shader
