import Shader.Binding
import Shader.Literal
import Shader.Operator.Rule
import Shader.Scope
import Shader.Swizzle

/-! What binding and checking can complain about: every problem has a code and a message. -/

namespace Shader

/-- The classes of problems; the first seven are found while names are bound. -/
inductive Code where
  | duplicateDeclaration
  | unresolvedIdentifier
  | notAStruct
  | builtinRedefinition
  | notAVariable
  | nonConstantArraySize
  | invalidArraySize
  | operatorMismatch
  | typeMismatch
  | nonBoolCondition
  | invalidSwitchSelector
  | notAnLvalue
  | invalidIndex
  | indexOutOfRange
  | noMatchingOverload
  | qualifierMisuse
  | invalidSwizzle
  | noSuchField
  | invalidConstructor
  | returnMismatch
  | integerOverflow
  | malformedLiteral
  | notConstant
  | stageRestriction
  | invalidDeclaration
deriving DecidableEq, Repr

namespace Code

def all : List Code :=
  [duplicateDeclaration, unresolvedIdentifier, notAStruct, builtinRedefinition, notAVariable,
    nonConstantArraySize, invalidArraySize, operatorMismatch, typeMismatch, nonBoolCondition,
    invalidSwitchSelector, notAnLvalue, invalidIndex, indexOutOfRange, noMatchingOverload,
    qualifierMisuse, invalidSwizzle, noSuchField, invalidConstructor, returnMismatch,
    integerOverflow, malformedLiteral, notConstant, stageRestriction, invalidDeclaration]

def text : Code → String
  | duplicateDeclaration => "duplicate-declaration"
  | unresolvedIdentifier => "unresolved-identifier"
  | notAStruct => "not-a-struct"
  | builtinRedefinition => "builtin-redefinition"
  | notAVariable => "not-a-variable"
  | nonConstantArraySize => "non-constant-array-size"
  | invalidArraySize => "invalid-array-size"
  | operatorMismatch => "operator-mismatch"
  | typeMismatch => "type-mismatch"
  | nonBoolCondition => "non-bool-condition"
  | invalidSwitchSelector => "invalid-switch-selector"
  | notAnLvalue => "not-an-lvalue"
  | invalidIndex => "invalid-index"
  | indexOutOfRange => "index-out-of-range"
  | noMatchingOverload => "no-matching-overload"
  | qualifierMisuse => "qualifier-misuse"
  | invalidSwizzle => "invalid-swizzle"
  | noSuchField => "no-such-field"
  | invalidConstructor => "invalid-constructor"
  | returnMismatch => "return-mismatch"
  | integerOverflow => "integer-overflow"
  | malformedLiteral => "malformed-literal"
  | notConstant => "not-constant"
  | stageRestriction => "stage-restriction"
  | invalidDeclaration => "invalid-declaration"

/-- The problem concerns what names mean. -/
def isBinding : Code → Bool
  | duplicateDeclaration | unresolvedIdentifier | notAStruct | builtinRedefinition | notAVariable
  | nonConstantArraySize | invalidArraySize => true
  | _ => false

end Code

def LiteralError.code : LiteralError → Code
  | overflow _ => .integerOverflow
  | invalidDigit _ _ | noDigits _ => .malformedLiteral

inductive BindProblem where
  | duplicate (d : Duplicate)
  | arrayOfArrays (name : String)
  | sizeUnknown (name : String)
  | sizeNotConstant
  | sizeNotPositive (size : Constant)
  | sizeRequired (name : String)
  | notAType (name : String) (what : Binding)
  | unknownType (name : String)
  | structInMembers (tag : Option String)
  | duplicateMember (name : String)
  | builtinRedefined (name : String)
  | resultChanged (name : String)
  | bodyRepeated (name : String)
  | declaredAs (name : String) (what : Binding)
  | notAVariable (name : String) (what : Binding)
  | undeclared (name : String)
  | variableCalled (name : String)
  | unknownCallee (name : String)
deriving Repr

namespace BindProblem

def code : BindProblem → Code
  | duplicate _ | duplicateMember _ | resultChanged _ | bodyRepeated _ | declaredAs _ _ =>
    .duplicateDeclaration
  | arrayOfArrays _ | structInMembers _ => .invalidDeclaration
  | sizeUnknown _ | sizeNotPositive _ | sizeRequired _ => .invalidArraySize
  | sizeNotConstant => .nonConstantArraySize
  | notAType _ _ | variableCalled _ => .notAStruct
  | unknownType _ | undeclared _ | unknownCallee _ => .unresolvedIdentifier
  | builtinRedefined _ => .builtinRedefinition
  | notAVariable _ _ => .notAVariable

def message : BindProblem → String
  | duplicate d => d.message
  | arrayOfArrays x => s!"'{x}' cannot be an array of arrays"
  | sizeUnknown x => s!"array '{x}' needs an explicit size or an array initializer"
  | sizeNotConstant => "array size must be a constant integer expression"
  | sizeNotPositive size =>
    let text := size.text.toOption.getD ""
    s!"array size must be a positive integer, found {text}"
  | sizeRequired x => s!"array '{x}' must have an explicit size"
  | notAType x b => s!"'{x}' is a {b.describe}, not a type"
  | unknownType x => s!"unknown type '{x}'"
  | structInMembers tag =>
    let name := tag.getD "anonymous struct"
    s!"struct '{name}' cannot be defined inside a member list"
  | duplicateMember x => s!"duplicate member '{x}'"
  | builtinRedefined x => s!"cannot redefine or overload builtin function '{x}'"
  | resultChanged x => s!"function '{x}' redeclared with a different return type"
  | bodyRepeated x => s!"function '{x}' already has a body"
  | declaredAs x b => s!"'{x}' is already declared as a {b.describe}"
  | notAVariable x b => s!"'{x}' is a {b.describe}, not a variable"
  | undeclared x => s!"undeclared identifier '{x}'"
  | variableCalled x => s!"'{x}' is a variable, not a function or type"
  | unknownCallee x => s!"no function or type named '{x}'"

end BindProblem

inductive NotAssignable where
  | uniform (name : String)
  | input (name : String)
  | const (name : String)
  | repeated (swizzle : String)
  | noPlace
deriving DecidableEq, Repr

def NotAssignable.message : NotAssignable → String
  | uniform x => s!"'{x}' is a uniform"
  | input x => s!"'{x}' is a shader input"
  | const x => s!"'{x}' is const"
  | repeated swizzle => s!"swizzle '{swizzle}' repeats a component"
  | noPlace => "expression is not a variable, field or element"

inductive ConstructorProblem where
  | conversion (arg ty : Ty)
  | singleArgument (ty : Ty) (got : Nat)
  | noArguments (ty : Ty)
  | unusable (arg ty : Ty)
  | matrixNotAlone
  | tooFew (ty : Ty) (needed supplied : Nat)
  | tooMany (ty : Ty)
  | argumentCount (ty : Ty) (expected got : Nat)
  | fieldType (field : String) (ty expected got : Ty)
  | elementType (ty expected got : Ty)
  | notConstructible (ty : Ty)
deriving DecidableEq, Repr

def ConstructorProblem.message : ConstructorProblem → String
  | conversion a t => s!"cannot convert '{a.text}' to '{t.text}'"
  | singleArgument t got => s!"'{t.text}' constructor takes exactly one argument, got {got}"
  | noArguments t => s!"'{t.text}' constructor needs arguments"
  | unusable a t => s!"'{a.text}' cannot be used to construct '{t.text}'"
  | matrixNotAlone => "a matrix argument must be the only argument of a matrix constructor"
  | tooFew t needed supplied =>
    s!"not enough components to construct '{t.text}': need {needed}, got {supplied}"
  | tooMany t => s!"too many arguments to construct '{t.text}'"
  | argumentCount t expected got =>
    s!"'{t.text}' constructor takes {expected} arguments, got {got}"
  | fieldType field t expected got =>
    s!"field '{field}' of '{t.text}' expects '{expected.text}', got '{got.text}'"
  | elementType t expected got =>
    s!"'{t.text}' elements must be '{expected.text}', got '{got.text}'"
  | notConstructible t => s!"cannot construct a value of type '{t.text}'"

inductive Container where
  | struct
  | uniformBlock
deriving DecidableEq, Repr

def Container.text : Container → String
  | struct => "struct"
  | uniformBlock => "uniform block"

inductive DeclProblem where
  | defaultPrecision
  | invariantNested
  | notInvariant (name : String)
  | voidMember (container : Container)
  | inoutMisplaced
  | notGlobal (storage : Storage)
  | interpolationMisplaced
  | layoutMisplaced
  | invariantMisplaced
  | centroidInput
  | centroidOutput
  | vertexInput (name : String)
  | fragmentOutput (name : String)
  | declaresNothing
  | voidVariable (name : String)
  | samplerNotUniform (name : String)
  | initializerForbidden (storage : Storage)
  | initializerType (name : String) (declared got : Ty)
  | initializerNotConstant (name : String)
  | constUninitialized (name : String)
  | resultQualified
  | parameterQualifiers
  | voidParameter
  | samplerOutput
  | mainSignature
  | blockNotUniform (name : String)
  | blockMemberQualifiers
  | blockMemberType (ty : Ty)
deriving DecidableEq, Repr

namespace DeclProblem

def code : DeclProblem → Code
  | voidMember _ | declaresNothing | voidVariable _ | voidParameter | mainSignature
  | blockMemberType _ => .invalidDeclaration
  | centroidInput | centroidOutput | vertexInput _ | fragmentOutput _ => .stageRestriction
  | initializerType _ _ _ => .typeMismatch
  | initializerNotConstant _ | constUninitialized _ => .notConstant
  | _ => .qualifierMisuse

def message : DeclProblem → String
  | defaultPrecision => "default precision can only be set for int, float and sampler types"
  | invariantNested => "invariant redeclarations are only allowed at global scope"
  | notInvariant x => s!"'{x}' is not a shader output and cannot be invariant"
  | voidMember c => s!"{c.text} members cannot be void"
  | inoutMisplaced => "'inout' is only allowed on function parameters"
  | notGlobal s => s!"'{s.text}' is only allowed at global scope"
  | interpolationMisplaced => "interpolation qualifiers require 'in' or 'out'"
  | layoutMisplaced => "layout qualifiers are only allowed on in, out and uniform declarations"
  | invariantMisplaced => "'invariant' is only allowed on global shader outputs"
  | centroidInput => "'centroid in' is not allowed in vertex shaders"
  | centroidOutput => "'centroid out' is not allowed in fragment shaders"
  | vertexInput x => s!"vertex input '{x}' cannot be a bool, array or struct"
  | fragmentOutput x => s!"fragment output '{x}' cannot be a bool, matrix, struct or sampler"
  | declaresNothing => "declaration declares nothing"
  | voidVariable x => s!"variable '{x}' cannot be void"
  | samplerNotUniform x => s!"sampler variable '{x}' must be declared uniform"
  | initializerForbidden s => s!"'{s.text}' variables cannot have initializers"
  | initializerType x declared got =>
    s!"cannot initialize '{x}' of type '{declared.text}' with '{got.text}'"
  | initializerNotConstant x => s!"initializer of const '{x}' is not a constant expression"
  | constUninitialized x => s!"const variable '{x}' must be initialized"
  | resultQualified => "function return types cannot have storage qualifiers"
  | parameterQualifiers => "parameters only accept const, in, out, inout and precision qualifiers"
  | voidParameter => "parameters cannot be void"
  | samplerOutput => "sampler parameters cannot be out or inout"
  | mainSignature => "'main' must be declared as 'void main()'"
  | blockNotUniform x => s!"interface block '{x}' must be a uniform block"
  | blockMemberQualifiers =>
    "uniform block members only accept the uniform and precision qualifiers"
  | blockMemberType t => s!"uniform block members cannot have type '{t.text}'"

end DeclProblem

inductive StmtProblem where
  | conditionNotBool (ty : Ty)
  | selectorNotInteger (ty : Ty)
  | caseOutside
  | caseNotConstant
  | caseType (ty : Ty)
  | discardInVertex
  | valueFromVoid
  | valueMissing (expected : Ty)
  | resultType (actual expected : Ty)
deriving DecidableEq, Repr

namespace StmtProblem

def code : StmtProblem → Code
  | conditionNotBool _ => .nonBoolCondition
  | selectorNotInteger _ => .invalidSwitchSelector
  | caseOutside => .invalidDeclaration
  | caseNotConstant => .notConstant
  | caseType _ => .typeMismatch
  | discardInVertex => .stageRestriction
  | valueFromVoid | valueMissing _ | resultType _ _ => .returnMismatch

def message : StmtProblem → String
  | conditionNotBool t => s!"condition must be a bool, found '{t.text}'"
  | selectorNotInteger t => s!"switch selector must be an int or uint, found '{t.text}'"
  | caseOutside => "case label outside of a switch"
  | caseNotConstant => "case label must be a constant expression"
  | caseType t => s!"case label of type '{t.text}' does not match the switch selector"
  | discardInVertex => "'discard' is only allowed in fragment shaders"
  | valueFromVoid => "a void function cannot return a value"
  | valueMissing t => s!"function must return a value of type '{t.text}'"
  | resultType actual expected =>
    s!"returning '{actual.text}' from a function declared to return '{expected.text}'"

end StmtProblem

inductive ExprProblem where
  | literal (e : LiteralError)
  | unary (op : UnaryOp) (ty : Ty)
  | update (op : UpdateOp) (ty : Ty)
  | assignType (value target : Ty)
  | storeBack (op : AssignOp) (target value result : Ty)
  | branches (whenTrue whenFalse : Ty)
  | noOperator (op : BinaryOp) (left right : Ty)
  /-- `operation` is the text of the operator. -/
  | notAssignable (operation : String) (why : NotAssignable)
  | noOverload (f : Function) (given : List Ty)
  | outArgument (function : String) (why : NotAssignable)
  | fragmentOnly (function : String)
  | constructor (p : ConstructorProblem)
  | swizzle (p : Swizzle.Problem)
  | noField (ty : Ty) (field : String)
  | scalarSwizzle (ty : Ty)
  | noFields (ty : Ty)
  | noLength (ty : Ty)
  | indexType (ty : Ty)
  | notIndexable (ty : Ty)
  | indexRange (index : Int) (ty : Ty)
  | outputIndex
  | samplerIndex
deriving Repr

namespace ExprProblem

def code : ExprProblem → Code
  | literal e => e.code
  | unary _ _ | update _ _ | storeBack _ _ _ _ | noOperator _ _ _ => .operatorMismatch
  | assignType _ _ | branches _ _ => .typeMismatch
  | notAssignable _ _ | outArgument _ _ => .notAnLvalue
  | noOverload _ _ => .noMatchingOverload
  | fragmentOnly _ => .stageRestriction
  | constructor _ => .invalidConstructor
  | swizzle _ | scalarSwizzle _ => .invalidSwizzle
  | noField _ _ | noFields _ | noLength _ => .noSuchField
  | indexType _ | notIndexable _ => .invalidIndex
  | indexRange _ _ => .indexOutOfRange
  | outputIndex | samplerIndex => .notConstant

def signatureText (op : BinaryOp) : String :=
  ", ".intercalate (op.signatures.map fun s =>
    s!"{s.left.name} {op.text} {s.right.name} -> {s.result.name}")

def message : ExprProblem → String
  | literal e => e.message
  | unary op t => s!"unary '{op.text}' cannot be applied to '{t.text}'"
  | update op t => s!"'{op.text}' cannot be applied to '{t.text}'"
  | assignType value target => s!"cannot assign '{value.text}' to '{target.text}'"
  | storeBack op target value result =>
    s!"'{op.text}' of '{target.text}' and '{value.text}' yields '{result.text}', "
      ++ "which cannot be stored back"
  | branches a b => s!"ternary branches have different types: '{a.text}' and '{b.text}'"
  | noOperator op l r =>
    s!"no operator '{op.text}' for '{l.text}' and '{r.text}'; valid signatures: "
      ++ signatureText op
  | notAssignable operation why => s!"operand of '{operation}' is not assignable: {why.message}"
  | noOverload f given =>
    let types := ", ".intercalate (given.map Ty.text)
    let candidates := ", ".intercalate (f.overloads.map fun o => o.signature f.name)
    s!"no overload of '{f.name}' accepts ({types}); candidates: {candidates}"
  | outArgument f why =>
    s!"argument to an out parameter of '{f}' is not assignable: {why.message}"
  | fragmentOnly f => s!"'{f}' is only available in fragment shaders"
  | constructor p => p.message
  | swizzle p => p.message
  | noField t field => s!"'{t.text}' has no field '{field}'"
  | scalarSwizzle t => s!"scalar '{t.text}' cannot be swizzled"
  | noFields t => s!"'{t.text}' has no fields"
  | noLength t => s!"length() requires a sized array, vector or matrix, found '{t.text}'"
  | indexType t => s!"index must be an int or uint, found '{t.text}'"
  | notIndexable t => s!"'{t.text}' cannot be indexed"
  | indexRange i t => s!"index {i} is out of range for '{t.text}'"
  | outputIndex => "fragment output arrays must be indexed with a constant expression"
  | samplerIndex => "sampler arrays must be indexed with a constant expression"

end ExprProblem

inductive Problem where
  | bind (p : BindProblem)
  | decl (p : DeclProblem)
  | stmt (p : StmtProblem)
  | expr (p : ExprProblem)
deriving Repr

namespace Problem

def code : Problem → Code
  | bind p => p.code
  | decl p => p.code
  | stmt p => p.code
  | expr p => p.code

def message : Problem → String
  | bind p => p.message
  | decl p => p.message
  | stmt p => p.message
  | expr p => p.message

end Problem

structure Diagnostic where
  span : Span
  problem : Problem
deriving Repr

namespace Diagnostic

def code (d : Diagnostic) : Code :=
  d.problem.code

def message (d : Diagnostic) : String :=
  d.problem.message

end Diagnostic

end Shader
