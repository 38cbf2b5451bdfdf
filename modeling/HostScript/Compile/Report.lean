import HostScript.Api.Search
import HostScript.Code.Opcode
import HostScript.Script.Reader

/-! What can be wrong with a script, and how it is said.

A `Problem` is the cause; its text is made in one place. Checking collects problems
in the order in which they are found. Some expressions are checked more than once,
so a problem already reported for the same place and in the same words is not
reported again. -/
namespace HostScript

inductive Problem where
  -- Files
  | relativePath (path : String)
  | unreadable
  | unexpectedText
  | literal (fault : Blemish)
  | importedTwice (path : String)
  | codeTooLarge (size : Nat)
  -- Declarations
  | inheritanceCycle (names : List String)
  | inheritanceDiamond (name : String)
  | missingType (type : Ty)
  | typeTaken (name : String)
  | functionTaken (signature : String) (owner : Option String)
  | propertyTaken (name : String) (owner : Option String)
  | subscriptTaken (index : Ty) (owner : String)
  | notAtTopLevel
  -- Variables
  | variableTaken (name : String)
  | variableHidesProperty (name : String)
  | variableType (type : Ty)
  | outOfMemory
  -- Actions
  | noEffect
  | breakOutsideLoop
  | continueOutsideLoop
  | readOnly
  | numericTarget
  | numericOrStringTarget
  | integralTarget
  -- Operators
  | unsignedNegation
  | negationOperand
  | complementOperand
  | additionOperands
  | numericOperands
  | integerOperands
  | coalesceOperand
  | mismatch (left right : Ty)
  | unrelatedBranches (left right : String) (common : List String)
  | untypedLiterals (p : Primitive)
  | divisionByZero
  | constantTooLarge
  -- Expressions
  | noExpectedType
  | wrongType (expected actual : Ty)
  | cast (error : CastError)
  | unrelatedPointers (target source : String)
  | primitiveToPointer (source target : Ty)
  | pointerToPrimitive (source : Ty)
  -- Members
  | unknownName (name : String)
  | unknownProperty (name owner : String)
  | unknownFunction (signature : String) (owner : Option String)
  | ambiguousCall (first second : String) (owner : Option String)
  | unknownSubscript (owner : String) (index : Ty)
  | ambiguousSubscript (owner : String) (first second : Ty)
  | memberOfNonPointer (type : Ty)
  | subscriptOfNonPointer (type : Ty)
  | tooManyArguments
  | untypedArgument
  | voidArgument
  deriving DecidableEq, Repr

namespace Problem

def quoted (name : String) : String := "'" ++ name ++ "'"

/-- The primitives that a literal without a kind could be cast to. -/
def candidates : Primitive → List Kind
  | .untypedInteger =>
    [.int .uint8, .int .uint16, .int .uint32, .int .uint64, .int .int8, .int .int16, .int .int32,
      .int .int64, .float .float32, .float .float64]
  | .untypedSigned =>
    [.int .int8, .int .int16, .int .int32, .int .int64, .float .float32, .float .float64]
  | _ => [.float .float32, .float .float64]

def branchAdvice (left right : String) : List String → String
  | [] => s!"There are no common ancestors for the types '{left}' and '{right}'."
  | common =>
    s!"The possible ancestor types for '{left}' and '{right}' are " ++
      ", ".intercalate (common.map quoted) ++ "."

def message : Problem → String
  | .relativePath path => s!"Path '{path}' must be specified as an absolute path."
  | .unreadable => "Unable to read script file."
  | .unexpectedText => "Syntax error"
  | .literal fault => fault.message
  | .importedTwice path => s!"File at path '{path}' exists more than once in the dependency graph."
  | .codeTooLarge size =>
    s!"Compiled bytecode is {size} bytes, which exceeds the {maxCodeSize} bytes a 16-bit cursor can address."
  | .inheritanceCycle names =>
    "Type inheritance forms a cycle: " ++ " -> ".intercalate (names ++ names.take 1) ++ "."
  | .inheritanceDiamond name =>
    s!"The type '{name}' is inherited more than once by the same type, " ++
      "forming an 'inheritance diamond'."
  | .missingType type => "Unable to find the type declaration for " ++ quoted type.name ++ "."
  | .typeTaken name => s!"Type name '{name}' conflicts with another type of the same name."
  | .functionTaken signature none =>
    s!"Function '{signature}' conflicts with another global function " ++
      "with the same name and parameters."
  | .functionTaken signature (some owner) =>
    s!"Function '{signature}' conflicts with another function with the same name and parameters " ++
      s!"in type '{owner}' or one of its parent types."
  | .propertyTaken name none =>
    s!"Property name '{name}' conflicts with another global property with the same name."
  | .propertyTaken name (some owner) =>
    s!"Property name '{name}' conflicts with another property with the same name " ++
      s!"in type '{owner}' or one of its parent types."
  | .subscriptTaken index owner =>
    "Subscript indexed by " ++ index.name ++
      s!" conflicts with another subscript in type '{owner}' or one of its parent types."
  | .notAtTopLevel => "Imports and API declarations can only appear at the top level of a file."
  | .variableTaken name =>
    s!"Variable '{name}' conflicts with a previously-declared variable of the same name."
  | .variableHidesProperty name =>
    s!"Variable with name '{name}' conflicts with global property of the same name."
  | .variableType type => "Variables cannot be of type " ++ type.name ++ "."
  | .outOfMemory => "Variables in this script exceed the memory a script can address."
  | .noEffect => "This expression has no effect."
  | .breakOutsideLoop => "Break statements can only be used within loops."
  | .continueOutsideLoop => "Continue statements can only be used within loops."
  | .readOnly => "Attempted to assign a value to a read-only expression."
  | .numericTarget => "This operator can only be used on numeric expressions."
  | .numericOrStringTarget => "This operator can only be used on numeric or string expressions."
  | .integralTarget => "This operator can only be used on integral expressions."
  | .unsignedNegation => "Unsigned integers cannot be negated."
  | .negationOperand => "Numeric negation can only be applied to numeric data types."
  | .complementOperand => "Bitwise negation can only be applied to integer data types."
  | .additionOperands =>
    "Both operands must be either string (concatenation) or numeric (addition)."
  | .numericOperands => "Both operands must be numeric."
  | .integerOperands => "Both operands must be integers."
  | .coalesceOperand =>
    "NULL coalescing operator can only be applied to expressions which return a pointer."
  | .mismatch left right =>
    "Type mismatch. Cannot combine " ++ left.name ++ " and " ++ right.name ++ " types in this way."
  | .unrelatedBranches left right common =>
    "The return type of this operator is ambiguous and cannot be determined. " ++
      "Expressions in both branches of the conditional must have a matching type. " ++
      branchAdvice left right common
  | .untypedLiterals p =>
    "This expression contains numeric literals whose type is ambiguous. " ++
      "An explicit cast must be added to distinguish between: " ++
      ", ".intercalate ((candidates p).map Kind.name) ++ "."
  | .divisionByZero => "Division by zero in a constant expression."
  | .constantTooLarge =>
    "The result of this constant expression is outside the range of a 64-bit integer."
  | .noExpectedType => "Internal compiler error. No concrete expected type for expression."
  | .wrongType expected actual =>
    "Expression is required to be of type " ++ expected.name ++ ", but was " ++ actual.name ++
      " instead."
  | .cast error => error.message
  | .unrelatedPointers target source =>
    "Cast attempted between incompatible pointers. " ++
      s!"The types '{target}' and '{source}' have no child/ancestor relationship."
  | .primitiveToPointer source target =>
    "Cannot cast primitive " ++ source.name ++ " type to pointer type " ++ target.name ++ "."
  | .pointerToPrimitive source =>
    "Pointer types, like " ++ source.name ++ ", can only be cast to other pointer types " ++
      "with a child/ancestor relationship or 'string'."
  | .unknownName name => s!"Unable to find a variable or global property named '{name}'."
  | .unknownProperty name owner => s!"Unable to find a '{name}' property on type '{owner}'."
  | .unknownFunction signature none => s!"Unable to find a global '{signature}' function."
  | .unknownFunction signature (some owner) =>
    s!"Unable to find a '{signature}' function on type '{owner}'."
  | .ambiguousCall first second owner =>
    "This function invocation is ambiguous between " ++
      (match owner with
        | none => s!"global functions '{first}' and '{second}'. "
        | some owner => s!"functions '{first}' and '{second}' in type '{owner}'. ") ++
      "This ambiguity might be resolved by renaming these APIs, or by adding a typecast " ++
      "to explicitly describe the type of any literal parameters."
  | .unknownSubscript owner index =>
    s!"Unable to find a subscript on type '{owner}' with an index parameter of type " ++
      index.name ++ "."
  | .ambiguousSubscript owner first second =>
    "This subscript invocation is ambiguous between index types " ++ quoted first.name ++ " and " ++
      quoted second.name ++ s!" in type '{owner}'. " ++
      "This ambiguity can be resolved by adding a typecast to explicitly describe the type " ++
      "of the index."
  | .memberOfNonPointer type => "The '.' operator " ++ nonPointer type
  | .subscriptOfNonPointer type => "The subscript operator " ++ nonPointer type
  | .tooManyArguments => "Function invocations are limited to 255 arguments."
  | .untypedArgument =>
    "Variadic parameters cannot be ambiguous literals. Add a typecast to specify the type."
  | .voidArgument => "Variadic parameters cannot be void expressions."
where
  nonPointer (type : Ty) : String :=
    "cannot be invoked on " ++ type.name ++ ", it can only be invoked on pointers."

end Problem

/-- A problem and where it is. -/
structure Report where
  span : Span
  problem : Problem
  deriving DecidableEq, Repr

/-- Reports in the order in which they were made. -/
abbrev Reports := Array Report

namespace Reports

/-- Whether the same was said of the same place before. -/
def mentions (reports : Reports) (span : Span) (problem : Problem) : Bool :=
  reports.any fun r => r.span = span && r.problem.message = problem.message

def add (reports : Reports) (span : Span) (problem : Problem) : Reports :=
  if reports.mentions span problem then reports else reports.push ⟨span, problem⟩

end Reports

/-- A computation that reports problems on the way. -/
abbrev Check := StateM Reports

namespace Check

def report (span : Span) (problem : Problem) : Check Unit := modify fun reports =>
  reports.add span problem

/-- Reports a problem in place of a result. -/
def refuse {α : Type} (span : Span) (problem : Problem) : Check (Option α) := do
  report span problem
  return none

/-- The result of a conversion, or a report of why there is none. -/
def converted (span : Span) : Except CastError Literal → Check (Option Literal)
  | .ok l => return some l
  | .error e => refuse span (.cast e)

end Check

end HostScript
