import RuleScan.Operator.Signature
import RuleScan.Token.Basic

/-!
# Errors

Every failure is a cause with the data its wording needs. Two questions about an
error steer the program: whether it spoils the loading of rules, and whether it is
*internal*, that is a sign of a rule set that cannot be evaluated rather than a
problem with one file.

## Main results

* `isInternal_value` — a fault of an operation on values is never internal.
* `not_isInternal_of_isLoadError` — loading problems and internal errors are disjoint.
-/

namespace RuleScan

/-- What is wrong with a rule source at some token. -/
inductive SyntaxProblem where
  | unterminatedComment
  | unexpectedCharacter
  | missingName
  | missingDigits
  | badNumber (cause : Text.DigitError)
  | unterminatedString
  | emptyCharacter
  | nonAsciiCharacter
  | unterminatedCharacter
  | unterminatedEscape
  | badHexEscape
  | octalTooLarge
  | unknownEscape (byte : UInt8)
  | expectedToken (kind : TokenKind)
  | expected (what : String)
  | cannotFold (cause : ValueError)
  | notConstant (what : String)
  | notCall
  | tooManyNodes (limit : Nat)
  | nestedTooDeeply
  | notByte
  | needsOffset (name : String)
  | needsOffsetAndLength (name : String)
  | unknownFunction (name : String)
  | wrongArity (name : String) (signature : Signature) (count : Nat)
  deriving DecidableEq, Repr

/-- The wording of a problem in a rule source. -/
def SyntaxProblem.message : SyntaxProblem → String
  | .unterminatedComment => "unterminated block comment"
  | .unexpectedCharacter => "unexpected character"
  | .missingName => "expected a name after '$'"
  | .missingDigits => "missing digits after radix prefix"
  | .badNumber cause => s!"invalid number literal: {cause.message}"
  | .unterminatedString => "unterminated string literal"
  | .emptyCharacter => "empty or unterminated character literal"
  | .nonAsciiCharacter => "character literal must be ASCII"
  | .unterminatedCharacter => "unterminated character literal"
  | .unterminatedEscape => "unterminated escape sequence"
  | .badHexEscape => "\\x escape needs two hex digits"
  | .octalTooLarge => "octal escape out of range"
  | .unknownEscape byte => "unknown escape '\\" ++ String.ofList [Char.ofNat byte.toNat] ++ "'"
  | .expectedToken kind => s!"expected '{kind.describe}'"
  | .expected what => s!"expected {what}"
  | .cannotFold cause => s!"cannot fold constant expression: {cause.message}"
  | .notConstant what => s!"{what} must be a constant"
  | .notCall => "an action must be a function call"
  | .tooManyNodes limit => s!"expression has more than {limit} nodes"
  | .nestedTooDeeply => "expression nested too deeply"
  | .notByte => "byte array element must be in 0..=255"
  | .needsOffset name => s!"{name} takes one offset argument"
  | .needsOffsetAndLength name => s!"{name} takes an offset and a length"
  | .unknownFunction name => s!"unknown function '{name}'"
  | .wrongArity name signature count =>
    s!"{name} expects {signature.print} arguments, got {count}"

/-- A problem at a token of a rule source that has yet to be named. -/
structure SyntaxError where
  position : Position
  token : String
  problem : SyntaxProblem
  deriving DecidableEq, Repr

/-- Why a file operation failed. -/
inductive FileFault where
  | notFound
  | alreadyExists
  | notDirectory
  | isDirectory
  | tooManyLinks
  | endedEarly
  | notText
  /-- Anything else that a system refuses, in its own words. -/
  | other (message : String)
  deriving DecidableEq, Repr

/-- The wording of a file fault, with the system's error number where it has one. -/
def FileFault.message : FileFault → String
  | .notFound => "No such file or directory (os error 2)"
  | .alreadyExists => "File exists (os error 17)"
  | .notDirectory => "Not a directory (os error 20)"
  | .isDirectory => "Is a directory (os error 21)"
  | .tooManyLinks => "Too many levels of symbolic links (os error 40)"
  | .endedEarly => "failed to fill whole buffer"
  | .notText => "stream did not contain valid UTF-8"
  | .other message => message

/-- A failure of loading, evaluating or scanning. -/
inductive Error where
  | malformed (source : String) (cause : SyntaxError)
  | duplicateVariable (rule name : String)
  | duplicateRule (id first second : String)
  | unknownParent (rule parent : String)
  | inheritanceCycle (rule : String)
  | unknownFunction (name : String)
  | ruleClosed (rule : String)
  | tooDeep (limit : Nat)
  | value (cause : ValueError)
  | unresolvedVariable (name : String)
  | invalidWidth (width : Nat)
  | operator (name message : String)
  | fileRead (path : String) (cause : FileFault)
  | fileWrite (path : String) (cause : FileFault)
  | directoryCreate (path : String) (cause : FileFault)
  | noOutputDirectory
  | depthExceeded (depth limit : Nat)
  | symlinkRejected (path : String)
  | circularDependency (name : String)
  | missingScope (name : String)
  | internal (message : String)
  deriving DecidableEq, Repr

namespace Error

/-- Some position or length does not exist. -/
def outOfRange (fault : RangeFault) : Error := .value (.outOfRange fault)

/-- Some value has the wrong kind. -/
def typeMismatch (fault : KindFault) : Error := .value (.typeMismatch fault)

/-- The wording of an error. -/
def message : Error → String
  | malformed source cause =>
    s!"{source}:{cause.position.line}:{cause.position.column}: " ++
      s!"{cause.problem.message} (at '{cause.token}')"
  | duplicateVariable rule name => s!"rule '{rule}' declares variable '{name}' more than once"
  | duplicateRule id first second =>
    s!"rule '{id}' is defined more than once (first in {first}, again in {second})"
  | unknownParent rule parent => s!"rule '{rule}' inherits from unknown rule '{parent}'"
  | inheritanceCycle rule => s!"rule '{rule}' is part of an inheritance cycle"
  | unknownFunction name => s!"unknown function '{name}'"
  | ruleClosed rule => s!"rule '{rule}' is closed and can no longer be modified"
  | tooDeep limit => s!"evaluation nested deeper than {limit} levels"
  | value cause => cause.message
  | unresolvedVariable name => s!"unresolved variable '{name}'"
  | invalidWidth width => s!"unsupported numeric width {width}"
  | operator name message => s!"{name}: {message}"
  | fileRead path cause => s!"failed to read file '{path}': {cause.message}"
  | fileWrite path cause => s!"failed to write file '{path}': {cause.message}"
  | directoryCreate path cause => s!"failed to create directory '{path}': {cause.message}"
  | noOutputDirectory => "no output directory configured"
  | depthExceeded depth limit => s!"depth {depth} exceeds maximum depth {limit}"
  | symlinkRejected path => s!"refusing to follow symlink '{path}'"
  | circularDependency name => s!"circular dependency while evaluating variable '{name}'"
  | missingScope name => s!"no active scope while resolving '{name}'"
  | internal message => s!"internal error: {message}"

/-- The failure beneath an error, for errors that report one. -/
def cause? : Error → Option String
  | fileRead _ cause | fileWrite _ cause | directoryCreate _ cause => some cause.message
  | _ => none

/-- Whether the error belongs to the loading of rules. -/
def isLoadError : Error → Bool
  | malformed .. | duplicateVariable .. | duplicateRule .. | unknownParent ..
  | inheritanceCycle .. | unknownFunction .. | ruleClosed .. => true
  | _ => false

/-- Whether the error shows that the rules cannot be evaluated as they stand. -/
def isInternal : Error → Bool
  | circularDependency .. | missingScope .. | invalidWidth .. | internal .. => true
  | _ => false

@[simp] theorem isInternal_value (cause : ValueError) : (value cause).isInternal = false := rfl

theorem not_isInternal_of_isLoadError {e : Error} (h : e.isLoadError) : e.isInternal = false := by
  cases e <;> simp_all [isLoadError, isInternal]

end Error

end RuleScan
