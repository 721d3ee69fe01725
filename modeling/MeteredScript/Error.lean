import MeteredScript.Token

namespace MeteredScript

/-! # Errors

What can go wrong, as causes. The wording of a cause is `message`, and `Error.text` is the line that
reports it.
-/

/-- Why a text is not a sequence of tokens. -/
inductive LexFault where
  | unknownChar
  | unterminatedString
  | unterminatedComment
  | unterminatedRegex
  | exponentNotInteger
  | exponentOutOfRange
  | invalidBinary
  | invalidOctal
deriving DecidableEq, Repr, Inhabited

/-- Why a sequence of tokens is not a program, or not one with an entry. -/
inductive ParseFault where
  | unexpected (token : Token)
  | endOfInput
  | regexNotSupported
  | nestedFunction
  | unterminatedBlock
  | assignmentTarget
  | updateTarget
  | expectedExpression
  | noFunction
deriving DecidableEq, Repr, Inhabited

/-- Why data is not within its range. -/
inductive RangeFault where
  | index (shown : String) (length : Nat)
  | cyclicArray
  | cyclicObject
deriving DecidableEq, Repr, Inhabited

/-- Why a name cannot be used so. -/
inductive ReferenceFault where
  | undefined (name : String)
  | readOnly (name : String)
  | notFunction
deriving DecidableEq, Repr, Inhabited

/-- Which limit of a run was exceeded. -/
inductive Exhaustion where
  | budget
  | stringLength (length limit : Nat)
deriving DecidableEq, Repr, Inhabited

/-- Why a call to the outside failed. -/
inductive CollaboratorFault where
  | tokenId
  | noTokenExecutor
  | noContractCaller
  | refused (reason : String)
deriving DecidableEq, Repr, Inhabited

/-- A failure, with the source range it points at where it has one. -/
inductive Error where
  | lex (fault : LexFault) (span : Span)
  | parse (fault : ParseFault) (span : Span)
  | range (fault : RangeFault) (span : Span)
  | reference (fault : ReferenceFault) (span : Span)
  | exhausted (cause : Exhaustion)
  | collaborator (fault : CollaboratorFault)
deriving DecidableEq, Repr, Inhabited

def LexFault.message : LexFault → String
  | unknownChar => "unknown char"
  | unterminatedString => "unterminated string"
  | unterminatedComment => "unterminated comment"
  | unterminatedRegex => "unterminated regex"
  | exponentNotInteger => "exponent must be integer"
  | exponentOutOfRange => "exponent out of range"
  | invalidBinary => "invalid binary"
  | invalidOctal => "invalid octal"

def ParseFault.message : ParseFault → String
  | unexpected token => "unexpected token '" ++ token.text ++ "'"
  | endOfInput => "unexpected token: end of input"
  | regexNotSupported => "regex literal is not supported"
  | nestedFunction => "function declaration is only allowed at top level"
  | unterminatedBlock => "unexpected token: unterminated block"
  | assignmentTarget => "invalid assignment target"
  | updateTarget => "invalid update target"
  | expectedExpression => "expected an expression"
  | noFunction => "no function declaration"

def RangeFault.message : RangeFault → String
  | index shown length => s!"out of range: index {shown} for length {length}"
  | cyclicArray => "cannot export a cyclic array"
  | cyclicObject => "cannot export a cyclic object"

def ReferenceFault.message : ReferenceFault → String
  | undefined name => s!"undefined identifier: {name}"
  | readOnly name => s!"cannot assign to read-only identifier: {name}"
  | notFunction => "entry is not a function"

def Exhaustion.message : Exhaustion → String
  | budget => "resource budget exhausted"
  | stringLength length limit => s!"string length {length} exceeds limit {limit}"

def CollaboratorFault.message : CollaboratorFault → String
  | tokenId => "executeToken: token id must be a number"
  | noTokenExecutor => "no token executor is configured"
  | noContractCaller => "no contract caller is configured"
  | refused reason => reason

namespace Error

/-- The name of the kind of failure. -/
def kind : Error → String
  | lex _ _ => "LexError"
  | parse _ _ => "ParseError"
  | range _ _ => "RangeError"
  | reference _ _ => "ReferenceError"
  | exhausted _ => "ResourceExhausted"
  | collaborator _ => "CollaboratorError"

def message : Error → String
  | lex fault _ => fault.message
  | parse fault _ => fault.message
  | range fault _ => fault.message
  | reference fault _ => fault.message
  | exhausted cause => cause.message
  | collaborator fault => fault.message

/-- The source range a failure points at. -/
def span? : Error → Option Span
  | lex _ span => some span
  | parse _ span => some span
  | range _ span => some span
  | reference _ span => some span
  | exhausted _ => none
  | collaborator _ => none

/-- The line that reports a failure. -/
def text (e : Error) : String :=
  match e.span? with
  | some span => s!"{e.kind} at {span.text}: {e.message}"
  | none => s!"{e.kind}: {e.message}"

end Error

/-- Why work stops before its end. -/
inductive Halt where
  | failed (error : Error)
  | crashed (crash : Crash)
  /-- It needed more levels of nesting or more rounds of a loop than it was given. -/
  | unfinished
deriving DecidableEq, Repr, Inhabited

/-- The line that reports why work stopped. -/
def Halt.text : Halt → String
  | failed error => error.text
  | crashed crash => crash.text
  | unfinished => "the run did not end"

end MeteredScript
