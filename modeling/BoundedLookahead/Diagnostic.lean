import BoundedLookahead.Expansion

/-!
# Diagnostics

A diagnostic reports a problem of the grammar: what kind of problem, in which
production, where, and in words. Its severity follows from its kind. Structural
kinds keep the lookahead analysis away from the production they occur in.
-/

namespace BoundedLookahead

/-- How bad a problem is. -/
inductive Severity where
  /-- The grammar cannot be used as it is. -/
  | error
  /-- The grammar can be used but may not mean what was intended. -/
  | warning
deriving DecidableEq

/-- The word for the severity. -/
def Severity.text : Severity → String
  | .error => "error"
  | .warning => "warning"

/-- What is wrong. -/
inductive DiagnosticKind where
  /-- A call of a production that is not defined. -/
  | undefinedProduction
  /-- A token that is not declared. -/
  | undefinedToken
  /-- A second definition of a production. -/
  | duplicateProduction
  /-- A call with the wrong number of arguments. -/
  | arityMismatch
  /-- A start production that is not defined. -/
  | undefinedStart
  /-- A semantic predicate where predicates are not allowed. -/
  | semanticLookaheadDisabled
  /-- A production that reaches itself without consuming a token. -/
  | leftRecursion
  /-- A repeated body that can match nothing. -/
  | emptyRepetition
  /-- A production that the start never reaches. -/
  | unreachableProduction
  /-- An optional body that can match nothing. -/
  | emptyOptional
  /-- A lookahead directive that steers no decision. -/
  | misplacedLookahead
  /-- Two alternatives that the depth does not tell apart. -/
  | ambiguity
  /-- A body that can begin like what follows its loop. -/
  | loopConflict
  /-- An alternative behind one that always applies. -/
  | unreachableAlternative
  /-- A guard that lets pass what cannot begin its alternative. -/
  | guardContradiction
deriving DecidableEq

namespace DiagnosticKind

/-- Every kind. -/
def all : List DiagnosticKind :=
  [.undefinedProduction, .undefinedToken, .duplicateProduction, .arityMismatch, .undefinedStart,
    .semanticLookaheadDisabled, .leftRecursion, .emptyRepetition, .unreachableProduction,
    .emptyOptional, .misplacedLookahead, .ambiguity, .loopConflict, .unreachableAlternative,
    .guardContradiction]

/-- The name of the kind. -/
def name : DiagnosticKind → String
  | .undefinedProduction => "UndefinedProduction"
  | .undefinedToken => "UndefinedToken"
  | .duplicateProduction => "DuplicateProduction"
  | .arityMismatch => "ArityMismatch"
  | .undefinedStart => "UndefinedStart"
  | .semanticLookaheadDisabled => "SemanticLookaheadDisabled"
  | .leftRecursion => "LeftRecursion"
  | .emptyRepetition => "EmptyRepetition"
  | .unreachableProduction => "UnreachableProduction"
  | .emptyOptional => "EmptyOptional"
  | .misplacedLookahead => "MisplacedLookahead"
  | .ambiguity => "Ambiguity"
  | .loopConflict => "LoopConflict"
  | .unreachableAlternative => "UnreachableAlternative"
  | .guardContradiction => "GuardContradiction"

/-- The kind with the given name. -/
def ofName? (name : String) : Option DiagnosticKind := all.find? fun kind => kind.name == name

/-- The severity of every problem of the kind. -/
def severity : DiagnosticKind → Severity
  | .undefinedProduction | .undefinedToken | .duplicateProduction | .arityMismatch
  | .undefinedStart | .semanticLookaheadDisabled | .leftRecursion | .emptyRepetition => .error
  | .unreachableProduction | .emptyOptional | .misplacedLookahead | .ambiguity | .loopConflict
  | .unreachableAlternative | .guardContradiction => .warning

/-- Whether the problem keeps the lookahead analysis away from its production. -/
def isStructural : DiagnosticKind → Bool
  | .undefinedProduction | .undefinedToken | .duplicateProduction | .arityMismatch
  | .semanticLookaheadDisabled => true
  | .undefinedStart | .leftRecursion | .emptyRepetition | .unreachableProduction | .emptyOptional
  | .misplacedLookahead | .ambiguity | .loopConflict | .unreachableAlternative
  | .guardContradiction => false

end DiagnosticKind

/-- One reported problem. -/
structure Diagnostic where
  /-- What is wrong. -/
  kind : DiagnosticKind
  /-- The production it was found in. -/
  production : String
  /-- Where it was found. -/
  location : Location
  /-- What is wrong, in words. -/
  message : String
deriving DecidableEq

namespace Diagnostic

/-- The severity of the problem. -/
def severity (diagnostic : Diagnostic) : Severity := diagnostic.kind.severity

/-- Whether the problem is an error. -/
def isError (diagnostic : Diagnostic) : Bool := diagnostic.severity == .error

/-- The problem on one line. -/
def text (diagnostic : Diagnostic) : String :=
  s!"{diagnostic.severity.text}[{diagnostic.production} @ {diagnostic.location.text}]: " ++
    diagnostic.message

end Diagnostic

/-- Diagnostics in the order in which they were reported. -/
structure Diagnostics where
  /-- The reported problems. -/
  items : List Diagnostic := []
deriving DecidableEq

namespace Diagnostics

/-- Report one more problem. -/
def push (diagnostics : Diagnostics) (diagnostic : Diagnostic) : Diagnostics :=
  ⟨diagnostics.items ++ [diagnostic]⟩

/-- Report all problems of another collection after one's own. -/
def append (diagnostics others : Diagnostics) : Diagnostics := ⟨diagnostics.items ++ others.items⟩

instance : Append Diagnostics := ⟨append⟩

/-- How many problems were reported. -/
def size (diagnostics : Diagnostics) : Nat := diagnostics.items.length

/-- Whether nothing was reported. -/
def isEmpty (diagnostics : Diagnostics) : Bool := diagnostics.items.isEmpty

/-- The reported errors. -/
def errors (diagnostics : Diagnostics) : List Diagnostic := diagnostics.items.filter (·.isError)

/-- The reported warnings. -/
def warnings (diagnostics : Diagnostics) : List Diagnostic :=
  diagnostics.items.filter fun diagnostic => !diagnostic.isError

/-- Whether some reported problem is an error. -/
def hasErrors (diagnostics : Diagnostics) : Bool := diagnostics.items.any (·.isError)

/-- The reported problems of one kind. -/
def ofKind (diagnostics : Diagnostics) (kind : DiagnosticKind) : List Diagnostic :=
  diagnostics.items.filter (·.kind == kind)

/-- One line per problem. -/
def text (diagnostics : Diagnostics) : String :=
  String.join (diagnostics.items.map fun diagnostic => diagnostic.text ++ "\n")

end Diagnostics

end BoundedLookahead
