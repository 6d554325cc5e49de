import BoundedLookahead.Analysis
import BoundedLookahead.Text.Quoted

/-!
# Expectations on an analysis

An expectation holds of the outcome of an analysis or fails with a text that says
what was expected and what came instead.
-/

namespace BoundedLookahead

/-- The outcome of an analysis. -/
abbrev AnalysisOutcome := Except AnalysisError Analysis

/-- The cause of an error with its details. -/
def AnalysisError.detail : AnalysisError → String
  | .leftRecursive => "PrerequisiteNotMet"
  | .limitExceeded node depth size limit =>
    s!"ExpansionLimitExceeded \x7b node: ExprId({node}), k: {depth}, size: {size}, " ++
      s!"limit: {limit} \x7d"
  | .invalidOption fault =>
    s!"InvalidOption \x7b option: {Text.quote fault.option}, " ++
      s!"reason: {Text.quote fault.reason} \x7d"
  | .sharedNode id => s!"SharedExpansion(ExprId({id}))"
  | .unknownNode id => s!"UnknownExpansion(ExprId({id}))"
  | .strayNode id => s!"StrayExpansion(ExprId({id}))"

/-- The diagnostics line by line, or that there are none. -/
def Diagnostics.listing (diagnostics : Diagnostics) : String :=
  if diagnostics.isEmpty then "(none)\n" else diagnostics.text

namespace AnalysisOutcome

/-- The heading of a failure text. -/
def failure (expectation : String) : String := s!"\n🔴 TEST FAILED ({expectation}):\n"

/-- Expect that the analysis ran, with or without problems found. -/
def expectSuccess : AnalysisOutcome → Except String Analysis
  | .ok analysis => .ok analysis
  | .error cause => .error
      (failure "Expected Success, but got Error" ++
        s!"Message:  {cause.message}\nError:    {cause.detail}\n")

/-- Expect that the analysis ran and found no problem. -/
def expectClean (outcome : AnalysisOutcome) : Except String Analysis := do
  let analysis ← outcome.expectSuccess
  if analysis.diagnostics.isEmpty then return analysis
  else throw (failure "Expected no diagnostics" ++ analysis.diagnostics.text)

/-- Expect that the analysis ran and found a problem of the kind. -/
def expectDiagnostic (outcome : AnalysisOutcome) (kind : DiagnosticKind) :
    Except String Analysis := do
  let analysis ← outcome.expectSuccess
  if (analysis.diagnostics.ofKind kind).isEmpty then
    throw (failure "Missing Diagnostic" ++
      s!"Expected kind: {kind.name}\nGot:\n{analysis.diagnostics.listing}")
  else return analysis

/-- Expect that the analysis stopped. -/
def expectFailure : AnalysisOutcome → Except String AnalysisError
  | .error cause => .ok cause
  | .ok analysis => .error
      (failure "Expected Failure, but got Success" ++
        s!"Diagnostics:\n{analysis.diagnostics.listing}")

/-- Expect that the analysis stopped with a message that contains the given text. -/
def expectMessage (outcome : AnalysisOutcome) (part : String) : Except String Unit := do
  let cause ← outcome.expectFailure
  if Text.occurs part.toList cause.message.toList then return ()
  else throw (failure "Error Message Mismatch" ++
    s!"Expected part: {Text.quote part}\nActual msg:    {Text.quote cause.message}\n")

end AnalysisOutcome

end BoundedLookahead
