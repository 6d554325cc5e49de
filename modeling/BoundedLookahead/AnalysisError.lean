import BoundedLookahead.Expansion

/-!
# Causes of an aborted analysis

Problems of a grammar are diagnostics and never errors. An error says that the
analysis itself could not go on: an option makes no sense, the arena is not a
forest, a first set grew past its limit, or a walk met a reference that nobody
had checked.
-/

namespace BoundedLookahead

/-- A setting with which no analysis can run. -/
inductive OptionFault where
  /-- The decision depth is 0. -/
  | zeroLookahead
  /-- No first set may hold a word. -/
  | zeroExpansionLimit
deriving DecidableEq

/-- The key of the setting in a configuration. -/
def OptionFault.option : OptionFault → String
  | .zeroLookahead => "lookahead"
  | .zeroExpansionLimit => "expansion-limit"

/-- Why the setting is refused. -/
def OptionFault.reason : OptionFault → String
  | .zeroLookahead => "the lookahead depth must be at least 1"
  | .zeroExpansionLimit => "the expansion limit must be positive"

/-- Why an analysis stopped. -/
inductive AnalysisError where
  /-- First sets were asked for although the grammar is left-recursive. -/
  | leftRecursive
  /-- The first set of `node` at depth `depth` holds `size` words, more than `limit`. -/
  | limitExceeded (node : NodeId) (depth size limit : Nat)
  /-- A setting is out of range. -/
  | invalidOption (fault : OptionFault)
  /-- The node is referenced more than once. -/
  | sharedNode (id : NodeId)
  /-- The node is referenced but not in the arena. -/
  | unknownNode (id : NodeId)
  /-- A walk that does not check its references met one outside the arena. -/
  | strayNode (id : NodeId)
deriving DecidableEq

/-- The text shown to the user. -/
def AnalysisError.message : AnalysisError → String
  | .leftRecursive =>
    "lookahead engine invoked before the grammar was certified free of left recursion"
  | .limitExceeded node depth size limit =>
    s!"first-{depth} set of node {NodeId.text node} exceeds the expansion limit of {limit} " ++
      s!"sequences (reached {size}); lower the lookahead depth"
  | .invalidOption fault => s!"invalid analysis option `{fault.option}`: {fault.reason}"
  | .sharedNode id => s!"expansion node {NodeId.text id} is owned by more than one parent"
  | .unknownNode id => s!"expansion node {NodeId.text id} does not exist in the registry"
  | .strayNode id => s!"index out of bounds: expansion node {NodeId.text id}"

end BoundedLookahead
