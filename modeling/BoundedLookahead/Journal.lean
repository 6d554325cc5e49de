import BoundedLookahead.AnalysisError
import BoundedLookahead.Decision
import BoundedLookahead.Diagnostic
import BoundedLookahead.Outline

/-!
# The journal of an analysis

An analysis notes what it does as it goes along. Notes are structured; their
wording and their level are functions of the note. A run is a computation that
may consult and change a state, keeps a journal, and may fail. Neither the state
nor the journal is lost when it fails.
-/

namespace BoundedLookahead

/-- What may be done with a production after validation. -/
inductive ProductionStatus where
  /-- Everything. -/
  | valid
  /-- Nothing: it has a structural error. -/
  | blocked
  /-- Everything but running these repetitions, whose bodies can match nothing. -/
  | emptyRepetitionAt (nodes : List NodeId)
deriving DecidableEq

/-- The status with the ids it lists. -/
def ProductionStatus.text : ProductionStatus → String
  | .valid => "Valid"
  | .blocked => "Blocked"
  | .emptyRepetitionAt nodes =>
    "EmptyRepetitionAt([" ++ ", ".intercalate (nodes.map fun id => s!"ExprId({id})") ++ "])"

/-- How much detail a note gives. -/
inductive NoteLevel where
  /-- A milestone. -/
  | info
  /-- A step. -/
  | debug
  /-- A result of a step. -/
  | trace
deriving DecidableEq

namespace NoteLevel

/-- The name of the level. -/
def name : NoteLevel → String
  | .info => "INFO"
  | .debug => "DEBUG"
  | .trace => "TRACE"

/-- How detailed the level is. -/
def rank : NoteLevel → Nat
  | .info => 0
  | .debug => 1
  | .trace => 2

end NoteLevel

/-- Something an analysis did. -/
inductive Note where
  /-- It began to validate. -/
  | validating (productions nodes : Nat)
  /-- It reported a problem. -/
  | reported (diagnostic : Diagnostic)
  /-- It settled what may be done with a production. -/
  | settled (production : String) (status : ProductionStatus)
  /-- It completed a round of solving for first sets. -/
  | round (depth count : Nat) (changed : Bool)
  /-- It found the first set of a production. -/
  | solved (depth : Nat) (production : String) (set : FirstSet)
  /-- It began to resolve decisions. -/
  | resolving (depth productions : Nat)
  /-- It left out a blocked production. -/
  | skipped (production : String)
  /-- It took up a production. -/
  | entered (production : String) (tree : Tree)
  /-- It made a decision. -/
  | decided (node : NodeId) (decision : Decision)
  /-- It made no decisions because of left recursion. -/
  | undecided (cycles : Nat)
  /-- It came to its end. -/
  | done (errors warnings decisions : Nat)

namespace Note

/-- How much detail the note gives. -/
def level : Note → NoteLevel
  | .validating _ _ => .info
  | .reported _ => .debug
  | .settled _ _ => .debug
  | .round _ _ _ => .debug
  | .solved _ _ _ => .trace
  | .resolving _ _ => .info
  | .skipped _ => .trace
  | .entered _ _ => .trace
  | .decided _ _ => .trace
  | .undecided _ => .info
  | .done _ _ _ => .info

/-- The note in words. -/
def message : Note → String
  | .validating productions nodes => s!"validating {productions} productions over {nodes} nodes"
  | .reported diagnostic => diagnostic.text
  | .settled production status => s!"production {production}: {status.text}"
  | .round depth count changed =>
    s!"first-{depth} fixpoint round {count}: " ++ if changed then "changed" else "stable"
  | .solved depth production set => s!"first-{depth}({production}) = {set.text}"
  | .resolving depth productions =>
    s!"resolving decisions at k = {depth} for {productions} productions"
  | .skipped production => s!"skipping blocked production {production}"
  | .entered production tree => s!"{production}:\n{tree.outlineText}"
  | .decided node decision => s!"decision {NodeId.text node}: {decision.text}"
  | .undecided cycles => s!"skipping lookahead analysis: {cycles} left-recursive cycle(s)"
  | .done errors warnings decisions =>
    s!"analysis done: {errors} error(s), {warnings} warning(s), {decisions} decision(s)"

end Note

/-- The notes of at most the given detail. -/
def Note.upTo (level : NoteLevel) (notes : List Note) : List Note :=
  notes.filter fun note => note.level.rank ≤ level.rank

/-- What a run leaves behind. -/
structure Trail (σ α : Type) where
  /-- The notes it made, in order. -/
  notes : List Note
  /-- The state at its end. -/
  state : σ
  /-- Its result, or why it stopped. -/
  result : Except AnalysisError α

/-- A computation on a state that makes notes and may fail. -/
def Run (σ α : Type) : Type := σ → Trail σ α

namespace Run

variable {σ τ α β : Type}

/-- Finish with a value. -/
protected def pure (value : α) : Run σ α := fun state => ⟨[], state, .ok value⟩

/-- Go on from the state and the value reached. -/
protected def bind (run : Run σ α) (next : α → Run σ β) : Run σ β := fun state =>
  match run state with
  | ⟨notes, reached, .error cause⟩ => ⟨notes, reached, .error cause⟩
  | ⟨notes, reached, .ok value⟩ =>
    let rest := next value reached
    ⟨if rest.notes.isEmpty then notes else notes ++ rest.notes, rest.state, rest.result⟩

instance : Monad (Run σ) where
  pure := Run.pure
  bind := Run.bind

/-- Stop. -/
def fail (cause : AnalysisError) : Run σ α := fun state => ⟨[], state, .error cause⟩

/-- Finish with a result that is already known. -/
def ofExcept : Except AnalysisError α → Run σ α
  | .ok value => pure value
  | .error cause => fail cause

/-- Make a note. -/
def note (note : Note) : Run σ Unit := fun state => ⟨[note], state, .ok ()⟩

/-- Make several notes. -/
def noteAll (notes : List Note) : Run σ Unit := fun state => ⟨notes, state, .ok ()⟩

/-- The current state. -/
def get : Run σ σ := fun state => ⟨[], state, .ok state⟩

/-- Change the state. -/
def set (state : σ) : Run σ Unit := fun _ => ⟨[], state, .ok ()⟩

/-- Run on a state of its own and forget that state. -/
def within (state : σ) (run : Run σ α) : Run τ α := fun outer =>
  let trail := run state
  ⟨trail.notes, outer, trail.result⟩

end Run

end BoundedLookahead
