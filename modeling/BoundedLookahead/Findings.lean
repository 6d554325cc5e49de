import BoundedLookahead.Nullability
import BoundedLookahead.Diagnostic
import BoundedLookahead.Options

/-!
# Findings in a production's tree

One walk over a tree finds undeclared tokens, calls of undefined productions,
calls with the wrong number of arguments, disallowed predicates, directives that
steer no decision, and repetitions of a body that can match nothing. Findings
come in the order of the walk: children in declaration order, a directive before
its guard, a repetition after its body.
-/

namespace BoundedLookahead

/-- A problem at one node of a tree. -/
inductive Problem where
  /-- The token is not declared. -/
  | undeclared (kind : Token)
  /-- No production has the name that is called. -/
  | undefined (name : String)
  /-- The production is called with the wrong number of arguments. -/
  | arity (name : String) (expected given : Nat)
  /-- A predicate is given although predicates are not allowed. -/
  | predicateNotAllowed
  /-- The directive stands where no decision consults it. -/
  | misplaced
  /-- The body of the repetition can match nothing. -/
  | emptyBody (kind : RepetitionKind)
deriving DecidableEq

namespace Problem

/-- The kind under which the problem is reported. -/
def kind : Problem → DiagnosticKind
  | .undeclared _ => .undefinedToken
  | .undefined _ => .undefinedProduction
  | .arity _ _ _ => .arityMismatch
  | .predicateNotAllowed => .semanticLookaheadDisabled
  | .misplaced => .misplacedLookahead
  | .emptyBody kind => if kind.repeats then .emptyRepetition else .emptyOptional

/-- The problem in words. -/
def message : Problem → String
  | .undeclared kind => s!"undeclared token '{kind}'"
  | .undefined name => s!"undefined production '{name}'"
  | .arity name expected given =>
    s!"production '{name}' expects {expected} argument(s), but got {given}"
  | .predicateNotAllowed => "semantic lookahead is not allowed here; the predicate is ignored"
  | .misplaced => "lookahead at a non-choice point will be ignored"
  | .emptyBody kind =>
    s!"expansion within \"{kind.operator}\" can be matched by the empty string"

end Problem

/-- A problem with the node that has it. -/
structure Finding where
  /-- The node. -/
  node : NodeId
  /-- Where the node was written. -/
  location : Location
  /-- What is wrong with it. -/
  problem : Problem
deriving DecidableEq

/-- The report of a finding in a production. -/
def Finding.diagnostic (finding : Finding) (production : String) : Diagnostic :=
  ⟨finding.problem.kind, production, finding.location, finding.problem.message⟩

/-- Whether a decision consults a directive that leads the tree. -/
inductive Slot where
  /-- No decision does. -/
  | plain
  /-- The tree is an alternative, a body or an explicit lookahead. -/
  | decision
deriving DecidableEq

/-- What a walk comes across: a finding, or a reference outside the arena. -/
inductive Observation where
  /-- A problem of the grammar. -/
  | finding (finding : Finding)
  /-- A reference that cannot be followed. -/
  | stray (id : NodeId)
deriving DecidableEq

/-- What is wrong with a call. -/
def Registry.callProblem? (registry : Registry) (name : String) (given : Nat) : Option Problem :=
  match registry.production? name with
  | none => some (.undefined name)
  | some callee =>
    if callee.params.length = given then none else some (.arity name callee.params.length given)

/-- What is wrong with a directive. -/
def Options.directiveProblems {α : Type} (options : Options) (slot : Slot)
    (directive : Directive α) : List Problem :=
  (if directive.predicate.isSome && !options.allowPredicates then [.predicateNotAllowed] else []) ++
    if slot = .decision then [] else [.misplaced]

namespace Tree

mutual

/-- What a walk over the tree comes across. `names` are the nullable productions. -/
def observations (registry : Registry) (options : Options) (names : List String) (slot : Slot) :
    Tree → List Observation
  | .stray id => [.stray id]
  | .node id location (.terminal kind) =>
    if registry.isDeclared kind then [] else [.finding ⟨id, location, .undeclared kind⟩]
  | .node id location (.nonTerminal name args) =>
    (registry.callProblem? name args.length).toList.map fun problem =>
      .finding ⟨id, location, problem⟩
  | .node _ _ (.sequence units) => listObservations registry options names slot .plain units
  | .node _ _ (.choice alternatives) =>
    listObservations registry options names .decision .decision alternatives
  | .node id location (.repetition kind body none) =>
    observations registry options names .decision body ++
      if nullable names body then [.finding ⟨id, location, .emptyBody kind⟩] else []
  | .node id location (.repetition kind body (some guard)) =>
    observations registry options names .decision guard ++
      (observations registry options names .decision body ++
        if nullable names body then [.finding ⟨id, location, .emptyBody kind⟩] else [])
  | .node id location (.lookahead ⟨amount, predicate, none⟩) =>
    (options.directiveProblems slot (⟨amount, predicate, none⟩ : Directive Tree)).map fun problem =>
      .finding ⟨id, location, problem⟩
  | .node id location (.lookahead ⟨amount, predicate, some guard⟩) =>
    ((options.directiveProblems slot ⟨amount, predicate, some guard⟩).map fun problem =>
      .finding ⟨id, location, problem⟩) ++ observations registry options names .plain guard
  | .node _ _ (.action _) => []
  | .node _ _ (.tryBlock body _ _) => observations registry options names .plain body
termination_by structural tree => tree

/-- What a walk over several trees comes across; the first of them may stand in
another slot than the rest. -/
def listObservations (registry : Registry) (options : Options) (names : List String)
    (first rest : Slot) : List Tree → List Observation
  | [] => []
  | tree :: trees =>
    observations registry options names first tree ++
      listObservations registry options names rest rest trees
termination_by structural trees => trees

end

end Tree

end BoundedLookahead
