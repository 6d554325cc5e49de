import BoundedLookahead.FirstSet
import Std.Data.ExtTreeMap

/-!
# Decisions

A decision tells a predictive parser, from the upcoming tokens, which alternative
of a choice to take or whether to enter the body of a repetition. It compares the
tokens with first sets, unless an explicit guard takes their place. Evaluating a
decision also yields the predicates it asked for, in the order of asking.
-/

namespace BoundedLookahead

/-- An answer and the predicates that were evaluated to find it. -/
structure Verdict (α : Type) where
  /-- The answer. -/
  value : α
  /-- The evaluated predicates in order. -/
  asked : List String := []
deriving DecidableEq

/-- An explicit lookahead attached to an alternative or a body. -/
structure Guard where
  /-- The local depth, never 0. -/
  amount : Option Nat
  /-- The guarding expansion with its first set at the depth of the decision. -/
  syntactic : Option (NodeId × FirstSet)
  /-- The predicate. -/
  predicate : Option String
deriving DecidableEq

namespace Guard

/-- Whether the guard takes the place of the computed test. A bare depth only
changes how far that test looks. -/
def overrides (guard : Guard) : Bool := guard.syntactic.isSome || guard.predicate.isSome

/-- The set whose words are compared with the upcoming tokens: that of the
syntactic guard, or the computed set `own` unless there is a predicate alone. -/
def scanned? (guard : Guard) (own : FirstSet) : Option FirstSet :=
  match guard.syntactic with
  | some (_, set) => some set
  | none => if guard.amount.isSome || guard.predicate.isNone then some own else none

/-- Whether the tokens pass the comparison; a nullable set lets everything pass. -/
def passes (guard : Guard) (own : FirstSet) (upcoming : List Token) : Bool :=
  match guard.scanned? own with
  | some set => set.nullable || set.accepts upcoming
  | none => true

/-- Whether the guard lets the tokens pass. The predicate is evaluated last, and
only when the comparison does not already decide. -/
def admits (guard : Guard) (own : FirstSet) (upcoming : List Token) (holds : String → Bool) :
    Verdict Bool :=
  if guard.passes own upcoming then
    match guard.predicate with
    | some predicate => ⟨holds predicate, [predicate]⟩
    | none => ⟨true, []⟩
  else ⟨false, []⟩

/-- The guard in words, with a leading space for each part it has. -/
def text (guard : Guard) : String :=
  (match guard.amount with
    | some amount => s!" lookahead({amount})"
    | none => "") ++
  (match guard.syntactic with
    | some (id, set) => s!" guard {NodeId.text id} {set.text}"
    | none => "") ++
  if guard.predicate.isSome then " if \x7b..\x7d" else ""

end Guard

/-- Whether there is a guard that takes the place of the computed test. -/
def Guard.overridesIn (guard : Option Guard) : Bool := guard.any Guard.overrides

/-- The test for one alternative of a choice. -/
structure ChoiceEntry where
  /-- The index of the alternative, from 0 on. -/
  alternative : Nat
  /-- The node of the alternative. -/
  node : NodeId
  /-- How far the test looks. -/
  depth : Nat
  /-- The first set of the alternative at that depth. -/
  lookahead : FirstSet
  /-- The explicit lookahead that leads the alternative. -/
  guard : Option Guard
  /-- Whether the alternative is taken whenever the test is reached. -/
  isDefault : Bool
deriving DecidableEq

/-- Whether the tokens select the alternative. -/
def ChoiceEntry.admits (entry : ChoiceEntry) (upcoming : List Token) (holds : String → Bool) :
    Verdict Bool :=
  match entry.guard with
  | some guard => guard.admits entry.lookahead upcoming holds
  | none => ⟨entry.isDefault || entry.lookahead.accepts upcoming, []⟩

/-- The decision of a choice: its entries are tried in order. -/
structure ChoiceDecision where
  /-- The largest depth of an entry. -/
  depth : Nat
  /-- One entry for each alternative. -/
  entries : List ChoiceEntry
deriving DecidableEq

namespace ChoiceDecision

/-- The first of the entries that lets the tokens pass. -/
def selectFrom (upcoming : List Token) (holds : String → Bool) :
    List ChoiceEntry → Verdict (Option Nat)
  | [] => ⟨none, []⟩
  | entry :: entries =>
    let verdict := entry.admits upcoming holds
    if verdict.value then ⟨some entry.alternative, verdict.asked⟩
    else
      let later := selectFrom upcoming holds entries
      ⟨later.value, verdict.asked ++ later.asked⟩

/-- The alternative to take when predicates hold as given. -/
def selectWith (decision : ChoiceDecision) (upcoming : List Token) (holds : String → Bool) :
    Verdict (Option Nat) :=
  selectFrom upcoming holds decision.entries

/-- The alternative to take when every predicate holds. -/
def select (decision : ChoiceDecision) (upcoming : List Token) : Option Nat :=
  (decision.selectWith upcoming fun _ => true).value

/-- The alternative that is taken whenever it is reached. -/
def default? (decision : ChoiceDecision) : Option Nat :=
  (decision.entries.find? (·.isDefault)).map (·.alternative)

/-- The decision on one line. -/
def text (decision : ChoiceDecision) : String :=
  s!"choice k={decision.depth}" ++ String.join (decision.entries.map fun entry =>
    s!" | {entry.alternative + 1}: {entry.lookahead.text}" ++
      (entry.guard.map Guard.text).getD "" ++ if entry.isDefault then " default" else "")

end ChoiceDecision

/-- The decision of a repetition: whether to run the body, or run it again. -/
structure LoopDecision where
  /-- How often the body may run. -/
  kind : RepetitionKind
  /-- The node of the body. -/
  body : NodeId
  /-- How far the test looks. -/
  depth : Nat
  /-- The first set of the body at that depth. -/
  lookahead : FirstSet
  /-- The explicit lookahead of the repetition or the one that leads its body. -/
  guard : Option Guard
deriving DecidableEq

namespace LoopDecision

/-- Whether to enter the body when predicates hold as given. -/
def entersWith (decision : LoopDecision) (upcoming : List Token) (holds : String → Bool) :
    Verdict Bool :=
  match decision.guard with
  | some guard => guard.admits decision.lookahead upcoming holds
  | none => ⟨decision.lookahead.accepts upcoming, []⟩

/-- Whether to enter the body when every predicate holds. -/
def enters (decision : LoopDecision) (upcoming : List Token) : Bool :=
  (decision.entersWith upcoming fun _ => true).value

/-- The decision on one line. -/
def text (decision : LoopDecision) : String :=
  s!"{decision.kind.operator} k={decision.depth}: {decision.lookahead.text}" ++
    (decision.guard.map Guard.text).getD ""

end LoopDecision

/-- The decision of a choice or of a repetition. -/
inductive Decision where
  /-- Which alternative to take. -/
  | choice (decision : ChoiceDecision)
  /-- Whether to enter a body. -/
  | loop (decision : LoopDecision)
deriving DecidableEq

namespace Decision

/-- The decision on one line. -/
def text : Decision → String
  | .choice decision => decision.text
  | .loop decision => decision.text

/-- The decision of a choice. -/
def choice? : Decision → Option ChoiceDecision
  | .choice decision => some decision
  | .loop _ => none

/-- The decision of a repetition. -/
def loop? : Decision → Option LoopDecision
  | .choice _ => none
  | .loop decision => some decision

end Decision

/-- Decisions by node, in the order of the ids. -/
abbrev DecisionTable := Std.ExtTreeMap NodeId Decision

namespace DecisionTable

/-- The decision of a choice node. -/
def choice? (table : DecisionTable) (id : NodeId) : Option ChoiceDecision :=
  (table.get? id).bind Decision.choice?

/-- The decision of a repetition node. -/
def loop? (table : DecisionTable) (id : NodeId) : Option LoopDecision :=
  (table.get? id).bind Decision.loop?

/-- The choice decision of a node is its decision. -/
theorem choice?_eq_some {table : DecisionTable} {id : NodeId} {decision : ChoiceDecision} :
    table.choice? id = some decision ↔ table.get? id = some (.choice decision) := by
  unfold choice?
  cases table.get? id with
  | none => simp
  | some found => cases found <;> simp [Decision.choice?]

/-- The loop decision of a node is its decision. -/
theorem loop?_eq_some {table : DecisionTable} {id : NodeId} {decision : LoopDecision} :
    table.loop? id = some decision ↔ table.get? id = some (.loop decision) := by
  unfold loop?
  cases table.get? id with
  | none => simp
  | some found => cases found <;> simp [Decision.loop?]

/-- One line for each decision. -/
def text (table : DecisionTable) : String :=
  String.join (table.toList.map fun entry => s!"{NodeId.text entry.1}: {entry.2.text}\n")

end DecisionTable

end BoundedLookahead
