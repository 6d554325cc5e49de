/-!
# Grammar expansions

A production's right-hand side is built from expansions: tokens, calls of other
productions, sequences, choices, repetitions, lookahead directives, actions and
guarded blocks. The constructors are parametric in what stands for a child, so
one vocabulary serves the arena, whose children are node ids, and the trees
unfolded from it.

Payload code (call arguments, predicates, actions, types) is carried as text and
never interpreted.
-/

namespace BoundedLookahead

/-- A token kind as the grammar declares it, such as `PLUS` or `"("`. -/
abbrev Token := String

/-- A finite string of token kinds. -/
abbrev Word := List Token

/-- The index of a node in the arena of its registry. -/
abbrev NodeId := Nat

/-- A position in the grammar file. -/
structure Location where
  /-- The line, counted by the front end. -/
  line : Nat := 0
  /-- The column, counted by the front end. -/
  column : Nat := 0
deriving DecidableEq

/-- The written form of a position, `line:column`. -/
def Location.text (location : Location) : String :=
  toString location.line ++ ":" ++ toString location.column

/-- The written form of a node id, `#index`. -/
def NodeId.text (id : NodeId) : String := "#" ++ toString id

/-- How often the body of a repetition may run. -/
inductive RepetitionKind where
  /-- At most once. -/
  | zeroOrOne
  /-- Any number of times. -/
  | zeroOrMore
  /-- At least once. -/
  | oneOrMore
deriving DecidableEq

/-- The operator that writes the repetition in a grammar file. -/
def RepetitionKind.operator : RepetitionKind → String
  | .zeroOrOne => "(...)?"
  | .zeroOrMore => "(...)*"
  | .oneOrMore => "(...)+"

/-- Whether the body may run a second time. -/
def RepetitionKind.repeats : RepetitionKind → Bool
  | .zeroOrOne => false
  | .zeroOrMore => true
  | .oneOrMore => true

/-- An explicit lookahead: how far to look, a predicate that has to hold, and an
expansion whose beginnings have to come next. -/
structure Directive (α : Type) where
  /-- The decision depth; without one the grammar's default applies. -/
  amount : Option Nat := none
  /-- The semantic predicate. -/
  predicate : Option String := none
  /-- The syntactic guard. -/
  guard : Option α := none

/-- A handler of a guarded block. -/
structure Handler where
  /-- The type of the exceptions it handles. -/
  exception : String
  /-- The name bound to the exception. -/
  binding : String
  /-- The code of the handler. -/
  block : String

/-- One construct of a right-hand side with children in `α`. -/
inductive Expansion (α : Type) where
  /-- A single token. -/
  | terminal (kind : Token)
  /-- A call of the production of that name. -/
  | nonTerminal (name : String) (args : List String)
  /-- The units one after the other. -/
  | sequence (units : List α)
  /-- One of the alternatives. -/
  | choice (alternatives : List α)
  /-- The body repeated, with an optional explicit lookahead. -/
  | repetition (kind : RepetitionKind) (body : α) (guard : Option α)
  /-- A lookahead directive, which consumes nothing. -/
  | lookahead (directive : Directive α)
  /-- Code to run, which consumes nothing. -/
  | action (code : String)
  /-- The body, protected by handlers and followed by clean-up code. -/
  | tryBlock (body : α) (handlers : List Handler) (cleanup : Option String)

namespace Expansion

variable {α β : Type}

/-- The direct children in declaration order; the explicit lookahead of a
repetition comes before its body. -/
def children : Expansion α → List α
  | .terminal _ => []
  | .nonTerminal _ _ => []
  | .sequence units => units
  | .choice alternatives => alternatives
  | .repetition _ body guard => guard.toList ++ [body]
  | .lookahead directive => directive.guard.toList
  | .action _ => []
  | .tryBlock body _ _ => [body]

/-- Replace every child by its image. -/
def map (f : α → β) : Expansion α → Expansion β
  | .terminal kind => .terminal kind
  | .nonTerminal name args => .nonTerminal name args
  | .sequence units => .sequence (units.map f)
  | .choice alternatives => .choice (alternatives.map f)
  | .repetition kind body guard => .repetition kind (f body) (guard.map f)
  | .lookahead directive =>
    .lookahead ⟨directive.amount, directive.predicate, directive.guard.map f⟩
  | .action code => .action code
  | .tryBlock body handlers cleanup => .tryBlock (f body) handlers cleanup

/-- The images of the children are the children of the image. -/
@[simp] theorem children_map (f : α → β) (expansion : Expansion α) :
    (expansion.map f).children = expansion.children.map f := by
  cases expansion with
  | repetition kind body guard => cases guard <;> rfl
  | lookahead directive =>
    obtain ⟨_, _, guard⟩ := directive
    cases guard <;> rfl
  | _ => rfl

/-- Two replacements in a row are one. -/
@[simp] theorem map_map {γ : Type} (g : β → γ) (f : α → β) (expansion : Expansion α) :
    (expansion.map f).map g = expansion.map fun child => g (f child) := by
  cases expansion <;> simp [map, Function.comp_def]

/-- Replacements that agree on the children have the same result. -/
theorem map_congr {f g : α → β} {expansion : Expansion α}
    (h : ∀ child ∈ expansion.children, f child = g child) : expansion.map f = expansion.map g := by
  cases expansion with
  | sequence units => exact congrArg sequence (List.map_congr_left h)
  | choice alternatives => exact congrArg choice (List.map_congr_left h)
  | repetition kind body guard => cases guard <;> simp_all [map, children]
  | lookahead directive =>
    obtain ⟨_, _, guard⟩ := directive
    cases guard <;> simp_all [map, children]
  | tryBlock body handlers cleanup => simp_all [map, children]
  | _ => rfl

/-- The name of the construct. -/
def kindName : Expansion α → String
  | .terminal _ => "Terminal"
  | .nonTerminal _ _ => "NonTerminal"
  | .sequence _ => "Sequence"
  | .choice _ => "Choice"
  | .repetition .zeroOrOne _ _ => "ZeroOrOne"
  | .repetition .zeroOrMore _ _ => "ZeroOrMore"
  | .repetition .oneOrMore _ _ => "OneOrMore"
  | .lookahead _ => "Lookahead"
  | .action _ => "Action"
  | .tryBlock _ _ _ => "TryBlock"

/-- The kind, body and explicit lookahead of a repetition. -/
def repetition? : Expansion α → Option (RepetitionKind × α × Option α)
  | .repetition kind body guard => some (kind, body, guard)
  | _ => none

end Expansion

/-- An arena node: an expansion over node ids and the place it was written. -/
structure Node where
  /-- The construct. -/
  expansion : Expansion NodeId
  /-- Where it was written. -/
  location : Location

/-- A named grammar rule. -/
structure Production where
  /-- The name under which other rules call it. -/
  name : String
  /-- The root of its right-hand side. -/
  root : NodeId
  /-- Where it was written. -/
  location : Location := {}
  /-- Parameter names with their types. -/
  params : List (String × String) := []
  /-- The type of its result. -/
  returnType : String := "()"
  /-- The exceptions it may throw. -/
  throws : List String := []

end BoundedLookahead
