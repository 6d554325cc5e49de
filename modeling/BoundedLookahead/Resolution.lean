import BoundedLookahead.Engine

/-!
# Resolving decisions

Every choice and every repetition of a production gets a decision. The walk over
a production's tree carries along what can follow a node inside the production.
It warns of alternatives that the depth does not tell apart, of alternatives that
are never reached, of guards that let pass what cannot come, and of bodies that
begin like what follows their loop.

The walk asks for first sets through a service, so that one definition runs on
an engine and can also be read over any other source of first sets.
-/

namespace BoundedLookahead

/-- Where a walk gets its first sets and where it makes its notes. -/
structure Oracle (m : Type → Type) where
  /-- The first set of a node at a depth. -/
  first : NodeId → Nat → m FirstSet
  /-- Make a note. -/
  note : Note → m Unit

/-- The engine as an oracle. -/
def Engine.oracle : Oracle (Run Engine) := ⟨Engine.first, Run.note⟩

/-- The solutions as an oracle that keeps nothing and makes no notes. -/
def Registry.oracle (registry : Registry) (limit : Nat) : Oracle (Except AnalysisError) :=
  ⟨registry.firstOf limit, fun _ => .ok ()⟩

/-- What a walk over one production knows. -/
structure Scope where
  /-- The production that is walked. -/
  production : String
  /-- The depth of decisions without a depth of their own. -/
  lookahead : Nat
  /-- Whether semantic predicates may steer decisions. -/
  allowPredicates : Bool
  /-- The depth of the sets of what follows a node. -/
  followDepth : Nat
  /-- The productions that can match the empty word. -/
  nullable : List String

/-- A resolved node. -/
structure Point where
  /-- The choice or repetition. -/
  node : NodeId
  /-- Its decision. -/
  decision : Decision
  /-- The problems found in making it. -/
  warnings : List Diagnostic

section

variable {m : Type → Type} [Monad m] (oracle : Oracle m) (scope : Scope)

/-- Report a problem in the production that is walked. -/
def Oracle.warn (kind : DiagnosticKind) (location : Location) (message : String) :
    m Diagnostic := do
  let diagnostic : Diagnostic := ⟨kind, scope.production, location, message⟩
  oracle.note (.reported diagnostic)
  return diagnostic

/-- The depth and the guard that a directive gives a decision. A depth of 0 is no
depth, and a predicate that is not allowed is no predicate. -/
def Oracle.guard : Option (Directive Tree) → m (Nat × Option Guard)
  | none => pure (scope.lookahead, none)
  | some directive => do
    let amount := directive.amount.filter fun amount => decide (0 < amount)
    let depth := amount.getD scope.lookahead
    let syntactic ← match directive.guard with
      | none => pure none
      | some tree => do
        let set ← oracle.first tree.id depth
        pure (some (tree.id, set))
    let predicate := if scope.allowPredicates then directive.predicate else none
    if amount.isNone && syntactic.isNone && predicate.isNone then return (depth, none)
    return (depth, some ⟨amount, syntactic, predicate⟩)

/-- The words of a guard with which the guarded set cannot begin. -/
def FirstSet.contradictions (guard set : FirstSet) : List Word :=
  guard.words.toList.filter fun word =>
    !(FirstSet.ofWords [word] false).overlaps set

/-- Report that the syntactic guard of an alternative lets pass what cannot begin
the alternative. An alternative that can match nothing is never reported. -/
def Oracle.checkGuard (alternative : Tree) (index : Nat) (guard : Option Guard) (set : FirstSet) :
    m (List Diagnostic) :=
  match guard.bind Guard.syntactic with
  | none => pure []
  | some (_, guardSet) =>
    if alternative.nullable scope.nullable then pure []
    else
      let words := guardSet.contradictions set
      if words.isEmpty then pure []
      else do
        let admitted := ", ".intercalate (words.map Word.text)
        let diagnostic ← oracle.warn scope .guardContradiction alternative.location
          (s!"lookahead guard of alternative {index + 1} admits {admitted}, which cannot begin " ++
            "the alternative; the guard takes precedence")
        return [diagnostic]

/-- The entries of the alternatives from `index` on, with what they warn of.
`fallback` is the default among the alternatives before them: the first that can
match nothing and whose guard does not override. -/
def Oracle.entries (index : Nat) (fallback : Option Nat) :
    List Tree → m (List ChoiceEntry × List Diagnostic)
  | [] => pure ([], [])
  | alternative :: alternatives => do
    let (depth, guard) ← oracle.guard scope alternative.leadingDirective?
    let set ← oracle.first alternative.id depth
    let hidden ← match fallback with
      | none => pure []
      | some earlier => do
        let diagnostic ← oracle.warn scope .unreachableAlternative alternative.location
          (s!"alternative {index + 1} can never be chosen: alternative {earlier + 1} matches " ++
            "the empty string")
        pure [diagnostic]
    let contradiction ← oracle.checkGuard scope alternative index guard set
    let isDefault := fallback.isNone && !Guard.overridesIn guard && set.nullable
    let entry : ChoiceEntry := ⟨index, alternative.id, depth, set, guard, isDefault⟩
    let (entries, warnings) ←
      Oracle.entries (index + 1) (if isDefault then some index else fallback) alternatives
    return (entry :: entries, hidden ++ contradiction ++ warnings)

/-- The set of an entry at a depth at least its own. -/
def Oracle.entrySet (entry : ChoiceEntry) (depth : Nat) : m FirstSet :=
  if entry.depth = depth then pure entry.lookahead else oracle.first entry.node depth

/-- Compare two alternatives at the deeper of their depths. A guard that overrides
exempts its alternative. -/
def Oracle.ambiguity (location : Location) (a b : ChoiceEntry) : m (List Diagnostic) :=
  if Guard.overridesIn a.guard || Guard.overridesIn b.guard then pure []
  else do
    let depth := max a.depth b.depth
    let left ← oracle.entrySet a depth
    let right ← oracle.entrySet b depth
    let common := left.conflicts right
    if common.isEmpty then pure []
    else do
      let i := a.alternative + 1
      let j := b.alternative + 1
      let diagnostic ← oracle.warn scope .ambiguity location
        (s!"choice conflict between alternatives {i} and {j}: both can start with " ++
          s!"{WordSet.text common}; alternative {i} will be used")
      return [diagnostic]

/-- Compare an alternative with each of the later ones. -/
def Oracle.ambiguitiesWith (location : Location) (a : ChoiceEntry) :
    List ChoiceEntry → m (List Diagnostic)
  | [] => pure []
  | b :: later => do
    let first ← oracle.ambiguity scope location a b
    let others ← Oracle.ambiguitiesWith location a later
    return first ++ others

/-- Compare every alternative with each of the later ones. -/
def Oracle.ambiguities (location : Location) : List ChoiceEntry → m (List Diagnostic)
  | [] => pure []
  | a :: later => do
    let first ← oracle.ambiguitiesWith scope location a later
    let others ← Oracle.ambiguities location later
    return first ++ others

/-- The entries up to the default, behind which none is ever reached. -/
def reachedEntries (entries : List ChoiceEntry) : List ChoiceEntry :=
  match entries.findIdx? (·.isDefault) with
  | some position => entries.take (position + 1)
  | none => entries

/-- Decide a choice. Alternatives behind the default are not compared. -/
def Oracle.choicePoint (id : NodeId) (location : Location) (alternatives : List Tree) :
    m Point := do
  let (entries, warnings) ← oracle.entries scope 0 none alternatives
  let conflicts ← oracle.ambiguities scope location (reachedEntries entries)
  let depth := ((entries.map (·.depth)).max?).getD scope.lookahead
  return ⟨id, .choice ⟨depth, entries⟩, warnings ++ conflicts⟩

/-- The directive of a repetition: its explicit lookahead, read as a directive, or
else the directive that leads its body. -/
def loopDirective? (body : Tree) : Option Tree → Option (Directive Tree)
  | none => body.leadingDirective?
  | some (.node _ _ (.lookahead directive)) => some directive
  | some guard => some ⟨none, none, some guard⟩

/-- Decide a repetition that `follow` comes after. -/
def Oracle.loopPoint (id : NodeId) (location : Location) (kind : RepetitionKind) (body : Tree)
    (guard : Option Tree) (follow : FirstSet) : m Point := do
  let (depth, guard) ← oracle.guard scope (loopDirective? body guard)
  let set ← oracle.first body.id depth
  let warnings ←
    if Guard.overridesIn guard then pure []
    else do
      let common := set.conflicts (follow.truncate depth)
      if common.isEmpty then pure []
      else do
        let diagnostic ← oracle.warn scope .loopConflict location
          (s!"choice conflict in \"{kind.operator}\": {WordSet.text common} can begin the body " ++
            "and also follow it; the body will be entered")
        pure [diagnostic]
  return ⟨id, .loop ⟨kind, body.id, depth, set, guard⟩, warnings⟩

/-- What follows each of the units when `follow` comes after the last of them, and
what the units begin with. The sets are asked for from the last unit to the first. -/
def Oracle.unitFollows (follow : FirstSet) : List Tree → m (List FirstSet × FirstSet)
  | [] => pure ([], follow)
  | unit :: units => do
    let (follows, after) ← Oracle.unitFollows follow units
    let set ← oracle.first unit.id scope.followDepth
    return (after :: follows, set.concat after scope.followDepth)

/-- What follows the body of a repetition: another iteration, where there can be
one, or what follows the repetition. -/
def Oracle.bodyFollow (kind : RepetitionKind) (body : Tree) (follow : FirstSet) : m FirstSet :=
  if kind.repeats then do
    let set ← oracle.first body.id scope.followDepth
    return (set.union FirstSet.epsilon).concat follow scope.followDepth
  else pure follow

mutual

/-- Decide every choice and repetition in a tree that `follow` comes after. -/
def Oracle.visit (follow : FirstSet) : Tree → m (List Point)
  | .stray _ => pure []
  | .node _ _ (.terminal _) => pure []
  | .node _ _ (.nonTerminal _ _) => pure []
  | .node _ _ (.sequence units) => do
    let (follows, _) ← oracle.unitFollows scope follow units
    Oracle.visitUnits follows units
  | .node id location (.choice alternatives) => do
    let point ← oracle.choicePoint scope id location alternatives
    let points ← Oracle.visitAlternatives follow alternatives
    return point :: points
  | .node id location (.repetition kind body none) => do
    let point ← oracle.loopPoint scope id location kind body none follow
    let inner ← oracle.bodyFollow scope kind body follow
    let points ← Oracle.visit inner body
    return point :: points
  | .node id location (.repetition kind body (some guard)) => do
    let point ← oracle.loopPoint scope id location kind body (some guard) follow
    let inner ← oracle.bodyFollow scope kind body follow
    let guardPoints ← Oracle.visit FirstSet.epsilon guard
    let points ← Oracle.visit inner body
    return point :: guardPoints ++ points
  | .node _ _ (.lookahead ⟨_, _, none⟩) => pure []
  | .node _ _ (.lookahead ⟨_, _, some guard⟩) => Oracle.visit FirstSet.epsilon guard
  | .node _ _ (.action _) => pure []
  | .node _ _ (.tryBlock body _ _) => Oracle.visit follow body
termination_by structural tree => tree

/-- Decide everything in the units of a sequence, each with what follows it. -/
def Oracle.visitUnits : List FirstSet → List Tree → m (List Point)
  | _, [] => pure []
  | follows, unit :: units => do
    let points ← Oracle.visit (follows.headD FirstSet.epsilon) unit
    let others ← Oracle.visitUnits follows.tail units
    return points ++ others
termination_by structural _ units => units

/-- Decide everything in the alternatives of a choice that `follow` comes after. -/
def Oracle.visitAlternatives (follow : FirstSet) : List Tree → m (List Point)
  | [] => pure []
  | alternative :: alternatives => do
    let points ← Oracle.visit follow alternative
    let others ← Oracle.visitAlternatives follow alternatives
    return points ++ others
termination_by structural alternatives => alternatives

end

end

/-- The decisions of a grammar and the problems found in making them. -/
structure Resolution where
  /-- The decisions by node. -/
  decisions : DecisionTable
  /-- The problems in order. -/
  diagnostics : Diagnostics

/-- The decisions and problems of a list of resolved nodes. -/
def Resolution.ofPoints (points : List Point) : Resolution :=
  ⟨Std.ExtTreeMap.ofList (points.map fun point => (point.node, point.decision)),
    ⟨points.flatMap (·.warnings)⟩⟩

section

variable {m : Type → Type} [Monad m] (oracle : Oracle m)

/-- What a walk over a production with this tree knows. Sets of what follows a node
are as deep as the deepest decision of the production may look. -/
def Options.scope (options : Options) (nullable : List String) (production : String) (tree : Tree) :
    Scope :=
  ⟨production, options.lookahead, options.allowPredicates,
    max tree.deepestAmount options.lookahead, nullable⟩

/-- Resolve the given productions, except the blocked ones. -/
def Oracle.resolveRules (report : Report) (options : Options) (nullable : List String) :
    List Rule → m (List Point)
  | [] => pure []
  | rule :: rules => do
    let points ←
      if report.isBlocked rule.name then do
        oracle.note (.skipped rule.name)
        pure []
      else do
        oracle.note (.entered rule.name rule.tree)
        oracle.visit (options.scope nullable rule.name rule.tree) FirstSet.epsilon rule.tree
    let others ← Oracle.resolveRules report options nullable rules
    return points ++ others

/-- Resolve every decision of the productions that are not blocked. -/
def Oracle.resolve (registry : Registry) (report : Report) (options : Options)
    (nullable : List String) : m Resolution := do
  oracle.note (.resolving options.lookahead registry.productions.length)
  let points ← oracle.resolveRules report options nullable registry.rules
  return Resolution.ofPoints points

end

/-- Resolve on the engine at hand. -/
def Engine.resolve (report : Report) (options : Options) : Run Engine Resolution := do
  let engine ← Run.get
  let resolution ← Engine.oracle.resolve engine.registry report options engine.nullable
  Run.noteAll (resolution.decisions.toList.map fun entry => .decided entry.1 entry.2)
  return resolution

end BoundedLookahead
