import BoundedLookahead.Forest

/-!
# Reachability of productions

A production is used when the start production reaches it through calls, those
inside lookahead guards included. Only first definitions call anything.
-/

namespace BoundedLookahead

namespace Registry

/-- The defined productions that each production calls anywhere in its tree. -/
def callGraph (registry : Registry) : List (String × List String) :=
  registry.rules.map fun rule => (rule.name, rule.tree.calls.eraseDups.filter registry.isDefined)

end Registry

/-- Follow calls from the pending names, the oldest first. Every name is expanded
at most once. -/
def followCalls (graph : List (String × List String)) :
    Nat → List String → List String → List String
  | 0, _, seen => seen
  | _ + 1, [], seen => seen
  | fuel + 1, name :: pending, seen =>
    let fresh := ((graph.lookup name).getD []).filter fun callee => !seen.contains callee
    followCalls graph fuel (pending ++ fresh) (seen ++ fresh)

namespace Registry

/-- The names reached from the start through calls, the start included. Each step
expands one of them, so more steps than there are productions are never needed. -/
def reachable (registry : Registry) (start : String) : List String :=
  followCalls registry.callGraph (registry.productions.length + 1) [start] [start]

/-- The productions that the start does not reach, in order. -/
def unreachable (registry : Registry) (start : String) : List Production :=
  let reached := registry.reachable start
  registry.productions.filter fun production => !reached.contains production.name

end Registry

end BoundedLookahead
