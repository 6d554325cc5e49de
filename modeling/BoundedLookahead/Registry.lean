import BoundedLookahead.AnalysisError

/-!
# Grammar registries

A registry holds the arena of expansion nodes, the productions in the order of
their first definitions, later definitions of the same names, and the declared
tokens. Later definitions never replace the first one; they are kept aside so
that they can be reported.
-/

namespace BoundedLookahead

/-- A grammar under construction. -/
structure Registry where
  /-- The arena; a node's id is its index. -/
  nodes : Array Node := #[]
  /-- The first definition of every production. -/
  productions : List Production := []
  /-- The later definitions. -/
  duplicates : List Production := []
  /-- The declared tokens in the order of declaration. -/
  tokens : List Token := []
  /-- No two productions have one name. -/
  names_nodup : (productions.map (·.name)).Nodup := by simp
  /-- A later definition has a first one. -/
  duplicates_defined : ∀ later ∈ duplicates, later.name ∈ productions.map (·.name) := by simp

namespace Registry

/-- Declare a token; declaring it again changes nothing. -/
def declareToken (registry : Registry) (kind : Token) : Registry :=
  if registry.tokens.contains kind then registry
  else { registry with tokens := registry.tokens ++ [kind] }

/-- Whether the token is declared. -/
def isDeclared (registry : Registry) (kind : Token) : Bool := registry.tokens.contains kind

/-- Add a node to the arena. Its id is the number of nodes before it. -/
def addNode (registry : Registry) (node : Node) : Registry :=
  { registry with nodes := registry.nodes.push node }

/-- Add a definition, aside when the name is taken. -/
def addProduction (registry : Registry) (production : Production) : Registry :=
  if h : production.name ∈ registry.productions.map (·.name) then
    { registry with
      duplicates := registry.duplicates ++ [production]
      duplicates_defined := fun later hl => by
        rcases List.mem_append.mp hl with hl | hl
        · exact registry.duplicates_defined later hl
        · rw [List.mem_singleton.mp hl]; exact h }
  else
    { registry with
      productions := registry.productions ++ [production]
      names_nodup := by
        rw [List.map_append, List.nodup_append]
        refine ⟨registry.names_nodup, by simp, fun a ha b hb => ?_⟩
        rw [List.map_cons, List.map_nil, List.mem_singleton] at hb
        exact fun hab => h (by rw [← hb, ← hab]; exact ha)
      duplicates_defined := fun later hl => by
        rw [List.map_append]
        exact List.mem_append_left _ (registry.duplicates_defined later hl) }

section

variable {registry : Registry} {production : Production}

@[simp] theorem addProduction_nodes : (registry.addProduction production).nodes = registry.nodes := by
  unfold addProduction
  split <;> rfl

@[simp] theorem addProduction_tokens :
    (registry.addProduction production).tokens = registry.tokens := by
  unfold addProduction
  split <;> rfl

/-- A definition of a new name comes last. -/
theorem addProduction_productions (new : production.name ∉ registry.productions.map (·.name)) :
    (registry.addProduction production).productions = registry.productions ++ [production] := by
  rw [addProduction, dif_neg new]

/-- A definition of a new name is no later one. -/
theorem addProduction_duplicates (new : production.name ∉ registry.productions.map (·.name)) :
    (registry.addProduction production).duplicates = registry.duplicates := by
  rw [addProduction, dif_neg new]

/-- A definition of a name that is taken replaces nothing. -/
theorem addProduction_productions_of_taken
    (taken : production.name ∈ registry.productions.map (·.name)) :
    (registry.addProduction production).productions = registry.productions := by
  rw [addProduction, dif_pos taken]

/-- A definition of a name that is taken is a later one. -/
theorem addProduction_duplicates_of_taken
    (taken : production.name ∈ registry.productions.map (·.name)) :
    (registry.addProduction production).duplicates = registry.duplicates ++ [production] := by
  rw [addProduction, dif_pos taken]

end

/-- The names of the productions in order. -/
def names (registry : Registry) : List String := registry.productions.map (·.name)

/-- The production of that name. -/
def production? (registry : Registry) (name : String) : Option Production :=
  registry.productions.find? (·.name == name)

/-- Whether a production of that name is defined. -/
def isDefined (registry : Registry) (name : String) : Bool := (registry.production? name).isSome

/-- Every definition, first ones before later ones. -/
def definitions (registry : Registry) : List Production :=
  registry.productions ++ registry.duplicates

/-- The node with that id, or the error that there is none. -/
def node (registry : Registry) (id : NodeId) : Except AnalysisError Node :=
  match registry.nodes[id]? with
  | some node => .ok node
  | none => .error (.unknownNode id)

end Registry

end BoundedLookahead
