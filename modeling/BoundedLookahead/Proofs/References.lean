import BoundedLookahead.Proofs.Forests

/-!
# References

A node is referred to at a site: as the root of a definition, or at a position among the
children of a node that a definition reaches. The ownership check visits each site once,
so it ends on every arena, and it refuses nothing exactly when every node it meets is in
the arena and referred to at one site. A refusal names a node that is referred to at two
sites, or at one and not in the arena.
-/

namespace BoundedLookahead

/-- A place at which a node is referred to. -/
inductive Site where
  /-- The root of the definition at that position. -/
  | root (position : Nat)
  /-- The position among the children of a node. -/
  | child (parent : NodeId) (position : Nat)
deriving DecidableEq

namespace Registry

variable {registry : Registry} {owners claimed final : Owners} {id : NodeId} {site other : Site}

/-- The site refers to the node. Only nodes that a definition reaches refer to others. -/
def Refers (registry : Registry) : Site → NodeId → Prop
  | .root position, id => (registry.definitions.map (·.root))[position]? = some id
  | .child parent position, id =>
    registry.InDefinition parent ∧ (registry.childIds parent)[position]? = some id

/-- A definition refers to its root. -/
theorem refers_root {position : Nat} {definition : Production}
    (found : registry.definitions[position]? = some definition) :
    registry.Refers (.root position) definition.root := by
  rw [Refers, List.getElem?_map, found, Option.map_some]

/-- What is referred to at a root is the root of a definition. -/
theorem Refers.exists_definition {position : Nat} (h : registry.Refers (.root position) id) :
    ∃ definition ∈ registry.definitions, definition.root = id :=
  List.mem_map.mp (List.mem_of_getElem? h)

/-- What is referred to below a node is its child. -/
theorem Refers.step {parent : NodeId} {position : Nat}
    (h : registry.Refers (.child parent position) id) : registry.Child parent id :=
  List.mem_of_getElem? h.2

/-- A node that is referred to stands in a definition. -/
theorem Refers.inDefinition (h : registry.Refers site id) : registry.InDefinition id := by
  cases site with
  | root position =>
    obtain ⟨definition, hd, rfl⟩ := h.exists_definition
    exact .root hd
  | child parent position => exact h.1.step h.step

/-- A node that stands in a definition is referred to. -/
theorem InDefinition.exists_refers (h : registry.InDefinition id) :
    ∃ site, registry.Refers site id := by
  obtain ⟨definition, hd, reached⟩ := h
  rcases reached.cases_tail with rfl | ⟨parent, above, step⟩
  · obtain ⟨position, found⟩ := List.mem_iff_getElem?.mp hd
    exact ⟨.root position, refers_root found⟩
  · obtain ⟨position, found⟩ := List.mem_iff_getElem?.mp step
    exact ⟨.child parent position, ⟨definition, hd, above⟩, found⟩

section

variable (ho : registry.owners = .ok final)

include ho

/-- Where the ownership check refuses nothing, no two definitions have one root. -/
theorem nodup_roots : (registry.definitions.map (·.root)).Nodup := by
  have forest := exists_owners_iff.mp ⟨final, ho⟩
  have first : (registry.definitions.flatMap fun definition => [definition.root]).Sublist
      (registry.definitions.flatMap fun definition => (registry.tree definition.root).ids) :=
    List.Sublist.flatMap_right _ fun definition hd => by
      rw [(forest.grounded definition hd).ids_eq_cons]
      exact List.Sublist.cons_cons _ (List.nil_sublist _)
  rw [← List.flatMap_singleton' (registry.definitions.map (·.root)), List.flatMap_map]
  exact forest.nodup.sublist first

/-- Where the ownership check refuses nothing, a node is referred to at one site only. -/
theorem Refers.unique (h : registry.Refers site id) (h' : registry.Refers other id) :
    site = other := by
  have position_eq {ids : List NodeId} (distinct : ids.Nodup) {position position' : Nat}
      (found : ids[position]? = some id) (found' : ids[position']? = some id) :
      position = position' := by
    have bound := (List.getElem?_eq_some_iff.mp found).1
    exact (List.getElem?_inj bound distinct).mp (found.trans found'.symm)
  have apart {position position' : Nat} {parent : NodeId}
      (root : registry.Refers (.root position) id)
      (child : registry.Refers (.child parent position') id) : False := by
    obtain ⟨definition, hd, he⟩ := root.exists_definition
    exact child.1.not_child_root ho hd (he ▸ child.step)
  cases site with
  | root position =>
    cases other with
    | root position' => rw [position_eq (nodup_roots ho) h h']
    | child parent' position' => exact (apart h h').elim
  | child parent position =>
    cases other with
    | root position' => exact (apart h' h).elim
    | child parent' position' =>
      obtain rfl : parent = parent' := h.1.parent_eq ho h'.1 h.step h'.step
      rw [position_eq (h.1.nodup_childIds ho) h.2 h'.2]

end

/-- What a refusal says. -/
inductive Refusal (registry : Registry) : AnalysisError → Prop
  /-- The node is referred to at two sites. -/
  | shared {id : NodeId} {site other : Site} (first : registry.Refers site id)
    (second : registry.Refers other id) (ne : site ≠ other) : Refusal registry (.sharedNode id)
  /-- The node is referred to and not in the arena. -/
  | unknown {id : NodeId} {site : Site} (refers : registry.Refers site id)
    (outside : registry.nodes.size ≤ id) : Refusal registry (.unknownNode id)

/-- What an outcome of the ownership check says. -/
def Accounts (registry : Registry) : Except AnalysisError Owners → Prop
  | .ok owners => ∀ id ∈ owners, ∃ site, registry.Refers site id
  | .error cause => registry.Refusal cause

end Registry

/-- The check has visited the site: that many definitions are entered, and the children
of every owned node that is not pending are claimed. -/
def Site.Visited (entered : Nat) (pending : List NodeId) (owners : Owners) : Site → Prop
  | .root position => position < entered
  | .child parent _ => parent ∈ owners ∧ parent ∉ pending

namespace Registry

variable {registry : Registry} {owners claimed final : Owners} {id : NodeId} {site : Site}

/-- The owners come from the sites visited so far. -/
structure Traced (registry : Registry) (entered : Nat) (pending : List NodeId) (owners : Owners) :
    Prop where
  /-- No node is pending twice. -/
  nodup : pending.Nodup
  /-- Pending nodes have an owner. -/
  waiting : ∀ id ∈ pending, id ∈ owners
  /-- An owned node is referred to at a visited site. -/
  source : ∀ id ∈ owners, ∃ site : Site, site.Visited entered pending owners ∧
    registry.Refers site id

variable {entered : Nat} {pending : List NodeId}

/-- Nodes with an owner stand in a definition. -/
theorem Traced.inDefinition (h : registry.Traced entered pending owners) (hm : id ∈ owners) :
    registry.InDefinition id := by
  obtain ⟨site, _, refers⟩ := h.source id hm
  exact refers.inDefinition

/-- Entering a definition visits its root. -/
theorem Traced.enter (h : registry.Traced entered [] owners) {definition : Production}
    (found : registry.definitions[entered]? = some definition)
    (hc : registry.claim (.production definition.name) owners definition.root = .ok claimed) :
    registry.Traced (entered + 1) [definition.root] claimed := by
  obtain ⟨_, fresh, rfl⟩ := claim_ok_iff.mp hc
  have mem (id : NodeId) : id ∈ owners.insert definition.root (.production definition.name) ↔
      definition.root = id ∨ id ∈ owners := by
    rw [Std.ExtTreeMap.mem_insert, Nat.compare_eq_eq]
  refine ⟨List.nodup_singleton _, ?_, fun id hm => ?_⟩
  · intro id hm
    exact (mem id).mpr (.inl (List.mem_singleton.mp hm).symm)
  · rcases (mem id).mp hm with rfl | owned
    · exact ⟨.root entered, Nat.lt_succ_self entered, refers_root found⟩
    · obtain ⟨site, visited, refers⟩ := h.source id owned
      refine ⟨site, ?_, refers⟩
      cases site with
      | root position => exact Nat.lt_succ_of_lt visited
      | child parent position =>
        refine ⟨(mem parent).mpr (.inr visited.1), fun waits => fresh ?_⟩
        exact List.mem_singleton.mp waits ▸ visited.1

/-- Claiming the children of a pending node visits them. -/
theorem Traced.settle (h : registry.Traced entered (id :: pending) owners)
    (hc : (registry.childIds id).foldlM (registry.claim (.node id)) owners = .ok claimed) :
    registry.Traced entered ((registry.childIds id).reverse ++ pending) claimed := by
  have given := claimAll_given hc
  have mem := (claimAll_ok hc).mem
  have ⟨apart, distinct⟩ := List.nodup_cons.mp h.nodup
  have ⟨owned, waiting⟩ := List.forall_mem_cons.mp h.waiting
  have stays (node : NodeId) (before : node ∈ owners) (settled : node ∉ pending) :
      node ∈ claimed ∧ node ∉ (registry.childIds id).reverse ++ pending := by
    refine ⟨(mem node).mpr (.inl before), fun waits => ?_⟩
    rcases List.mem_append.mp waits with hm | hm
    · exact given.fresh node (List.mem_reverse.mp hm) before
    · exact settled hm
  refine ⟨?_, fun node hm => ?_, fun node hm => ?_⟩
  · refine List.nodup_append.mpr ⟨List.nodup_reverse.mpr given.nodup, distinct, ?_⟩
    intro child hchild node hnode he
    exact given.fresh child (List.mem_reverse.mp hchild) (he ▸ waiting node hnode)
  · rcases List.mem_append.mp hm with hm | hm
    · exact (mem node).mpr (.inr (List.mem_reverse.mp hm))
    · exact (mem node).mpr (.inl (waiting node hm))
  · rcases (mem node).mp hm with before | hchild
    · obtain ⟨site, visited, refers⟩ := h.source node before
      refine ⟨site, ?_, refers⟩
      cases site with
      | root position => exact visited
      | child parent position =>
        exact stays parent visited.1 fun hm => visited.2 (List.mem_cons_of_mem _ hm)
    · obtain ⟨position, found⟩ := List.mem_iff_getElem?.mp hchild
      exact ⟨.child id position, stays id owned apart, h.inDefinition owned, found⟩

/-- A definition whose root cannot be claimed accounts for the refusal. -/
theorem Traced.refuse (h : registry.Traced entered [] owners) {definition : Production}
    {cause : AnalysisError} (found : registry.definitions[entered]? = some definition)
    (hc : registry.claim (.production definition.name) owners definition.root = .error cause) :
    registry.Refusal cause := by
  rcases claim_error hc with ⟨rfl, outside⟩ | ⟨rfl, owned⟩
  · exact .unknown (refers_root found) outside
  · obtain ⟨site, visited, refers⟩ := h.source _ owned
    refine .shared refers (refers_root found) fun same => ?_
    rw [same] at visited
    exact Nat.lt_irrefl entered visited

/-- A pending node whose children cannot be claimed accounts for the refusal. -/
theorem Traced.stop (h : registry.Traced entered (id :: pending) owners) {cause : AnalysisError}
    (hc : (registry.childIds id).foldlM (registry.claim (.node id)) owners = .error cause) :
    registry.Refusal cause := by
  have inside := h.inDefinition (h.waiting id List.mem_cons_self)
  obtain ⟨position, child, found, refusal⟩ := claimAll_error hc
  have refers : registry.Refers (.child id position) child := ⟨inside, found⟩
  rcases refusal with ⟨rfl, outside⟩ | ⟨rfl, owned | ⟨earlier, before, found'⟩⟩
  · exact .unknown refers outside
  · obtain ⟨site, visited, refers'⟩ := h.source child owned
    refine .shared refers' refers fun same => ?_
    rw [same] at visited
    exact visited.2 List.mem_cons_self
  · have refers' : registry.Refers (.child id earlier) child := ⟨inside, found'⟩
    refine .shared refers' refers fun same => ?_
    cases same
    exact Nat.lt_irrefl _ before

/-- A run of the ownership check accounts for its outcome. -/
theorem OwnershipRun.accounts {definitions : List Production}
    {outcome : Except AnalysisError Owners}
    (run : OwnershipRun registry definitions pending owners outcome)
    (rest : registry.definitions.drop entered = definitions)
    (h : registry.Traced entered pending owners) : registry.Accounts outcome := by
  have next {definition : Production} {definitions : List Production} {entered : Nat}
      (rest : registry.definitions.drop entered = definition :: definitions) :
      registry.definitions[entered]? = some definition := by
    rw [← Nat.add_zero entered, ← List.getElem?_drop, rest, List.getElem?_cons_zero]
  induction run generalizing entered with
  | finished =>
    intro id hm
    obtain ⟨site, _, refers⟩ := h.source id hm
    exact ⟨site, refers⟩
  | refused hc => exact h.refuse (next rest) hc
  | entered hc _ ih =>
    refine ih ?_ (h.enter (next rest) hc)
    rw [← List.tail_drop, rest, List.tail_cons]
  | stopped hc => exact h.stop hc
  | settled hc _ ih => exact ih rest (h.settle hc)

/-- The ownership check accounts for its outcome. -/
theorem accounts_owners (registry : Registry) : registry.Accounts registry.owners := by
  have start : registry.Traced 0 [] ∅ :=
    ⟨List.nodup_nil, by simp, fun id hm => absurd hm Std.ExtTreeMap.not_mem_empty⟩
  exact registry.owners_run.accounts rfl start

/-- What the owners say. -/
structure Charted (registry : Registry) (owners : Owners) : Prop where
  /-- The owned nodes are those that a definition reaches. -/
  mem : ∀ id, id ∈ owners ↔ registry.InDefinition id
  /-- A node is owned by the node that has it among its children. -/
  node : ∀ parent child, owners[child]? = some (.node parent) ↔
    registry.InDefinition parent ∧ registry.Child parent child
  /-- A root is owned by the production it defines. -/
  production : ∀ name id, owners[id]? = some (.production name) ↔
    ∃ definition ∈ registry.definitions, definition.name = name ∧ definition.root = id

/-- Where the ownership check refuses nothing, that is what the owners say. -/
theorem charted_of_owners (ho : registry.owners = .ok final) : registry.Charted final := by
  have mem (id : NodeId) : id ∈ final ↔ registry.InDefinition id := by
    constructor
    · intro owned
      have accounts := registry.accounts_owners
      rw [ho] at accounts
      obtain ⟨site, refers⟩ := accounts id owned
      exact refers.inDefinition
    · exact fun inside => inside.mem_owners ho
  have inside {id : NodeId} {owner : Owner} (h : final[id]? = some owner) :
      registry.InDefinition id := by
    rw [← mem, Std.ExtTreeMap.mem_iff_isSome_getElem?, h]
    rfl
  refine ⟨mem, fun parent child => ⟨fun h => ?_, fun h => h.1.owner_child ho h.2⟩,
    fun name id => ⟨fun h => ?_, ?_⟩⟩
  · obtain ⟨site, refers⟩ := (inside h).exists_refers
    cases site with
    | root position =>
      obtain ⟨definition, hd, rfl⟩ := refers.exists_definition
      have owner := (owner_root ho hd).symm.trans h
      simp at owner
    | child parent' position =>
      have owner := (refers.1.owner_child ho refers.step).symm.trans h
      obtain rfl : parent' = parent := by simpa using owner
      exact ⟨refers.1, refers.step⟩
  · obtain ⟨site, refers⟩ := (inside h).exists_refers
    cases site with
    | root position =>
      obtain ⟨definition, hd, rfl⟩ := refers.exists_definition
      have owner := (owner_root ho hd).symm.trans h
      exact ⟨definition, hd, by simpa using owner, rfl⟩
    | child parent position =>
      have owner := (refers.1.owner_child ho refers.step).symm.trans h
      simp at owner
  · rintro ⟨definition, hd, rfl, rfl⟩
    exact owner_root ho hd

/-- The ownership check ends on every arena. It refuses nothing exactly when every node it
meets is in the arena and referred to at one site; then the owners are what refers to the
nodes. Else it names a node that is referred to at two sites, or one that is referred to
and not in the arena. -/
theorem owners_exact (registry : Registry) :
    OwnershipRun registry registry.definitions [] ∅ registry.owners ∧
      ((∃ owners, registry.owners = .ok owners) ↔ ∀ id, registry.InDefinition id →
        id < registry.nodes.size ∧ ∃! site, registry.Refers site id) ∧
      (∀ owners, registry.owners = .ok owners → registry.Charted owners) ∧
      ∀ cause, registry.owners = .error cause → registry.Refusal cause := by
  have refused (cause : AnalysisError) (h : registry.owners = .error cause) :
      registry.Refusal cause := by
    have accounts := registry.accounts_owners
    rwa [h] at accounts
  refine ⟨registry.owners_run, ⟨?_, fun single => ?_⟩, fun _ ho => charted_of_owners ho, refused⟩
  · rintro ⟨owners, ho⟩ id inside
    obtain ⟨site, refers⟩ := inside.exists_refers
    refine ⟨?_, site, refers, fun other refers' => refers'.unique ho refers⟩
    obtain ⟨definition, hd, reached⟩ := inside
    exact ((grounded_of_owners ho hd).of_reaches reached).lt_size
  · cases ho : registry.owners with
    | ok owners => exact ⟨owners, rfl⟩
    | error cause =>
      cases refused cause ho with
      | shared first second ne => exact absurd ((single _ first.inDefinition).2.unique first second) ne
      | unknown refers outside =>
        exact absurd (single _ refers.inDefinition).1 (Nat.not_lt_of_le outside)

end Registry

end BoundedLookahead
