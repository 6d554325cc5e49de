import BoundedLookahead.Proofs.OwnershipRun
import Mathlib.Data.List.Nodup

/-!
# Parents

Where the ownership check refuses nothing, the owner of a node is what references
it, and nothing else does. So a node of a production has one parent and is listed
once among its children, a root has none, and every node stands in the tree of one
production, in one place.
-/

namespace BoundedLookahead

/-- The ids of the tree and of everything below it, a parent before its children. -/
def Tree.ids (tree : Tree) : List NodeId := tree.subtrees.map Tree.id

/-- The ids of a node are its own and those of its children. -/
theorem Tree.ids_node (id : NodeId) (location : Location) (expansion : Expansion Tree) :
    (Tree.node id location expansion).ids = id :: expansion.children.flatMap ids := by
  unfold ids
  rw [subtrees_eq, List.map_cons, List.map_flatMap]
  rfl

namespace Registry

variable {registry : Registry} {owner : Owner} {owners claimed final : Owners} {id : NodeId}

/-- What claiming several nodes in turn does to the owners. -/
structure GivenAll (ids : List NodeId) (owner : Owner) (owners claimed : Owners) : Prop where
  /-- None of them is claimed twice. -/
  nodup : ids.Nodup
  /-- None of them had an owner. -/
  fresh : ∀ id ∈ ids, id ∉ owners
  /-- Each of them gets the owner. -/
  given : ∀ id ∈ ids, claimed[id]? = some owner
  /-- Every other node keeps its own. -/
  kept : ∀ id ∉ ids, claimed[id]? = owners[id]?

/-- Claiming several nodes in turn does that. -/
theorem claimAll_given {ids : List NodeId}
    (h : ids.foldlM (registry.claim owner) owners = .ok claimed) :
    GivenAll ids owner owners claimed := by
  induction ids generalizing owners with
  | nil =>
    obtain rfl : owners = claimed := by simpa [pure, Except.pure] using h
    exact ⟨List.nodup_nil, by simp, by simp, fun _ _ => rfl⟩
  | cons first ids ih =>
    rw [List.foldlM_cons] at h
    cases hc : registry.claim owner owners first with
    | error cause => rw [hc] at h; cases h
    | ok next =>
      rw [hc] at h
      have claim := claim_ok_iff.mp hc
      have hnext : next = owners.insert first owner := claim.2.2
      have rest := ih h
      have others : first ∉ ids := fun hm => by
        have := rest.fresh first hm
        rw [hnext, Std.ExtTreeMap.mem_insert] at this
        exact this (.inl (Nat.compare_eq_eq.mpr rfl))
      have insert (id : NodeId) : next[id]? = if first = id then some owner else owners[id]? := by
        rw [hnext, Std.ExtTreeMap.getElem?_insert]
        simp only [Nat.compare_eq_eq]
      refine ⟨List.nodup_cons.mpr ⟨others, rest.nodup⟩, ?_, ?_, fun id hid => ?_⟩
      · refine List.forall_mem_cons.mpr ⟨claim.2.1, fun id hm howned => rest.fresh id hm ?_⟩
        rw [hnext, Std.ExtTreeMap.mem_insert]
        exact .inr howned
      · refine List.forall_mem_cons.mpr ⟨?_, rest.given⟩
        rw [rest.kept first others, insert, if_pos rfl]
      · have hne : first ≠ id := fun he => hid (he ▸ List.mem_cons_self)
        have hrest : id ∉ ids := fun hm => hid (List.mem_cons_of_mem _ hm)
        rw [rest.kept id hrest, insert, if_neg hne]

/-- A node that had an owner keeps it while others are claimed. -/
theorem GivenAll.keeps {ids : List NodeId} (h : GivenAll ids owner owners claimed) {own : Owner}
    (ho : owners[id]? = some own) : claimed[id]? = some own := by
  have owned : id ∈ owners := by
    rw [Std.ExtTreeMap.mem_iff_isSome_getElem?, ho]
    rfl
  rw [h.kept id fun hm => h.fresh id hm owned, ho]

/-- Every owned node that is not pending owns its children, each once. -/
def Owned (registry : Registry) (pending : List NodeId) (owners : Owners) : Prop :=
  ∀ id ∈ owners, id ∈ pending ∨ (registry.childIds id).Nodup ∧
    ∀ child ∈ registry.childIds id, owners[child]? = some (.node id)

/-- A run that refuses nothing takes no owner away, makes every owned node the owner
of its children and every definition the owner of its root. -/
theorem OwnershipRun.owned {definitions : List Production} {pending : List NodeId}
    {outcome : Except AnalysisError Owners}
    (run : OwnershipRun registry definitions pending owners outcome)
    (h : registry.Owned pending owners) (hf : outcome = .ok final) :
    (∀ (id : NodeId) (own : Owner), owners[id]? = some own → final[id]? = some own) ∧
      registry.Owned [] final ∧
      ∀ definition ∈ definitions, final[definition.root]? = some (.production definition.name) := by
  induction run with
  | finished =>
    cases hf
    exact ⟨fun _ _ ho => ho, h, by simp⟩
  | refused _ => cases hf
  | stopped _ => cases hf
  | @entered definition definitions owners claimed outcome hc rest ih =>
    have one : [definition.root].foldlM (registry.claim (.production definition.name)) owners =
        .ok claimed := by
      simp [hc]
    have given := claimAll_given one
    have next : registry.Owned [definition.root] claimed := by
      intro id hm
      by_cases he : id ∈ [definition.root]
      · exact .inl he
      · rw [Std.ExtTreeMap.mem_iff_isSome_getElem?, given.kept id he,
          ← Std.ExtTreeMap.mem_iff_isSome_getElem?] at hm
        have settled := (h id hm).resolve_left List.not_mem_nil
        exact .inr ⟨settled.1, fun child hchild => given.keeps (settled.2 child hchild)⟩
    obtain ⟨kept, owned, roots⟩ := ih next hf
    refine ⟨fun id own ho => kept id own (given.keeps ho), owned, ?_⟩
    exact List.forall_mem_cons.mpr
      ⟨kept _ _ (given.given definition.root List.mem_cons_self), roots⟩
  | @settled definitions parent pending owners claimed outcome hc rest ih =>
    have given := claimAll_given hc
    have next : registry.Owned ((registry.childIds parent).reverse ++ pending) claimed := by
      intro id hm
      by_cases he : id ∈ registry.childIds parent
      · exact .inl (List.mem_append_left _ (List.mem_reverse.mpr he))
      · rw [Std.ExtTreeMap.mem_iff_isSome_getElem?, given.kept id he,
          ← Std.ExtTreeMap.mem_iff_isSome_getElem?] at hm
        rcases h id hm with hp | settled
        · rcases List.mem_cons.mp hp with rfl | hp
          · exact .inr ⟨given.nodup, given.given⟩
          · exact .inl (List.mem_append_right _ hp)
        · exact .inr ⟨settled.1, fun child hchild => given.keeps (settled.2 child hchild)⟩
    obtain ⟨kept, owned, roots⟩ := ih next hf
    exact ⟨fun id own ho => kept id own (given.keeps ho), owned, roots⟩

section

variable (ho : registry.owners = .ok final)

include ho

/-- At the end every owned node owns its children, and every definition its root. -/
theorem owned_of_owners : registry.Owned [] final ∧ ∀ definition ∈ registry.definitions,
    final[definition.root]? = some (.production definition.name) := by
  have start : registry.Owned [] ∅ := fun id hm => absurd hm Std.ExtTreeMap.not_mem_empty
  exact (registry.owners_run.owned start ho).2

/-- A definition owns its root. -/
theorem owner_root {definition : Production} (hd : definition ∈ registry.definitions) :
    final[definition.root]? = some (.production definition.name) :=
  (owned_of_owners ho).2 definition hd

/-- Every node of a definition has an owner. -/
theorem InDefinition.mem_owners (inside : registry.InDefinition id) : id ∈ final := by
  have owned {node : NodeId} {own : Owner} (h : final[node]? = some own) : node ∈ final := by
    rw [Std.ExtTreeMap.mem_iff_isSome_getElem?, h]
    rfl
  obtain ⟨definition, hd, reached⟩ := inside
  induction reached with
  | refl => exact owned (owner_root ho hd)
  | tail _ step ih =>
    have settled := ((owned_of_owners ho).1 _ ih).resolve_left List.not_mem_nil
    exact owned (settled.2 _ step)

/-- A node of a definition owns its children. -/
theorem InDefinition.owner_child (inside : registry.InDefinition id) {child : NodeId}
    (hc : registry.Child id child) : final[child]? = some (.node id) :=
  (((owned_of_owners ho).1 id (inside.mem_owners ho)).resolve_left List.not_mem_nil).2 child hc

/-- A node of a definition lists each of its children once. -/
theorem InDefinition.nodup_childIds (inside : registry.InDefinition id) :
    (registry.childIds id).Nodup :=
  (((owned_of_owners ho).1 id (inside.mem_owners ho)).resolve_left List.not_mem_nil).1

/-- A node of a production lists each of its children once. -/
theorem InProduction.nodup_childIds (inside : registry.InProduction id) :
    (registry.childIds id).Nodup :=
  inside.inDefinition.nodup_childIds ho

/-- A node of a definition has one parent. -/
theorem InDefinition.parent_eq {parent other child : NodeId} (hp : registry.InDefinition parent)
    (hq : registry.InDefinition other) (hc : registry.Child parent child)
    (hc' : registry.Child other child) : parent = other := by
  have same := (hp.owner_child ho hc).symm.trans (hq.owner_child ho hc')
  simpa using same

/-- The root of a definition has no parent. -/
theorem InDefinition.not_child_root {parent : NodeId} (inside : registry.InDefinition parent)
    {definition : Production} (hd : definition ∈ registry.definitions) :
    ¬registry.Child parent definition.root := by
  intro hc
  have same := (inside.owner_child ho hc).symm.trans (owner_root ho hd)
  simp at same

/-- A node of a production has one parent. -/
theorem InProduction.parent_eq {parent other child : NodeId} (hp : registry.InProduction parent)
    (hq : registry.InProduction other) (hc : registry.Child parent child)
    (hc' : registry.Child other child) : parent = other :=
  hp.inDefinition.parent_eq ho hq.inDefinition hc hc'

/-- The root of a production has no parent. -/
theorem InProduction.not_child_root {parent : NodeId} (inside : registry.InProduction parent)
    {production : Production} (hp : production ∈ registry.productions) :
    ¬registry.Child parent production.root :=
  inside.inDefinition.not_child_root ho (List.mem_append_left _ hp)

/-- A node stands in one production only. -/
theorem production_eq_of_reaches {production other : Production}
    (hp : production ∈ registry.productions) (hq : other ∈ registry.productions)
    (reached : registry.Reaches production.root id) (reached' : registry.Reaches other.root id) :
    production = other := by
  induction reached with
  | refl =>
    rcases reached'.cases_tail with he | ⟨parent, hparent, step⟩
    · have owner := owner_root ho (List.mem_append_left _ hp)
      have same := owner.symm.trans (he ▸ owner_root ho (List.mem_append_left _ hq))
      have names : production.name = other.name := by simpa using same
      exact List.inj_on_of_nodup_map registry.names_nodup hp hq names
    · exact absurd step (InProduction.not_child_root ho ⟨other, hq, hparent⟩ hp)
  | @tail parent child hparent step ih =>
    rcases reached'.cases_tail with he | ⟨parent', hparent', step'⟩
    · exact absurd (he ▸ step) (InProduction.not_child_root ho ⟨production, hp, hparent⟩ hq)
    · have same : parent = parent' :=
        InProduction.parent_eq ho ⟨production, hp, hparent⟩ ⟨other, hq, hparent'⟩ step step'
      exact ih (same ▸ hparent')

/-- Of two nodes above the same node, one is above the other. -/
theorem InProduction.reaches_or_reaches {upper other : NodeId} (hp : registry.InProduction upper)
    (hq : registry.InProduction other) (reached : registry.Reaches upper id)
    (reached' : registry.Reaches other id) :
    registry.Reaches upper other ∨ registry.Reaches other upper := by
  induction reached with
  | refl => exact .inr reached'
  | @tail parent child hparent step ih =>
    rcases reached'.cases_tail with rfl | ⟨parent', hparent', step'⟩
    · exact .inl (hparent.tail step)
    · have below {node inner : NodeId} (h : registry.InProduction node)
          (hr : registry.Reaches node inner) : registry.InProduction inner := by
        obtain ⟨production, hmem, hroot⟩ := h
        exact ⟨production, hmem, hroot.trans hr⟩
      have same : parent = parent' :=
        InProduction.parent_eq ho (below hp hparent) (below hq hparent') step step'
      exact ih (same ▸ hparent')

end

/-- A grounded node is not below itself. -/
theorem Grounded.not_transGen (h : registry.Grounded id) :
    ¬Relation.TransGen registry.Child id id := by
  induction h with
  | @node id entry found below ih =>
    intro cycle
    obtain ⟨child, step, back⟩ := Relation.TransGen.head'_iff.mp cycle
    have hc : child ∈ entry.expansion.children := by
      have he : registry.expansion? id = some entry.expansion := by simp [expansion?, found]
      rwa [Child, childIds_eq he] at step
    exact ih child hc (Relation.TransGen.tail' back step)

/-- The ids of the tree of a grounded node are those of the nodes below it. -/
theorem Grounded.mem_ids (h : registry.Grounded id) {node : NodeId} :
    node ∈ (registry.tree id).ids ↔ registry.Reaches id node := by
  rw [Tree.ids, List.mem_map]
  constructor
  · rintro ⟨below, hb, rfl⟩
    obtain ⟨child, hr, rfl⟩ := h.mem_subtrees.mp hb
    rwa [(h.of_reaches hr).tree_id]
  · intro hr
    exact ⟨registry.tree node, h.mem_subtrees.mpr ⟨node, hr, rfl⟩, (h.of_reaches hr).tree_id⟩

/-- The ids of the tree of a node are its own and those of the trees of its children. -/
theorem Grounded.ids_eq {expansion : Expansion NodeId} (h : registry.Grounded id)
    (he : registry.expansion? id = some expansion) :
    (registry.tree id).ids = id :: expansion.children.flatMap fun child => (registry.tree child).ids := by
  obtain ⟨location, ht⟩ := h.exists_tree_eq he
  rw [ht, Tree.ids_node, Expansion.children_map, List.flatMap_map]

section

variable (ho : registry.owners = .ok final)

include ho

/-- No node occurs twice in the tree of a node of a production. -/
theorem InProduction.nodup_ids (inside : registry.InProduction id) :
    (registry.tree id).ids.Nodup := by
  have grounded := inside.grounded ho
  induction grounded with
  | @node id entry found below ih =>
    have he : registry.expansion? id = some entry.expansion := by simp [expansion?, found]
    have hg : registry.Grounded id := .node found below
    have child {node : NodeId} (hc : node ∈ entry.expansion.children) : registry.Child id node := by
      rwa [Child, childIds_eq he]
    have within {node : NodeId} (hc : node ∈ entry.expansion.children) :
        registry.InProduction node := inside.of_child he hc
    -- a node below two children would put one of them below the other, and so below itself
    have apart {first second : NodeId} (hf : first ∈ entry.expansion.children)
        (hs : second ∈ entry.expansion.children) (hne : first ≠ second)
        (above : registry.Reaches first second) : False := by
      rcases above.cases_tail with he | ⟨parent, hparent, step⟩
      · exact hne he.symm
      · have inner : registry.InProduction parent := by
          obtain ⟨production, hp, hroot⟩ := within hf
          exact ⟨production, hp, hroot.trans hparent⟩
        have same : parent = id := inner.parent_eq ho inside step (child hs)
        exact hg.not_transGen (.head' (child hf) (same ▸ hparent))
    have disjoint {first second : NodeId} (hf : first ∈ entry.expansion.children)
        (hs : second ∈ entry.expansion.children) (hne : first ≠ second) :
        List.Disjoint (registry.tree first).ids (registry.tree second).ids := by
      intro node hn hn'
      have reached := (below first hf).mem_ids.mp hn
      have reached' := (below second hs).mem_ids.mp hn'
      rcases (within hf).reaches_or_reaches ho (within hs) reached reached' with above | above
      · exact apart hf hs hne above
      · exact apart hs hf hne.symm above
    have distinct : entry.expansion.children.Nodup := by
      have := inside.nodup_childIds ho
      rwa [childIds_eq he] at this
    rw [hg.ids_eq he, List.nodup_cons, List.nodup_flatMap]
    refine ⟨fun hm => ?_, fun node hc => ih node hc (within hc), ?_⟩
    · obtain ⟨node, hc, hm⟩ := List.mem_flatMap.mp hm
      exact hg.not_transGen (.head' (child hc) ((below node hc).mem_ids.mp hm))
    · exact List.Pairwise.imp_of_mem (fun {_ _} hf hs hne => disjoint hf hs hne) distinct

/-- No node occurs twice in the trees of the productions. -/
theorem nodup_ids_rules : (registry.rules.flatMap fun rule => rule.tree.ids).Nodup := by
  have grounded {production : Production} (hp : production ∈ registry.productions) :
      registry.Grounded production.root := grounded_production ho _ hp
  have distinct : registry.productions.Nodup := registry.names_nodup.of_map _
  have trees : registry.rules.flatMap (fun rule => rule.tree.ids) =
      registry.productions.flatMap fun production => (registry.tree production.root).ids :=
    List.flatMap_map _ _ _
  rw [trees, List.nodup_flatMap]
  refine ⟨fun production hp => (InProduction.root hp).nodup_ids ho, ?_⟩
  refine List.Pairwise.imp_of_mem (fun {first second} hf hs hne => ?_) distinct
  intro node hn hn'
  exact hne (production_eq_of_reaches ho hf hs ((grounded hf).mem_ids.mp hn)
    ((grounded hs).mem_ids.mp hn'))

end

end Registry

end BoundedLookahead
