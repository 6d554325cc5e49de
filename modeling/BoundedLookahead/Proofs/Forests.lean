import BoundedLookahead.Proofs.Parents
import Mathlib.Data.List.Flatten
import Mathlib.Data.List.Perm.Basic

/-!
# Forests

The ownership check refuses nothing exactly when what the definitions reach is a
forest: every definition is grounded, and in the trees of all definitions together no
node occurs twice. In which order the check meets the nodes has no part in that.
-/

namespace BoundedLookahead

namespace Registry

variable {registry : Registry} {owner : Owner} {owners claimed : Owners} {id : NodeId}

/-- What the definitions reach is a forest. -/
structure IsForest (registry : Registry) : Prop where
  /-- Below a definition lie finitely many nodes, all of the arena. -/
  grounded : ∀ definition ∈ registry.definitions, registry.Grounded definition.root
  /-- No node occurs twice. -/
  nodup : (registry.definitions.flatMap fun definition => (registry.tree definition.root).ids).Nodup

/-- The ids of the trees of the children of a node. -/
def idsBelow (registry : Registry) (id : NodeId) : List NodeId :=
  (registry.childIds id).flatMap fun child => (registry.tree child).ids

/-- The ids of the tree of a grounded node are its own and those below it. -/
theorem Grounded.ids_eq_cons (h : registry.Grounded id) :
    (registry.tree id).ids = id :: registry.idsBelow id := by
  obtain ⟨expansion, he, _⟩ := h.exists_expansion
  rw [h.ids_eq he, idsBelow, childIds_eq he]

/-- The children of a grounded node are grounded. -/
theorem Grounded.of_child {child : NodeId} (h : registry.Grounded id)
    (hc : child ∈ registry.childIds id) : registry.Grounded child :=
  h.of_reaches (.single hc)

/-- A grounded node is in the arena. -/
theorem Grounded.lt_size (h : registry.Grounded id) : id < registry.nodes.size := by
  cases h with
  | node found _ => exact (Array.getElem?_eq_some_iff.mp found).1

/-- Grounded nodes come first in their trees. -/
theorem flatMap_ids_perm {ids : List NodeId} (grounded : ∀ id ∈ ids, registry.Grounded id) :
    (ids.flatMap fun id => (registry.tree id).ids).Perm (ids ++ ids.flatMap registry.idsBelow) := by
  have split : (ids.flatMap fun id => (registry.tree id).ids) =
      ids.flatMap fun id => [id] ++ registry.idsBelow id :=
    List.flatMap_congr fun id hm => (grounded id hm).ids_eq_cons
  rw [split]
  have := List.flatMap_append_perm ids (fun id => [id]) registry.idsBelow
  rw [List.flatMap_singleton'] at this
  exact this.symm

/-- Nodes of the arena can be claimed in turn when they are different and have no owner. -/
theorem exists_claimAll {ids : List NodeId} (known : ∀ id ∈ ids, id < registry.nodes.size)
    (distinct : ids.Nodup) (fresh : ∀ id ∈ ids, id ∉ owners) :
    ∃ claimed, ids.foldlM (registry.claim owner) owners = .ok claimed := by
  induction ids generalizing owners with
  | nil => exact ⟨owners, rfl⟩
  | cons first ids ih =>
    rw [List.forall_mem_cons] at known fresh
    rw [List.nodup_cons] at distinct
    have hc : registry.claim owner owners first = .ok (owners.insert first owner) :=
      claim_ok_iff.mpr ⟨known.1, fresh.1, rfl⟩
    rw [List.foldlM_cons, hc]
    refine ih known.2 distinct.2 fun id hm howned => ?_
    rw [Std.ExtTreeMap.mem_insert, Nat.compare_eq_eq] at howned
    rcases howned with rfl | howned
    · exact distinct.1 hm
    · exact fresh.2 id hm howned

/-- Nodes in a row are different from each other and have no owner. -/
structure Unowned (owners : Owners) (ids : List NodeId) : Prop where
  /-- None occurs twice. -/
  nodup : ids.Nodup
  /-- None has an owner. -/
  fresh : ∀ id ∈ ids, id ∉ owners

/-- Only the members matter, and how often they occur. -/
theorem Unowned.perm {ids others : List NodeId} (h : Unowned owners ids) (hp : ids.Perm others) :
    Unowned owners others :=
  ⟨hp.nodup_iff.mp h.nodup, fun id hm => h.fresh id (hp.mem_iff.mpr hm)⟩

/-- The first of the nodes of a row can go before the others or into the owners. -/
theorem unowned_append_iff {ids rest : List NodeId} (here : Unowned owners ids)
    (mem : ∀ id, id ∈ claimed ↔ id ∈ owners ∨ id ∈ ids) :
    Unowned owners (ids ++ rest) ↔ Unowned claimed rest := by
  constructor
  · rintro ⟨nodup, fresh⟩
    obtain ⟨_, distinct, apart⟩ := List.nodup_append.mp nodup
    refine ⟨distinct, fun id hm howned => ?_⟩
    rcases (mem id).mp howned with howned | hids
    · exact fresh id (List.mem_append_right _ hm) howned
    · exact apart id hids id hm rfl
  · rintro ⟨distinct, fresh⟩
    refine ⟨List.nodup_append.mpr ⟨here.nodup, distinct, fun id hids other hm he => ?_⟩, ?_⟩
    · exact fresh other hm ((mem other).mpr (.inr (he ▸ hids)))
    · refine List.forall_mem_append.mpr ⟨here.fresh, fun id hm howned => ?_⟩
      exact fresh id hm ((mem id).mpr (.inl howned))

/-- The nodes that a run of the ownership check has still to claim. -/
def toClaim (registry : Registry) (definitions : List Production) (pending : List NodeId) :
    List NodeId :=
  pending.flatMap registry.idsBelow ++
    definitions.flatMap fun definition => (registry.tree definition.root).ids

/-- On grounded nodes the ownership check refuses nothing exactly when the nodes it has
still to claim are different and have no owner. -/
theorem OwnershipRun.ok_iff {definitions : List Production} {pending : List NodeId}
    {outcome : Except AnalysisError Owners}
    (run : OwnershipRun registry definitions pending owners outcome)
    (roots : ∀ definition ∈ definitions, registry.Grounded definition.root)
    (grounded : ∀ id ∈ pending, registry.Grounded id) :
    (∃ final, outcome = .ok final) ↔ Unowned owners (registry.toClaim definitions pending) := by
  induction run with
  | @finished owners => exact ⟨fun _ => ⟨List.nodup_nil, by simp [toClaim]⟩, fun _ => ⟨owners, rfl⟩⟩
  | @refused definition definitions owners cause h =>
    refine ⟨fun ⟨_, he⟩ => (nomatch he), fun unowned => ?_⟩
    have root := roots definition List.mem_cons_self
    have first : definition.root ∈ registry.toClaim (definition :: definitions) [] := by
      simp [toClaim, root.ids_eq_cons]
    have ok : registry.claim (.production definition.name) owners definition.root = .ok _ :=
      claim_ok_iff.mpr ⟨root.lt_size, unowned.fresh _ first, rfl⟩
    rw [h] at ok
    cases ok
  | @entered definition definitions owners claimed outcome h rest ih =>
    obtain ⟨_, fresh, rfl⟩ := claim_ok_iff.mp h
    rw [List.forall_mem_cons] at roots
    rw [ih roots.2 (by simpa using roots.1)]
    have row : registry.toClaim (definition :: definitions) [] =
        [definition.root] ++ registry.toClaim definitions [definition.root] := by
      simp [toClaim, roots.1.ids_eq_cons]
    rw [row]
    refine (unowned_append_iff ⟨List.nodup_singleton _, by simpa using fresh⟩ fun id => ?_).symm
    rw [Std.ExtTreeMap.mem_insert, Nat.compare_eq_eq, List.mem_singleton, eq_comm, or_comm]
  | @stopped definitions id pending owners cause h =>
    refine ⟨fun ⟨_, he⟩ => (nomatch he), fun unowned => ?_⟩
    rw [List.forall_mem_cons] at grounded
    have children child (hc : child ∈ registry.childIds id) := grounded.1.of_child hc
    have above : (registry.childIds id).Sublist (registry.toClaim definitions (id :: pending)) := by
      have own : ((registry.childIds id).flatMap fun child => [child]).Sublist
          (registry.idsBelow id) :=
        List.Sublist.flatMap_right _ fun child hc => by
          rw [(children child hc).ids_eq_cons]
          exact List.Sublist.cons_cons child (List.nil_sublist _)
      rw [List.flatMap_singleton'] at own
      rw [toClaim, List.flatMap_cons, List.append_assoc]
      exact own.trans (List.sublist_append_left _ _)
    obtain ⟨claimed, ok⟩ := exists_claimAll (fun child hc => (children child hc).lt_size)
      (unowned.nodup.sublist above) (fun child hc => unowned.fresh child (above.subset hc))
    rw [h] at ok
    cases ok
  | @settled definitions id pending owners claimed outcome h rest ih =>
    rw [List.forall_mem_cons] at grounded
    have children child (hc : child ∈ registry.childIds id) := grounded.1.of_child hc
    have given := claimAll_given h
    have row : (registry.toClaim definitions (id :: pending)).Perm
        (registry.childIds id ++
          registry.toClaim definitions ((registry.childIds id).reverse ++ pending)) := by
      have turned := (List.reverse_perm (registry.childIds id)).flatMap_right registry.idsBelow
      have first := (flatMap_ids_perm children).trans (turned.symm.append_left _)
      unfold toClaim
      rw [List.flatMap_cons, List.flatMap_append, List.append_assoc, List.append_assoc]
      rw [← List.append_assoc (registry.childIds id)]
      exact first.append_right _
    rw [ih roots ?_, ← unowned_append_iff ⟨given.nodup, given.fresh⟩ (claimAll_ok h).mem]
    · exact ⟨fun unowned => unowned.perm row.symm, fun unowned => unowned.perm row⟩
    · intro other hm
      rw [List.mem_append, List.mem_reverse] at hm
      exact hm.elim (children other) (grounded.2 other)

/-- The ownership check refuses nothing exactly when what the definitions reach is a
forest. -/
theorem exists_owners_iff : (∃ final, registry.owners = .ok final) ↔ registry.IsForest := by
  constructor
  · intro ok
    have grounded : ∀ definition ∈ registry.definitions, registry.Grounded definition.root := by
      obtain ⟨final, ho⟩ := ok
      exact fun definition hd => grounded_of_owners ho hd
    exact ⟨grounded, ((registry.owners_run.ok_iff grounded (by simp)).mp ok).nodup⟩
  · intro forest
    refine (registry.owners_run.ok_iff forest.grounded (by simp)).mpr ⟨forest.nodup, ?_⟩
    exact fun id _ => Std.ExtTreeMap.not_mem_empty

end Registry

end BoundedLookahead
