import BoundedLookahead.Proofs.Arena
import Mathlib.Tactic.Tauto

/-!
# Runs of the ownership check

The ownership check is read as the run of a worklist over all definitions. Every
step gives owners to nodes that had none, so the run ends, and the nodes come in
the order in which they were claimed: a node always before its children. When the
run ends without a refusal, everything below a definition is therefore grounded.
-/

namespace BoundedLookahead

namespace Registry

/-- The run of the ownership check over the definitions still to come, the nodes
whose children are still unclaimed, and the owners so far, to its outcome. -/
inductive OwnershipRun (registry : Registry) :
    List Production → List NodeId → Owners → Except AnalysisError Owners → Prop
  /-- Nothing is left to do. -/
  | finished {owners : Owners} : OwnershipRun registry [] [] owners (.ok owners)
  /-- The root of a definition cannot be claimed. -/
  | refused {definition : Production} {definitions : List Production} {owners : Owners}
    {cause : AnalysisError}
    (h : registry.claim (.production definition.name) owners definition.root = .error cause) :
    OwnershipRun registry (definition :: definitions) [] owners (.error cause)
  /-- The root of a definition is claimed. -/
  | entered {definition : Production} {definitions : List Production} {owners claimed : Owners}
    {outcome : Except AnalysisError Owners}
    (h : registry.claim (.production definition.name) owners definition.root = .ok claimed)
    (rest : OwnershipRun registry definitions [definition.root] claimed outcome) :
    OwnershipRun registry (definition :: definitions) [] owners outcome
  /-- A child of a pending node cannot be claimed. -/
  | stopped {definitions : List Production} {id : NodeId} {pending : List NodeId} {owners : Owners}
    {cause : AnalysisError}
    (h : (registry.childIds id).foldlM (registry.claim (.node id)) owners = .error cause) :
    OwnershipRun registry definitions (id :: pending) owners (.error cause)
  /-- The children of a pending node are claimed. -/
  | settled {definitions : List Production} {id : NodeId} {pending : List NodeId}
    {owners claimed : Owners} {outcome : Except AnalysisError Owners}
    (h : (registry.childIds id).foldlM (registry.claim (.node id)) owners = .ok claimed)
    (rest : OwnershipRun registry definitions ((registry.childIds id).reverse ++ pending) claimed
      outcome) :
    OwnershipRun registry definitions (id :: pending) owners outcome

variable {registry : Registry} {owner : Owner} {owners claimed : Owners} {cause : AnalysisError}

/-- A node can be claimed when it is in the arena and has no owner. -/
theorem claim_ok_iff {id : NodeId} : registry.claim owner owners id = .ok claimed ↔
    id < registry.nodes.size ∧ id ∉ owners ∧ claimed = owners.insert id owner := by
  unfold claim
  split
  · split
    · next hm => simp_all
    · next hm =>
      simp only [Except.ok.injEq]
      constructor
      · rintro rfl
        exact ⟨by assumption, by simpa using hm, rfl⟩
      · rintro ⟨_, _, rfl⟩
        rfl
  · next outside => exact ⟨(nomatch ·), fun h => absurd h.1 outside⟩

/-- A claim is refused for a node outside the arena or one that has an owner. -/
theorem claim_error {id : NodeId} (h : registry.claim owner owners id = .error cause) :
    cause = .unknownNode id ∧ registry.nodes.size ≤ id ∨ cause = .sharedNode id ∧ id ∈ owners := by
  unfold claim at h
  split at h
  · split at h
    · next owned =>
      cases h
      exact .inr ⟨rfl, by simpa using owned⟩
    · cases h
  · next outside =>
    cases h
    exact .inl ⟨rfl, Nat.le_of_not_lt outside⟩

/-- What claiming several nodes in turn does when none is refused. -/
structure ClaimedAll (registry : Registry) (ids : List NodeId) (owners claimed : Owners) : Prop where
  /-- They are in the arena. -/
  known : ∀ id ∈ ids, id < registry.nodes.size
  /-- They join those that have an owner. -/
  mem : ∀ id, id ∈ claimed ↔ id ∈ owners ∨ id ∈ ids
  /-- Each of them is new. -/
  size : claimed.size = owners.size + ids.length

/-- Claiming several nodes in turn does that. -/
theorem claimAll_ok {ids : List NodeId} (h : ids.foldlM (registry.claim owner) owners = .ok claimed) :
    ClaimedAll registry ids owners claimed := by
  induction ids generalizing owners with
  | nil =>
    obtain rfl : owners = claimed := by simpa [pure, Except.pure] using h
    exact ⟨by simp, by simp, rfl⟩
  | cons first ids ih =>
    rw [List.foldlM_cons] at h
    cases hc : registry.claim owner owners first with
    | error cause => rw [hc] at h; cases h
    | ok next =>
      rw [hc] at h
      obtain ⟨inside, fresh, rfl⟩ := claim_ok_iff.mp hc
      have hr := ih h
      refine ⟨List.forall_mem_cons.mpr ⟨inside, hr.known⟩, fun id => ?_, ?_⟩
      · rw [hr.mem, Std.ExtTreeMap.mem_insert, List.mem_cons, Nat.compare_eq_eq]
        tauto
      · have hs := hr.size
        rw [Std.ExtTreeMap.size_insert, if_neg (by simpa using fresh)] at hs
        rw [hs, List.length_cons]
        omega

/-- Claiming several nodes in turn fails at a node outside the arena, or at one that has
an owner or came before. -/
theorem claimAll_error {ids : List NodeId} (h : ids.foldlM (registry.claim owner) owners = .error cause) :
    ∃ (position : Nat) (id : NodeId), ids[position]? = some id ∧
      (cause = .unknownNode id ∧ registry.nodes.size ≤ id ∨
        cause = .sharedNode id ∧ (id ∈ owners ∨ ∃ earlier < position, ids[earlier]? = some id)) := by
  induction ids generalizing owners with
  | nil => cases h
  | cons first ids ih =>
    rw [List.foldlM_cons] at h
    cases hc : registry.claim owner owners first with
    | error cause' =>
      rw [hc] at h
      cases h
      exact ⟨0, first, rfl, (claim_error hc).imp_right fun shared => ⟨shared.1, .inl shared.2⟩⟩
    | ok next =>
      rw [hc] at h
      obtain ⟨inside, fresh, rfl⟩ := claim_ok_iff.mp hc
      obtain ⟨position, id, hid, refusal⟩ := ih h
      refine ⟨position + 1, id, hid, refusal.imp_right fun shared => ⟨shared.1, ?_⟩⟩
      rcases shared.2 with owned | ⟨earlier, before, same⟩
      · rw [Std.ExtTreeMap.mem_insert, Nat.compare_eq_eq] at owned
        rcases owned with rfl | owned
        · exact .inr ⟨0, Nat.succ_pos position, rfl⟩
        · exact .inl owned
      · exact .inr ⟨earlier + 1, Nat.succ_lt_succ before, same⟩

/-- Owners within the arena are no more than its nodes. -/
theorem size_owners_le (known : ∀ id ∈ owners, id < registry.nodes.size) :
    owners.size ≤ registry.nodes.size := by
  have hs : owners.keys ⊆ List.range registry.nodes.size := fun id hm =>
    List.mem_range.mpr (known id (Std.ExtTreeMap.mem_keys.mp hm))
  have := Std.ExtTreeMap.nodup_keys.length_le_of_subset hs
  rwa [Std.ExtTreeMap.length_keys, List.length_range] at this

/-- Settling with enough fuel is a run to its end: every step claims as many nodes
as it adds to the pending ones and takes one away. -/
theorem settle_run {definitions : List Production} {outcome : Except AnalysisError Owners}
    (fuel : Nat) (pending : List NodeId) (owners : Owners)
    (known : ∀ id ∈ owners, id < registry.nodes.size)
    (enough : registry.nodes.size - owners.size + pending.length < fuel)
    (refused : ∀ cause, registry.settle fuel pending owners = .error cause → outcome = .error cause)
    (settled : ∀ final : Owners, (∀ id ∈ final, id < registry.nodes.size) →
      registry.settle fuel pending owners = .ok final →
      OwnershipRun registry definitions [] final outcome) :
    OwnershipRun registry definitions pending owners outcome := by
  induction fuel generalizing pending owners with
  | zero => omega
  | succ fuel ih =>
    cases pending with
    | nil => exact settled owners known rfl
    | cons id pending =>
      simp only [settle] at refused settled
      cases hc : (registry.childIds id).foldlM (registry.claim (.node id)) owners with
      | error cause =>
        rw [hc] at refused
        rw [refused cause rfl]
        exact .stopped hc
      | ok claimed =>
        rw [hc] at refused settled
        have ha := claimAll_ok hc
        have inside : ∀ id ∈ claimed, id < registry.nodes.size := fun other hm =>
          ((ha.mem other).mp hm).elim (known other) (ha.known other)
        refine .settled hc (ih _ _ inside ?_ refused settled)
        have hb := size_owners_le inside
        have hs := ha.size
        simp only [List.length_append, List.length_reverse, List.length_cons] at enough ⊢
        omega

/-- The ownership check is a run to its end. -/
theorem owners_run (registry : Registry) :
    OwnershipRun registry registry.definitions [] ∅ registry.owners := by
  have (definitions : List Production) (owners : Owners)
      (known : ∀ id ∈ owners, id < registry.nodes.size) :
      OwnershipRun registry definitions [] owners
        (definitions.foldlM registry.settleDefinition owners) := by
    induction definitions generalizing owners with
    | nil => exact .finished
    | cons definition definitions ih =>
      rw [List.foldlM_cons]
      unfold settleDefinition
      cases hc : registry.claim (.production definition.name) owners definition.root with
      | error cause => exact .refused hc
      | ok claimed =>
        obtain ⟨inside, fresh, rfl⟩ := claim_ok_iff.mp hc
        have hk : ∀ id ∈ owners.insert definition.root (.production definition.name),
            id < registry.nodes.size := by
          intro id hm
          rw [Std.ExtTreeMap.mem_insert, Nat.compare_eq_eq] at hm
          rcases hm with rfl | hm
          · exact inside
          · exact known id hm
        refine .entered hc (settle_run (registry.nodes.size + 1) _ _ hk ?_ ?_ ?_)
        · have := size_owners_le hk
          rw [Std.ExtTreeMap.size_insert, if_neg (by simpa using fresh)] at this ⊢
          simp only [List.length_cons, List.length_nil]
          omega
        · intro cause hs
          simp only [bind, Except.bind, hs]
        · intro final hf hs
          simp only [bind, Except.bind, hs]
          exact ih final hf
  exact this registry.definitions ∅ fun id hm => absurd hm Std.ExtTreeMap.not_mem_empty

/-- The nodes that have an owner in the order in which they were claimed. Every
node whose children are claimed comes before them. -/
structure ClaimOrder (registry : Registry) (order pending : List NodeId) (owners : Owners) :
    Prop where
  /-- The nodes are those that have an owner. -/
  mem : ∀ id, id ∈ owners ↔ id ∈ order
  /-- They are in the arena. -/
  known : ∀ id ∈ order, id < registry.nodes.size
  /-- Pending nodes have an owner. -/
  waiting : ∀ id ∈ pending, id ∈ order
  /-- A node that is not pending comes before its children. -/
  before : ∀ earlier id later, order = earlier ++ id :: later →
    id ∈ pending ∨ ∀ child ∈ registry.childIds id, child ∈ later

/-- Nodes claimed last come last. -/
theorem ClaimOrder.append {order pending pending' ids : List NodeId}
    (h : ClaimOrder registry order pending owners) (ha : ClaimedAll registry ids owners claimed)
    (fresh : ∀ id ∈ ids, id ∈ pending')
    (kept : ∀ id ∈ pending, id ∈ pending' ∨ ∀ child ∈ registry.childIds id, child ∈ ids)
    (only : ∀ id ∈ pending', id ∈ ids ∨ id ∈ pending) :
    ClaimOrder registry (order ++ ids) pending' claimed := by
  refine ⟨fun id => ?_, fun id hm => ?_, fun id hm => ?_, fun earlier id later he => ?_⟩
  · rw [ha.mem, h.mem, List.mem_append]
  · exact (List.mem_append.mp hm).elim (h.known id) (ha.known id)
  · exact List.mem_append.mpr ((only id hm).symm.imp_left (h.waiting id))
  · rcases List.append_eq_append_iff.mp he with ⟨between, rfl, hi⟩ | ⟨between, rfl, hi⟩
    · refine .inl (fresh id ?_)
      rw [hi]
      exact List.mem_append_right _ List.mem_cons_self
    · cases between with
      | nil =>
        refine .inl (fresh id ?_)
        rw [List.nil_append] at hi
        rw [← hi]
        exact List.mem_cons_self
      | cons first between =>
        rw [List.cons_append, List.cons.injEq] at hi
        obtain ⟨rfl, rfl⟩ := hi
        rcases h.before earlier id between rfl with hp | hc
        · exact (kept id hp).imp_right fun hc child hm => List.mem_append_right _ (hc child hm)
        · exact .inr fun child hm => List.mem_append_left _ (hc child hm)

/-- A run that refuses nothing claims the root of every definition, and at its end
every claimed node comes before its children. -/
theorem OwnershipRun.claimOrder {definitions : List Production} {pending : List NodeId}
    {outcome : Except AnalysisError Owners}
    (run : OwnershipRun registry definitions pending owners outcome) {order : List NodeId}
    (h : ClaimOrder registry order pending owners) {final : Owners} (hf : outcome = .ok final) :
    ∃ more, ClaimOrder registry (order ++ more) [] final ∧
      ∀ definition ∈ definitions, definition.root ∈ order ++ more := by
  induction run generalizing order with
  | finished =>
    cases hf
    exact ⟨[], by rwa [List.append_nil], by simp⟩
  | refused _ => cases hf
  | stopped _ => cases hf
  | @entered definition definitions owners claimed outcome hc rest ih =>
    obtain ⟨inside, fresh, rfl⟩ := claim_ok_iff.mp hc
    have ha : ClaimedAll registry [definition.root] owners
        (owners.insert definition.root (.production definition.name)) := by
      refine @claimAll_ok registry (.production definition.name) _ _ _ ?_
      simp [hc]
    obtain ⟨more, hm, hr⟩ := ih (h.append ha (by simp) (by simp) (by simp)) hf
    rw [List.append_assoc] at hm hr
    refine ⟨[definition.root] ++ more, hm, List.forall_mem_cons.mpr ⟨?_, hr⟩⟩
    simp
  | @settled definitions id pending owners claimed outcome hc rest ih =>
    have ho : ClaimOrder registry _ ((registry.childIds id).reverse ++ pending) claimed :=
      h.append (claimAll_ok hc) (by simp +contextual)
        (fun other hm => (List.mem_cons.mp hm).elim
          (fun he => .inr (by rw [he]; exact fun child hm => hm))
          (fun hm => .inl (List.mem_append_right _ hm)))
        (fun other hm => (List.mem_append.mp hm).imp List.mem_reverse.mp (List.mem_cons_of_mem _))
    obtain ⟨more, hm, hr⟩ := ih ho hf
    rw [List.append_assoc] at hm hr
    exact ⟨_, hm, hr⟩

/-- Nodes of the arena that come before their children are grounded. -/
theorem grounded_of_before (order : List NodeId) (known : ∀ id ∈ order, id < registry.nodes.size)
    (before : ∀ earlier id later, order = earlier ++ id :: later →
      ∀ child ∈ registry.childIds id, child ∈ later) :
    ∀ id ∈ order, registry.Grounded id := by
  induction order with
  | nil => simp
  | cons first order ih =>
    have hr := ih (fun id hm => known id (List.mem_cons_of_mem _ hm))
      (fun earlier id later he => before (first :: earlier) id later (by rw [he, List.cons_append]))
    refine List.forall_mem_cons.mpr ⟨?_, hr⟩
    have inside := known first List.mem_cons_self
    refine .node (Array.getElem?_eq_getElem inside) fun child hc => hr child ?_
    refine before [] first order rfl child ?_
    simpa [childIds, Array.getElem?_eq_getElem inside] using hc

/-- Where the ownership check refuses nothing, every definition is grounded. -/
theorem grounded_of_owners {final : Owners} (h : registry.owners = .ok final)
    {definition : Production} (hd : definition ∈ registry.definitions) :
    registry.Grounded definition.root := by
  have start : ClaimOrder registry [] [] ∅ :=
    ⟨fun id => by simp [Std.ExtTreeMap.not_mem_empty], by simp, by simp, by simp⟩
  obtain ⟨more, hm, hr⟩ := (owners_run registry).claimOrder start h
  refine grounded_of_before more (fun id hi => hm.known id (by simpa using hi)) ?_ _
    (by simpa using hr definition hd)
  intro earlier id later he
  exact (hm.before earlier id later (by simpa using he)).resolve_left List.not_mem_nil

/-- Where the ownership check refuses nothing, every production is grounded. -/
theorem grounded_production {final : Owners} (h : registry.owners = .ok final) :
    ∀ production ∈ registry.productions, registry.Grounded production.root :=
  fun _ hp => grounded_of_owners h (List.mem_append_left _ hp)

/-- Where the ownership check refuses nothing, the trees of the productions are
grounded throughout. -/
theorem InProduction.grounded {final : Owners} (h : registry.owners = .ok final) {id : NodeId}
    (hi : registry.InProduction id) : registry.Grounded id :=
  hi.grounded_of (grounded_production h)

/-- Where the ownership check refuses nothing, the trees of the definitions are
grounded throughout. -/
theorem InDefinition.grounded {final : Owners} (h : registry.owners = .ok final) {id : NodeId}
    (hi : registry.InDefinition id) : registry.Grounded id := by
  obtain ⟨definition, hd, hr⟩ := hi
  exact (grounded_of_owners h hd).of_reaches hr

/-- The ownership check fails only for a node outside the arena or one that is
referenced twice. -/
theorem OwnershipRun.error {definitions : List Production} {pending : List NodeId}
    {outcome : Except AnalysisError Owners}
    (run : OwnershipRun registry definitions pending owners outcome)
    (hf : outcome = .error cause) : ∃ id, cause = .unknownNode id ∨ cause = .sharedNode id := by
  induction run with
  | finished => cases hf
  | refused hc =>
    cases hf
    exact ⟨_, (claim_error hc).imp And.left And.left⟩
  | stopped hc =>
    cases hf
    obtain ⟨position, id, hid, refusal⟩ := claimAll_error hc
    exact ⟨id, refusal.imp And.left And.left⟩
  | entered _ _ ih => exact ih hf
  | settled _ _ ih => exact ih hf

end Registry

end BoundedLookahead
