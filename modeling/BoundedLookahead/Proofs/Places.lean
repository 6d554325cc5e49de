import BoundedLookahead.Proofs.Parents
import BoundedLookahead.Proofs.ResolvedNodes

/-!
# Places

A node stands under its parent before other units, as a body that may run again, or
apart, as a guard that is not part of what is matched. The walk that resolves
decisions follows a path from the root of a production: it arrives at a node with the
set that the places on the path give, starting from ε.
-/

namespace BoundedLookahead

/-- Where a node stands under its parent. -/
inductive Place where
  /-- The units come after it. There are none behind an alternative, behind a body that
  runs once, or behind the last unit of a sequence. -/
  | before (units : List NodeId)
  /-- It is a body that may run again. -/
  | looped
  /-- It guards a decision. -/
  | apart

/-- The units behind a unit. -/
def unitsBehind (child : NodeId) : List NodeId → List NodeId
  | [] => []
  | unit :: units => if unit = child then units else unitsBehind child units

/-- The units behind a unit are among the units. -/
theorem unitsBehind_subset (child : NodeId) (units : List NodeId) :
    unitsBehind child units ⊆ units := by
  induction units with
  | nil => exact List.Subset.refl _
  | cons unit units ih =>
    unfold unitsBehind
    split
    · exact List.subset_cons_self _ _
    · exact List.subset_cons_of_subset _ ih

/-- Where a child of the construct stands. -/
def Expansion.place (child : NodeId) : Expansion NodeId → Place
  | .sequence units => .before (unitsBehind child units)
  | .repetition kind _ guard =>
    if guard = some child then .apart else if kind.repeats then .looped else .before []
  | .lookahead _ => .apart
  | _ => .before []

namespace Registry

/-- The child stands in the place under its parent. -/
def Stands (registry : Registry) (parent : NodeId) (place : Place) (child : NodeId) : Prop :=
  ∃ expansion, registry.expansion? parent = some expansion ∧ child ∈ expansion.children ∧
    expansion.place child = place

variable {registry : Registry} {limit : Nat} {scope : Scope} {parent id : NodeId} {place : Place}

/-- What stands under a node is its child. -/
theorem Stands.of_child {child : NodeId} (h : registry.Stands parent place child) :
    registry.Child parent child := by
  obtain ⟨expansion, he, hc, _⟩ := h
  rwa [Child, childIds_eq he]

/-- Every child of a node stands in a place. -/
theorem exists_stands {child : NodeId} (h : registry.Grounded parent)
    (hc : registry.Child parent child) : ∃ place, registry.Stands parent place child := by
  obtain ⟨expansion, he, _⟩ := h.exists_expansion
  rw [Child, childIds_eq he] at hc
  exact ⟨_, expansion, he, hc, rfl⟩

/-- It stands in no other. -/
theorem Stands.unique {child : NodeId} {other : Place} (h : registry.Stands parent place child)
    (h' : registry.Stands parent other child) : place = other := by
  obtain ⟨expansion, he, _, rfl⟩ := h
  obtain ⟨expansion', he', _, rfl⟩ := h'
  rw [he] at he'
  cases he'
  rfl

/-- The units behind a node stand beside it. -/
theorem Stands.child_of_mem {child : NodeId} {units : List NodeId}
    (h : registry.Stands parent (.before units) child) :
    ∀ unit ∈ units, registry.Child parent unit := by
  obtain ⟨expansion, he, _, hp⟩ := h
  have none {behind : List NodeId} (hp : Place.before [] = .before behind) :
      ∀ unit ∈ behind, registry.Child parent unit := by
    cases hp
    simp
  cases expansion with
  | sequence all =>
    cases hp
    intro unit hu
    rw [Child, childIds_eq he]
    exact unitsBehind_subset child all hu
  | repetition kind body guard =>
    simp only [Expansion.place] at hp
    split at hp
    · cases hp
    · split at hp
      · cases hp
      · exact none hp
  | lookahead directive => cases hp
  | _ => exact none hp

/-- What the units begin with at a depth when `follow` comes after the last of them. -/
def behind (registry : Registry) (limit depth : Nat) (follow : FirstSet) :
    List NodeId → Except AnalysisError FirstSet
  | [] => .ok follow
  | unit :: units => do
    let after ← registry.behind limit depth follow units
    let set ← registry.firstOf limit unit depth
    return set.concat after depth

/-- What follows a node at a depth when `follow` comes after its parent. -/
def followAt (registry : Registry) (limit depth : Nat) (child : NodeId) (follow : FirstSet) :
    Place → Except AnalysisError FirstSet
  | .before units => registry.behind limit depth follow units
  | .looped => do
    let set ← registry.firstOf limit child depth
    return (set.union FirstSet.epsilon).concat follow depth
  | .apart => .ok FirstSet.epsilon

/-- The units of a sequence are walked each with what its later units begin with. -/
theorem exists_visit_unit {units : List NodeId}
    (grounded : ∀ unit ∈ units, registry.Grounded unit) {follow after : FirstSet}
    {follows : List FirstSet} {points : List Point}
    (hf : (registry.oracle limit).unitFollows scope follow (units.map registry.tree) =
      .ok (follows, after))
    (hv : (registry.oracle limit).visitUnits scope follows (units.map registry.tree) = .ok points) :
    registry.behind limit scope.followDepth follow units = .ok after ∧
      ∀ child ∈ units, ∃ next inner,
        registry.behind limit scope.followDepth follow (unitsBehind child units) = .ok next ∧
        (registry.oracle limit).visit scope next (registry.tree child) = .ok inner ∧
        inner ⊆ points := by
  induction units generalizing follows after points with
  | nil =>
    cases hf
    exact ⟨rfl, by simp⟩
  | cons unit units ih =>
    rw [List.forall_mem_cons] at grounded
    obtain ⟨⟨rest, behindUnits⟩, hrest, hf⟩ := bind_eq_ok.mp hf
    obtain ⟨set, hset, hf⟩ := bind_eq_ok.mp hf
    cases hf
    obtain ⟨first, hfirst, hv⟩ := bind_eq_ok.mp hv
    obtain ⟨others, hothers, hv⟩ := bind_eq_ok.mp hv
    cases hv
    obtain ⟨found, below⟩ := ih grounded.2 hrest hothers
    replace hset : registry.firstOf limit unit scope.followDepth = .ok set := by
      rwa [grounded.1.tree_id] at hset
    refine ⟨?_, fun child hc => ?_⟩
    · simp only [behind, found, ok_bind, hset]
      rfl
    · by_cases he : unit = child
      · subst he
        refine ⟨behindUnits, first, ?_, hfirst, List.subset_append_left _ _⟩
        rwa [unitsBehind, if_pos rfl]
      · have later : child ∈ units := (List.mem_cons.mp hc).resolve_left (Ne.symm he)
        obtain ⟨next, inner, hn, hi, hs⟩ := below child later
        refine ⟨next, inner, ?_, hi, List.subset_append_of_subset_right _ hs⟩
        rwa [unitsBehind, if_neg he]

/-- The alternatives of a choice are walked each with what follows the choice. -/
theorem exists_visit_alternative {alternatives : List Tree} {follow : FirstSet}
    {points : List Point}
    (hv : (registry.oracle limit).visitAlternatives scope follow alternatives = .ok points) :
    ∀ alternative ∈ alternatives, ∃ inner,
      (registry.oracle limit).visit scope follow alternative = .ok inner ∧ inner ⊆ points := by
  induction alternatives generalizing points with
  | nil => simp
  | cons alternative alternatives ih =>
    obtain ⟨first, hfirst, hv⟩ := bind_eq_ok.mp hv
    obtain ⟨others, hothers, hv⟩ := bind_eq_ok.mp hv
    cases hv
    refine List.forall_mem_cons.mpr ⟨⟨first, hfirst, List.subset_append_left _ _⟩, ?_⟩
    intro other ho
    obtain ⟨inner, hi, hs⟩ := ih hothers other ho
    exact ⟨inner, hi, List.subset_append_of_subset_right _ hs⟩

/-- A repetition is decided with what follows it, its explicit lookahead is walked with
nothing behind it, and its body with what follows the body. -/
theorem exists_visit_repetition {location : Location} {kind : RepetitionKind} {body : Tree}
    {guard : Option Tree} {follow : FirstSet} {points : List Point}
    (hv : (registry.oracle limit).visit scope follow
      (.node id location (.repetition kind body guard)) = .ok points) :
    ∃ point next inner,
      (registry.oracle limit).loopPoint scope id location kind body guard follow = .ok point ∧
      point ∈ points ∧
      (registry.oracle limit).bodyFollow scope kind body follow = .ok next ∧
      (registry.oracle limit).visit scope next body = .ok inner ∧ inner ⊆ points ∧
      ∀ tree ∈ guard, ∃ guarded,
        (registry.oracle limit).visit scope FirstSet.epsilon tree = .ok guarded ∧
        guarded ⊆ points := by
  cases guard with
  | none =>
    obtain ⟨point, hp, hv⟩ := bind_eq_ok.mp hv
    obtain ⟨next, hn, hv⟩ := bind_eq_ok.mp hv
    obtain ⟨inner, hi, hv⟩ := bind_eq_ok.mp hv
    cases hv
    exact ⟨point, next, inner, hp, List.mem_cons_self, hn, hi, List.subset_cons_self _ _, by simp⟩
  | some tree =>
    obtain ⟨point, hp, hv⟩ := bind_eq_ok.mp hv
    obtain ⟨next, hn, hv⟩ := bind_eq_ok.mp hv
    obtain ⟨guarded, hg, hv⟩ := bind_eq_ok.mp hv
    obtain ⟨inner, hi, hv⟩ := bind_eq_ok.mp hv
    cases hv
    refine ⟨point, next, inner, hp, List.mem_cons_self, hn, hi,
      List.subset_append_right _ _, fun other ho => ?_⟩
    obtain rfl := Option.mem_some_iff.mp ho
    have front : guarded ⊆ point :: guarded := List.subset_cons_self _ _
    exact ⟨guarded, hg, List.subset_append_of_subset_left _ front⟩

/-- The walk over a node walks each of its children with what follows the child. -/
theorem Grounded.exists_visit_child (h : registry.Grounded parent) {child : NodeId}
    (stands : registry.Stands parent place child) {follow : FirstSet} {points : List Point}
    (hv : (registry.oracle limit).visit scope follow (registry.tree parent) = .ok points) :
    ∃ next inner, registry.followAt limit scope.followDepth child follow place = .ok next ∧
      (registry.oracle limit).visit scope next (registry.tree child) = .ok inner ∧
      inner ⊆ points := by
  obtain ⟨expansion, he, hc, rfl⟩ := stands
  have below := h.of_expansion he
  obtain ⟨location, ht⟩ := h.exists_tree_eq he
  rw [ht] at hv
  cases expansion with
  | sequence units =>
    obtain ⟨⟨follows, after⟩, hf, hv⟩ := bind_eq_ok.mp hv
    exact (exists_visit_unit below hf hv).2 child hc
  | choice alternatives =>
    obtain ⟨point, _, hv⟩ := bind_eq_ok.mp hv
    obtain ⟨others, ho, hv⟩ := bind_eq_ok.mp hv
    cases hv
    obtain ⟨inner, hi, hs⟩ := exists_visit_alternative ho _ (List.mem_map_of_mem hc)
    exact ⟨follow, inner, rfl, hi, List.subset_cons_of_subset _ hs⟩
  | repetition kind body guard =>
    obtain ⟨point, next, inner, _, _, hn, hi, hs, explicit⟩ := exists_visit_repetition hv
    simp only [Expansion.place]
    split
    · next hg =>
      obtain ⟨guarded, hv, hs⟩ := explicit (registry.tree child) (by rw [hg]; rfl)
      exact ⟨FirstSet.epsilon, guarded, rfl, hv, hs⟩
    · next hg =>
      obtain rfl : child = body := by
        rcases List.mem_append.mp hc with hc | hc
        · exact absurd (by simpa using hc) hg
        · simpa using hc
      refine ⟨next, inner, ?_, hi, hs⟩
      unfold Oracle.bodyFollow at hn
      have hid := (below child hc).tree_id
      split
      · next repeats =>
        rw [if_pos repeats, hid] at hn
        exact hn
      · next single =>
        rw [if_neg single] at hn
        exact hn
  | lookahead directive =>
    obtain ⟨amount, predicate, guard⟩ := directive
    obtain rfl : guard = some child := by simpa [Expansion.children] using hc
    exact ⟨FirstSet.epsilon, points, rfl, hv, List.Subset.refl _⟩
  | tryBlock body handlers cleanup =>
    obtain rfl : child = body := by simpa [Expansion.children] using hc
    exact ⟨follow, points, rfl, hv, List.Subset.refl _⟩
  | _ => cases hc

/-- What holds at the root of ε, and passes from a node to its children with what
follows them, holds of every node below the root with the set with which the walk
arrives there. -/
theorem Grounded.exists_visit_below {root : NodeId} (h : registry.Grounded root)
    {P : NodeId → FirstSet → Prop} (start : P root FirstSet.epsilon)
    (step : ∀ (parent : NodeId) (place : Place) (child : NodeId) (follow next : FirstSet),
      registry.Reaches root parent → registry.Stands parent place child →
      registry.followAt limit scope.followDepth child follow place = .ok next →
      P parent follow → P child next) {points : List Point}
    (hv : (registry.oracle limit).visit scope FirstSet.epsilon (registry.tree root) = .ok points)
    (reached : registry.Reaches root id) :
    ∃ follow inner, (registry.oracle limit).visit scope follow (registry.tree id) = .ok inner ∧
      inner ⊆ points ∧ P id follow := by
  induction reached with
  | refl => exact ⟨FirstSet.epsilon, points, hv, List.Subset.refl _, start⟩
  | @tail parent child above hc ih =>
    obtain ⟨follow, inner, hi, hs, holds⟩ := ih
    have grounded := h.of_reaches above
    obtain ⟨place, stands⟩ := exists_stands grounded hc
    obtain ⟨next, found, hn, hv, hsub⟩ := grounded.exists_visit_child stands hi
    exact ⟨next, found, hv, List.Subset.trans hsub hs,
      step parent place child follow next above stands hn holds⟩

/-- Every production that is not blocked is walked from its root, with nothing behind
it. -/
theorem exists_visit_root {report : Report} {options : Options} {nullable : List String}
    {rules : List Rule} {points : List Point}
    (h : (registry.oracle limit).resolveRules report options nullable rules = .ok points)
    {rule : Rule} (hr : rule ∈ rules) (unblocked : report.isBlocked rule.name = false) :
    ∃ inner, (registry.oracle limit).visit (options.scope nullable rule.name rule.tree)
      FirstSet.epsilon rule.tree = .ok inner ∧ inner ⊆ points := by
  induction rules generalizing points with
  | nil => cases hr
  | cons first rules ih =>
    simp only [Oracle.resolveRules] at h
    split at h
    · next blocked =>
      obtain ⟨_, _, h⟩ := bind_eq_ok.mp h
      obtain ⟨_, hn, h⟩ := bind_eq_ok.mp h
      cases hn
      obtain ⟨others, ho, h⟩ := bind_eq_ok.mp h
      cases h
      rcases List.mem_cons.mp hr with rfl | hr
      · rw [unblocked] at blocked
        cases blocked
      · exact ih ho hr
    · obtain ⟨_, _, h⟩ := bind_eq_ok.mp h
      obtain ⟨inner, hi, h⟩ := bind_eq_ok.mp h
      obtain ⟨others, ho, h⟩ := bind_eq_ok.mp h
      cases h
      rcases List.mem_cons.mp hr with rfl | hr
      · exact ⟨inner, hi, List.subset_append_left _ _⟩
      · obtain ⟨found, hf, hs⟩ := ih ho hr
        exact ⟨found, hf, List.subset_append_of_subset_right _ hs⟩

/-- The points of a registered production that is not blocked are those of the walk from
its root. -/
theorem exists_visit_production {report : Report} {options : Options} {points : List Point}
    (h : registry.points report options = .ok points) {production : Production}
    (hp : production ∈ registry.productions) (unblocked : report.isBlocked production.name = false) :
    ∃ inner, (registry.oracle options.expansionLimit).visit
      (options.scope report.nullable production.name (registry.tree production.root))
      FirstSet.epsilon (registry.tree production.root) = .ok inner ∧ inner ⊆ points := by
  have rule : ⟨production, registry.tree production.root⟩ ∈ registry.rules :=
    mem_rules.mpr ⟨production, hp, rfl⟩
  exact exists_visit_root h rule unblocked

end Registry

end BoundedLookahead
