import BoundedLookahead.Proofs.Forests
import BoundedLookahead.Proofs.LeftCalls

/-!
# Parts of a grammar

A grammar is part of another one when its productions and their nodes are found there
unchanged, and nothing that it calls is defined there only. What is known of a
production follows from its own nodes and from the productions it calls. So a part
inherits the ownership of the whole, its trees, what is nullable, its calls and what
is found in its trees. Neither the order of the productions nor the rest of the whole
matters to it.
-/

namespace BoundedLookahead

namespace Registry

/-- Two grammars say the same about the given nodes, about everything below them and
about the productions they call. -/
structure Agrees (first second : Registry) (inside : NodeId → Prop) : Prop where
  /-- The nodes are the same. -/
  nodes : ∀ id, inside id → first.nodes[id]? = second.nodes[id]?
  /-- Their children are among them. -/
  children : ∀ id child, inside id → first.Child id child → inside child
  /-- What they call is the same. -/
  calls : ∀ id name args, inside id → first.expansion? id = some (.nonTerminal name args) →
    first.production? name = second.production? name
  /-- The roots of what they call are among them. -/
  roots : ∀ id name args production, inside id →
    first.expansion? id = some (.nonTerminal name args) →
    first.production? name = some production → inside production.root

namespace Agrees

variable {first second : Registry} {inside : NodeId → Prop} (h : first.Agrees second inside)
  {id other : NodeId}

include h

/-- The constructs are the same. -/
theorem expansion?_eq (hi : inside id) : first.expansion? id = second.expansion? id :=
  congrArg (Option.map _) (h.nodes id hi)

/-- Neither grammar comes first. -/
theorem symm : second.Agrees first inside where
  nodes id hi := (h.nodes id hi).symm
  children id child hi hc := by
    refine h.children id child hi ?_
    rwa [Child, childIds, h.nodes id hi]
  calls id name args hi he := (h.calls id name args hi ((h.expansion?_eq hi).trans he)).symm
  roots id name args production hi he hp := by
    rw [← h.expansion?_eq hi] at he
    exact h.roots id name args production hi he ((h.calls id name args hi he).trans hp)

/-- The children of a construct are among the nodes. -/
theorem of_child {expansion : Expansion NodeId} (hi : inside id)
    (he : first.expansion? id = some expansion) : ∀ child ∈ expansion.children, inside child := by
  intro child hc
  refine h.children id child hi ?_
  rwa [Child, childIds_eq he]

/-- Everything below the nodes is among them. -/
theorem of_reaches (hi : inside id) (hr : first.Reaches id other) : inside other := by
  induction hr with
  | refl => exact hi
  | tail _ step ih => exact h.children _ _ ih step

/-- The same is below the nodes. -/
theorem reaches (hi : inside id) (hr : first.Reaches id other) : second.Reaches id other := by
  induction hr with
  | refl => exact .refl
  | @tail parent child above step ih =>
    refine ih.tail ?_
    rwa [Child, childIds, ← h.nodes parent (h.of_reaches hi above)]

/-- The nodes are grounded in both or in neither. -/
theorem grounded (hi : inside id) (hg : first.Grounded id) : second.Grounded id := by
  induction hg with
  | @node id entry found below ih =>
    refine .node ((h.nodes id hi).symm.trans found) fun child hc => ih child hc ?_
    refine h.of_child hi ?_ child hc
    simp [expansion?, found]

/-- The trees of the nodes are the same. -/
theorem tree_eq (hi : inside id) (hg : first.Grounded id) : first.tree id = second.tree id := by
  induction hg with
  | @node id entry found below ih =>
    obtain ⟨expansion, location⟩ := entry
    have he : first.expansion? id = some expansion := by simp [expansion?, found]
    have hg : first.Grounded id := .node found below
    rw [hg.tree_eq found, (h.grounded hi hg).tree_eq ((h.nodes id hi).symm.trans found)]
    congr 1
    exact Expansion.map_congr fun child hc => ih child hc (h.of_child hi he child hc)

/-- The nodes derive the same words. -/
theorem derives {may : Iteration} {word : Word} (hi : inside id) (hd : first.Derives may id word) :
    second.Derives may id word := by
  induction hd with
  | terminal he => exact .terminal ((h.expansion?_eq hi).symm.trans he)
  | @nonTerminal id name args production word he defined body ih =>
    exact .nonTerminal ((h.expansion?_eq hi).symm.trans he)
      ((h.calls id name args hi he).symm.trans defined) (ih (h.roots id name args _ hi he defined))
  | @sequence id pieces he units ih =>
    exact .sequence pieces ((h.expansion?_eq hi).symm.trans he) fun piece hp =>
      ih piece hp (h.of_child hi he _ (Pieces.mem_nodes hp))
  | choice he taken body ih =>
    exact .choice ((h.expansion?_eq hi).symm.trans he) taken (ih (h.of_child hi he _ taken))
  | repetition words he runs bodies ih =>
    exact .repetition words ((h.expansion?_eq hi).symm.trans he) runs fun word hw =>
      ih word hw (h.of_child hi he _ (by simp [Expansion.children]))
  | lookahead he => exact .lookahead ((h.expansion?_eq hi).symm.trans he)
  | action he => exact .action ((h.expansion?_eq hi).symm.trans he)
  | tryBlock he inner ih =>
    exact .tryBlock ((h.expansion?_eq hi).symm.trans he)
      (ih (h.of_child hi he _ (by simp [Expansion.children])))

/-- The ways down from the nodes that consume no token are the same. -/
theorem leads (hi : inside id) (way : first.Leads id other) :
    second.Leads id other ∧ inside other := by
  induction way with
  | here => exact ⟨.here, hi⟩
  | @unit id unit other before behind he empty rest ih =>
    obtain ⟨way, ho⟩ := ih (h.of_child hi he unit (by simp [Expansion.children]))
    refine ⟨.unit ((h.expansion?_eq hi).symm.trans he) (fun earlier hm => ?_) way, ho⟩
    exact h.derives (h.of_child hi he earlier (by simp [Expansion.children, hm])) (empty earlier hm)
  | @alternative id alternative other alternatives he taken rest ih =>
    obtain ⟨way, ho⟩ := ih (h.of_child hi he alternative taken)
    exact ⟨.alternative ((h.expansion?_eq hi).symm.trans he) taken way, ho⟩
  | @repetition id body other kind guard he rest ih =>
    obtain ⟨way, ho⟩ := ih (h.of_child hi he body (by simp [Expansion.children]))
    exact ⟨.repetition ((h.expansion?_eq hi).symm.trans he) way, ho⟩
  | @tryBlock id body other handlers cleanup he rest ih =>
    obtain ⟨way, ho⟩ := ih (h.of_child hi he body (by simp [Expansion.children]))
    exact ⟨.tryBlock ((h.expansion?_eq hi).symm.trans he) way, ho⟩

/-- The nodes call the same productions before they consume a token. -/
theorem callsFirst {callee : String} (hi : inside id) (hc : first.CallsFirst id callee) :
    second.CallsFirst id callee ∧ first.production? callee = second.production? callee := by
  obtain ⟨caller, args, way, he⟩ := hc
  obtain ⟨way, hc⟩ := h.leads hi way
  exact ⟨⟨caller, args, way, (h.expansion?_eq hc).symm.trans he⟩, h.calls caller callee args hc he⟩

end Agrees

/-- A grammar is found in another one. -/
structure PartOf (part whole : Registry) : Prop where
  /-- Its productions are productions of the whole, in whatever order. -/
  productions : part.productions.Subperm whole.productions
  /-- Its later definitions are those of the whole. -/
  duplicates : part.duplicates = whole.duplicates
  /-- Its nodes are the same in the whole. -/
  nodes : ∀ id, part.InDefinition id → part.nodes[id]? = whole.nodes[id]?
  /-- What it calls is not defined in the whole alone. -/
  calls : ∀ id name args, part.InDefinition id →
    part.expansion? id = some (.nonTerminal name args) → whole.isDefined name = true →
    part.isDefined name = true
  /-- It declares the tokens of the whole. -/
  tokens : ∀ kind, part.isDeclared kind = whole.isDeclared kind

/-- Every grammar is part of itself. -/
theorem PartOf.refl (registry : Registry) : registry.PartOf registry where
  productions := List.Subperm.refl _
  duplicates := rfl
  nodes _ _ := rfl
  calls _ _ _ _ _ h := h
  tokens _ := rfl

namespace PartOf

variable {part whole : Registry} (h : part.PartOf whole) {id : NodeId} {name caller callee : String}

include h

/-- A production of the part is one of the whole. -/
theorem mem_productions {production : Production} (hp : production ∈ part.productions) :
    production ∈ whole.productions := h.productions.subset hp

/-- What is defined in the part is defined in the whole. -/
theorem isDefined (hd : part.isDefined name = true) : whole.isDefined name = true := by
  rw [isDefined_iff] at hd ⊢
  obtain ⟨production, hp, rfl⟩ := List.mem_map.mp hd
  exact List.mem_map_of_mem (h.mem_productions hp)

/-- What is defined in both or in neither is the same production. -/
theorem production?_eq (same : part.isDefined name = whole.isDefined name) :
    part.production? name = whole.production? name := by
  cases hp : part.production? name with
  | none =>
    rw [Registry.isDefined, hp, Registry.isDefined] at same
    exact (Option.isSome_eq_false_iff.mp same.symm |> Option.isNone_iff_eq_none.mp).symm
  | some production =>
    obtain rfl : production.name = name := by simpa using List.find?_some hp
    exact (production?_eq_some (h.mem_productions (List.mem_of_find?_eq_some hp))).symm

/-- A production of the part is found in the whole under its name. -/
theorem production?_of_part {production : Production} (hp : part.production? name = some production) :
    whole.production? name = some production := by
  have defined : part.isDefined name = true := by rw [Registry.isDefined, hp]; rfl
  rw [← h.production?_eq (by rw [defined, h.isDefined defined]), hp]

/-- What a node of the part calls is defined in both or in neither. -/
theorem isDefined_eq {args : List String} (hi : part.InDefinition id)
    (he : part.expansion? id = some (.nonTerminal name args)) :
    part.isDefined name = whole.isDefined name :=
  Bool.eq_iff_iff.mpr ⟨h.isDefined, h.calls id name args hi he⟩

/-- The part and the whole say the same about the nodes of the part. -/
theorem agrees : part.Agrees whole part.InDefinition where
  nodes := h.nodes
  children id child hi hc := by
    obtain ⟨definition, hd, hr⟩ := hi
    exact ⟨definition, hd, hr.tail hc⟩
  calls id name args hi he := h.production?_eq (h.isDefined_eq hi he)
  roots id name args production hi he hp :=
    .production (List.mem_of_find?_eq_some hp)

/-- Definitions of the part are definitions of the whole. -/
theorem definitions : part.definitions.Subperm whole.definitions := by
  unfold Registry.definitions
  rw [h.duplicates]
  exact h.productions.append (List.Subperm.refl _)

/-- Where the productions of the whole are grounded, so are those of the part. -/
theorem grounded
    (hw : ∀ production ∈ whole.productions, whole.Grounded production.root) :
    ∀ production ∈ part.productions, part.Grounded production.root := fun production hp =>
  h.agrees.symm.grounded (InDefinition.production hp)
    (hw production (h.mem_productions hp))

/-- Where what the whole defines is a forest, so is what the part defines. -/
theorem isForest (hw : whole.IsForest) : part.IsForest := by
  have grounded (definition : Production) (hd : definition ∈ part.definitions) :
      part.Grounded definition.root :=
    h.agrees.symm.grounded (InDefinition.root hd) (hw.grounded _ (h.definitions.subset hd))
  refine ⟨grounded, ?_⟩
  have trees : (part.definitions.flatMap fun definition => (part.tree definition.root).ids) =
      part.definitions.flatMap fun definition => (whole.tree definition.root).ids :=
    List.flatMap_congr fun definition hd =>
      congrArg Tree.ids (h.agrees.tree_eq (InDefinition.root hd) (grounded definition hd))
  rw [trees]
  obtain ⟨listed, same, among⟩ := h.definitions
  exact (same.flatMap_right _).nodup_iff.mp (hw.nodup.sublist (among.flatMap _))

/-- The part passes the ownership check when the whole does. -/
theorem exists_owners {final : Owners} (ho : whole.owners = .ok final) :
    ∃ final, part.owners = .ok final :=
  exists_owners_iff.mpr (h.isForest (exists_owners_iff.mp ⟨final, ho⟩))

section

variable (hw : ∀ production ∈ whole.productions, whole.Grounded production.root)

include hw

/-- A production of the part has the same tree in the whole. -/
theorem tree_root {production : Production} (hp : production ∈ part.productions) :
    part.tree production.root = whole.tree production.root :=
  h.agrees.tree_eq (.production hp) (h.grounded hw production hp)

/-- The rules of the part are rules of the whole. -/
theorem rules : part.rules.Subperm whole.rules := by
  have rules : part.rules =
      part.productions.map fun production => ⟨production, whole.tree production.root⟩ :=
    List.map_congr_left fun production hp => by rw [← h.tree_root hw hp]; rfl
  obtain ⟨listed, same, among⟩ := h.productions
  rw [rules]
  exact ⟨_, same.map _, among.map _⟩

/-- A node of the part can match the empty word in both or in neither. -/
theorem nullable_eq {names names' : List String} (hn : part.nullableNames = .ok names)
    (hn' : whole.nullableNames = .ok names') (hi : part.InDefinition id) (hg : part.Grounded id) :
    (part.tree id).nullable names = (part.tree id).nullable names' := by
  have same := h.agrees.tree_eq hi hg
  rw [Bool.eq_iff_iff, hg.nullable_iff (h.grounded hw) hn, same,
    (h.agrees.grounded hi hg).nullable_iff hw hn']
  exact ⟨h.agrees.derives hi, h.agrees.symm.derives hi⟩

omit hw in
/-- A left call of the part is one of the whole. -/
theorem leftCalls (hc : part.LeftCalls caller callee) : whole.LeftCalls caller callee := by
  obtain ⟨defined, production, hp, hc⟩ := hc
  have inside : part.InDefinition production.root := .production (List.mem_of_find?_eq_some hp)
  exact ⟨h.isDefined defined, production, h.production?_of_part hp, (h.agrees.callsFirst inside hc).1⟩

/-- Where the whole has no left recursion, the part has none. -/
theorem leftRecursiveCycles_eq_nil {names names' : List String}
    (hn : part.nullableNames = .ok names) (hn' : whole.nullableNames = .ok names')
    (free : whole.leftRecursiveCycles names' = []) : part.leftRecursiveCycles names = [] := by
  refine (CycleSearch.cycles_run_eq_nil_iff graphOf_closed).mpr fun name loop => ?_
  refine (CycleSearch.cycles_run_eq_nil_iff graphOf_closed).mp free name ?_
  refine loop.lift id fun caller callee hc => ?_
  exact (calls_leftCallGraph hw hn').mpr (h.leftCalls ((calls_leftCallGraph (h.grounded hw) hn).mp hc))

/-- A production of the part calls the same productions in the whole. -/
theorem calls_callGraph (defined : part.isDefined caller = true) :
    CallGraph.Calls part.callGraph caller callee ↔ CallGraph.Calls whole.callGraph caller callee := by
  obtain ⟨production, hp⟩ := Option.isSome_iff_exists.mp defined
  have listed := List.mem_of_find?_eq_some hp
  have hg := h.grounded hw production listed
  rw [callGraph_eq, calls_graphOf, callGraph_eq, calls_graphOf, hp, h.production?_of_part hp]
  simp only [Option.some.injEq, exists_eq_left', ← h.tree_root hw listed]
  refine and_congr_left fun hc => ⟨h.isDefined, fun defined => ?_⟩
  obtain ⟨id, args, reached, he⟩ := hg.mem_calls.mp hc
  exact h.calls id callee args ⟨production, List.mem_append_left _ listed, reached⟩ he defined

/-- The start reaches the same productions in the whole. -/
theorem mem_reachable {start : String} (defined : part.isDefined start = true) :
    name ∈ part.reachable start ↔ name ∈ whole.reachable start := by
  rw [mem_reachable_iff, mem_reachable_iff]
  constructor
  · intro way
    refine way.lift id fun caller callee hc => ?_
    have defined : part.isDefined caller = true := by
      obtain ⟨_, production, hp, _⟩ := calls_graphOf.mp hc
      rw [Registry.isDefined, hp]
      rfl
    exact (h.calls_callGraph hw defined).mp hc
  · intro way
    have : Relation.ReflTransGen (CallGraph.Calls part.callGraph) start name ∧
        part.isDefined name = true := by
      induction way with
      | refl => exact ⟨.refl, defined⟩
      | tail _ step ih =>
        have step := (h.calls_callGraph hw ih.2).mpr step
        exact ⟨ih.1.tail step, (calls_graphOf.mp step).1⟩
    exact this.1

end

end PartOf

end Registry

end BoundedLookahead
