import BoundedLookahead.Proofs.Parts
import BoundedLookahead.Proofs.Safety

/-!
# A part and its whole in lockstep

The first sets of a part of a grammar are found from the sets of its own productions
only. The whole may need more rounds to find them, and it may hold sets that outgrow
its limit; the part may be given a greater limit. Round by round the sets of the part
are those of the whole, until a round changes nothing in the part. So where the whole
finds a first set of a node of the part, the part finds the same, and where it walks
such a tree with success, the walk over the part succeeds alike.
-/

namespace BoundedLookahead

/-- An outcome follows a given one: where that one succeeds, it succeeds with the same
value. The given one fails only where a set outgrows the limit. -/
def widening (limit : Nat) : Simulation (Except AnalysisError) where
  relates outcome given := (∀ a, given = .ok a → outcome = .ok a) ∧
    ∀ cause, given = .error cause →
      ∃ node depth size, cause = .limitExceeded node depth size limit ∧ limit < size
  pure a := ⟨fun _ h => h, nofun⟩
  bind {α β x y f g} hx hf := by
    constructor
    · intro b h
      obtain ⟨a, hy, hg⟩ := bind_eq_ok.mp h
      exact bind_eq_ok.mpr ⟨a, hx.1 a hy, (hf a hy).1 b hg⟩
    · intro cause h
      rcases bind_eq_error.mp h with hy | ⟨a, hy, hg⟩
      · exact hx.2 cause hy
      · exact (hf a hy).2 cause hg

/-- The first set of an expansion answers when those of its children do and the tables
agree on what it calls. -/
theorem Simulation.expansionFirst (S : Simulation (Except AnalysisError)) {α : Type}
    {a b : α → Except AnalysisError FirstSet} {expansion : Expansion α} {sets sets' : SetTable}
    {k : Nat} (children : ∀ child ∈ expansion.children, S.relates (a child) (b child))
    (calls : ∀ name args, expansion = .nonTerminal name args → sets.find name = sets'.find name) :
    S.relates (expansion.first a sets k) (expansion.first b sets' k) := by
  cases expansion with
  | nonTerminal name args =>
    simp only [Expansion.first, calls name args rfl]
    exact S.pure _
  | sequence units => exact S.firstOfSequence children k _
  | choice alternatives => exact S.firstOfChoice children _
  | repetition kind body guard =>
    have hb := children body (by simp [Expansion.children])
    cases kind with
    | oneOrMore => exact hb
    | _ => exact S.bind hb fun _ _ => S.pure _
  | tryBlock body handlers cleanup => exact children body (by simp [Expansion.children])
  | terminal kind => exact S.pure _
  | lookahead directive => exact S.pure _
  | action code => exact S.pure _

/-- A set that is within the limit is within a greater one. -/
theorem FirstSet.within_widening {limit limit' : Nat} (hl : limit ≤ limit') (set : FirstSet)
    (node : NodeId) (depth : Nat) :
    (widening limit).relates (set.within node depth limit') (set.within node depth limit) := by
  constructor
  · intro other h
    obtain ⟨rfl, hs⟩ := FirstSet.within_eq_ok.mp h
    exact FirstSet.within_eq_ok.mpr ⟨rfl, Nat.le_trans hs hl⟩
  · intro cause h
    obtain ⟨rfl, hs⟩ := FirstSet.within_eq_error h
    exact ⟨node, depth, set.size, rfl, hs⟩

/-- A run of rounds has one outcome. -/
theorem Rounds.unique {rules : List Rule} {k limit rounds : Nat} {sets : SetTable}
    {solution other : Solution} (run : Rounds rules k limit rounds sets solution)
    (run' : Rounds rules k limit rounds sets other) : solution = other := by
  induction run with
  | stopped h =>
    cases run' with
    | stopped h' => rw [h] at h'; cases h'; rfl
    | stable h' => rw [h] at h'; cases h'
    | changed h' => rw [h] at h'; cases h'
  | stable h =>
    cases run' with
    | stopped h' => rw [h] at h'; cases h'
    | stable h' => rfl
    | changed h' new => rw [h] at h'; cases h'; exact absurd rfl new
  | changed h new rest ih =>
    cases run' with
    | stopped h' => rw [h] at h'; cases h'
    | stable h' => rw [h] at h'; cases h'; exact absurd rfl new
    | changed h' _ rest' => rw [h] at h'; cases h'; exact ih rest'

namespace Registry

/-- A round succeeds when every production has its first set. -/
theorem exists_round {registry : Registry} {sets : SetTable} {k limit : Nat}
    (solved : ∀ production ∈ registry.productions,
      ∃ set, registry.firstAt sets k limit production.root = .ok set) :
    ∃ next, firstRound registry.rules k limit sets = .ok next := by
  cases h : firstRound registry.rules k limit sets with
  | ok next => exact ⟨next, rfl⟩
  | error cause =>
    rcases bind_eq_error.mp h with h | ⟨entries, _, h⟩
    · obtain ⟨rule, hm, hr⟩ := mapM_eq_error h
      obtain ⟨production, hp, rfl⟩ := mem_rules.mp hm
      obtain ⟨set, hs⟩ := solved production hp
      rcases bind_eq_error.mp hr with hr | ⟨other, _, hr⟩
      · rw [← firstAt, hs] at hr
        cases hr
      · cases hr
    · cases h

/-- The tables hold the same set for every name that is defined in both grammars or in
neither. -/
def SameSets (part whole : Registry) (sets sets' : SetTable) : Prop :=
  ∀ name, part.isDefined name = whole.isDefined name → sets.find name = sets'.find name

namespace PartOf

variable {part whole : Registry} (h : part.PartOf whole) {id : NodeId} {sets sets' next' : SetTable}
  {k limit limit' : Nat} (hl : limit ≤ limit')

include h hl

/-- The first set of a node of the part follows that in the whole. -/
theorem firstAt (same : part.SameSets whole sets sets') (hi : part.InDefinition id)
    (hg : part.Grounded id) : (widening limit).relates (part.firstAt sets k limit' id)
      (whole.firstAt sets' k limit id) := by
  induction hg with
  | @node id entry found below ih =>
    obtain ⟨expansion, location⟩ := entry
    have he : part.expansion? id = some expansion := by simp [expansion?, found]
    have hg : part.Grounded id := .node found below
    rw [hg.firstAt_eq he, (h.agrees.grounded hi hg).firstAt_eq ((h.agrees.expansion?_eq hi).symm.trans he)]
    refine (widening limit).bind ?_ fun set _ => set.within_widening hl id k
    refine (widening limit).expansionFirst (fun child hc => ?_) fun name args hn => ?_
    · exact ih child hc (h.agrees.of_child hi he child hc)
    · exact same name (h.isDefined_eq hi (hn ▸ he))

variable (hw : ∀ production ∈ whole.productions, whole.Grounded production.root)

include hw

/-- Where a round of the whole succeeds, a round of the part does, with the same sets. -/
theorem exists_sameRound (same : part.SameSets whole sets sets')
    (round : whole.Round k limit sets' next') :
    ∃ next, firstRound part.rules k limit' sets = .ok next ∧ part.SameSets whole next next' := by
  have solved (production : Production) (hp : production ∈ part.productions) :
      part.firstAt sets k limit' production.root = .ok (next'.find production.name) :=
    (h.firstAt hl same (.production hp) (h.grounded hw production hp)).1 _
      (round.solved production (h.mem_productions hp))
  obtain ⟨next, hn⟩ := exists_round fun production hp => ⟨_, solved production hp⟩
  have own := round_of_ok hn
  refine ⟨next, hn, fun name defined => ?_⟩
  by_cases hm : name ∈ part.names
  · obtain ⟨production, hp, rfl⟩ := List.mem_map.mp hm
    have := (own.solved production hp).symm.trans (solved production hp)
    simpa using this
  · have absent : name ∉ whole.names := by
      rw [← isDefined_iff, ← defined, isDefined_iff]
      exact hm
    rw [own.find_of_not_mem hm, round.find_of_not_mem absent]

/-- Where the rounds of the whole come to an end within the limit, those of the part do,
with the same sets. -/
theorem exists_rounds {rounds' : Nat} {solution' : Solution}
    (run : Rounds whole.rules k limit rounds' sets' solution') {final' : SetTable}
    (ho : solution'.outcome = .ok final') (same : part.SameSets whole sets sets')
    (names : ∀ name, name ∈ sets ↔ name ∈ part.names) (rounds : Nat) :
    ∃ solution final, Rounds part.rules k limit' rounds sets solution ∧
      solution.outcome = .ok final ∧ part.SameSets whole final final' := by
  induction run generalizing sets rounds with
  | stopped _ => cases ho
  | @stable rounds' sets' hf =>
    cases ho
    obtain ⟨next, hn, same'⟩ := h.exists_sameRound hl hw same (round_of_ok hf)
    have own := round_of_ok hn
    have unchanged : next = sets := by
      refine SetTable.ext_find (fun name => by rw [own.names, names]) fun name => ?_
      by_cases hm : name ∈ part.names
      · have defined : part.isDefined name = whole.isDefined name := by
          rw [isDefined_iff.mpr hm, h.isDefined (isDefined_iff.mpr hm)]
        rw [same name defined, same' name defined]
      · rw [own.find_of_not_mem hm, SetTable.find_of_not_mem (mt (names name).mp hm)]
    rw [unchanged] at hn
    exact ⟨_, sets, .stable hn, rfl, same⟩
  | @changed rounds' sets' next' solution' hf new rest ih =>
    obtain ⟨next, hn, same'⟩ := h.exists_sameRound hl hw same (round_of_ok hf)
    by_cases he : next = sets
    · exact ih ho (he ▸ same') names rounds
    · obtain ⟨solution, final, run, hs, same''⟩ := ih ho same' (round_of_ok hn).names (rounds + 1)
      exact ⟨solution, final, .changed hn he run, hs, same''⟩

/-- The first set of a node of the part at a depth follows that in the whole. -/
theorem firstOf (hi : part.InDefinition id) (hg : part.Grounded id) :
    (widening limit).relates (part.firstOf limit' id k) (whole.firstOf limit id k) := by
  have hg' := h.agrees.grounded hi hg
  constructor
  · intro set hf
    rw [hg'.firstOf_eq] at hf
    obtain ⟨final', ho, hf⟩ := bind_eq_ok.mp hf
    have start : part.SameSets whole part.initialSets whole.initialSets := fun name _ => by
      rw [find_initialSets, find_initialSets]
    obtain ⟨solution, final, run, hs, same⟩ := h.exists_rounds hl hw (solveFirst_rounds hw) ho start
      (@growing_initialSets part k limit').names 0
    rw [hg.firstOf_eq, (solveFirst_rounds (h.grounded hw)).unique run, hs, ok_bind]
    exact (h.firstAt hl same hi hg).1 set hf
  · intro cause hf
    obtain ⟨node, size, rfl, hs⟩ := hg'.firstOf_error hw hf
    exact ⟨node, k, size, rfl, hs⟩

omit hl in
/-- The nodes of a production of the part are grounded. -/
theorem within_root {production : Production} (hp : production ∈ part.productions) :
    (part.tree production.root).Within fun id => part.InDefinition id ∧ part.Grounded id := by
  intro below hb
  have hg := h.grounded hw production hp
  obtain ⟨id, reached, rfl⟩ := hg.mem_subtrees.mp hb
  rw [(hg.of_reaches reached).tree_id]
  exact ⟨⟨production, List.mem_append_left _ hp, reached⟩, hg.of_reaches reached⟩

/-- The walks over the trees of the part follow those of the whole. -/
theorem simulates : (part.oracle limit').Simulates (widening limit)
    (fun id => part.InDefinition id ∧ part.Grounded id) whole limit where
  first _ hi _ := h.firstOf hl hw hi.1 hi.2
  note _ := (widening limit).pure ()

end PartOf

end Registry

end BoundedLookahead
