import BoundedLookahead.Proofs.Equations
import BoundedLookahead.Proofs.OwnershipRun

/-!
# Rounds of solving for first sets

The first set of a node grows with the sets of the productions it is found from.
Hence every round of solving adds to the sets of the round before, and since the
limit bounds every set, some round changes nothing. Solving ends there, with sets
that another round gives back, or with a set that outgrew the limit.
-/

namespace BoundedLookahead

/-- A set passes when it is within the limit. -/
theorem FirstSet.within_eq_ok {set other : FirstSet} {node : NodeId} {depth limit : Nat} :
    set.within node depth limit = .ok other ↔ other = set ∧ set.size ≤ limit := by
  unfold FirstSet.within
  split
  · next h => exact ⟨(nomatch ·), fun hs => absurd hs.2 (Nat.not_le.mpr h)⟩
  · next h =>
    constructor
    · intro he
      cases he
      exact ⟨rfl, Nat.not_lt.mp h⟩
    · rintro ⟨rfl, _⟩
      rfl

/-- A set is refused when it is beyond the limit. -/
theorem FirstSet.within_eq_error {set : FirstSet} {node : NodeId} {depth limit : Nat}
    {cause : AnalysisError} (h : set.within node depth limit = .error cause) :
    cause = .limitExceeded node depth set.size limit ∧ limit < set.size := by
  unfold FirstSet.within at h
  split at h
  · next hl =>
    cases h
    exact ⟨rfl, hl⟩
  · cases h

section

variable {α β : Type}

/-- Units may be replaced before their sets are found. -/
theorem firstOfSequence_map {m : Type → Type} [Monad m] (first : β → m FirstSet) (f : α → β)
    (k : Nat) (before : FirstSet) (units : List α) :
    firstOfSequence first k before (units.map f) =
      firstOfSequence (fun unit => first (f unit)) k before units := by
  induction units generalizing before with
  | nil => rfl
  | cons unit units ih => simp only [List.map_cons, firstOfSequence, ih]

/-- Alternatives may be replaced before their sets are found. -/
theorem firstOfChoice_map {m : Type → Type} [Monad m] (first : β → m FirstSet) (f : α → β)
    (others : FirstSet) (alternatives : List α) :
    firstOfChoice first others (alternatives.map f) =
      firstOfChoice (fun alternative => first (f alternative)) others alternatives := by
  induction alternatives generalizing others with
  | nil => rfl
  | cons alternative alternatives ih => simp only [List.map_cons, firstOfChoice, ih]

/-- Children may be replaced before their sets are found. -/
theorem Expansion.first_map (first : β → Except AnalysisError FirstSet) (f : α → β)
    (sets : SetTable) (k : Nat) (expansion : Expansion α) :
    (expansion.map f).first first sets k = expansion.first (fun child => first (f child)) sets k := by
  cases expansion with
  | sequence units => exact firstOfSequence_map first f k _ units
  | choice alternatives => exact firstOfChoice_map first f _ alternatives
  | repetition kind body guard => cases kind <;> rfl
  | _ => rfl

/-- The first set of a row fails only where that of a unit does. -/
theorem firstOfSequence_error {first : α → Except AnalysisError FirstSet} {k : Nat}
    {before : FirstSet} {units : List α} {cause : AnalysisError}
    (h : firstOfSequence first k before units = .error cause) :
    ∃ unit ∈ units, first unit = .error cause := by
  induction units generalizing before with
  | nil => cases h
  | cons unit units ih =>
    simp only [firstOfSequence] at h
    split at h
    · cases h
    · rcases bind_eq_error.mp h with h | ⟨set, _, h⟩
      · exact ⟨unit, List.mem_cons_self, h⟩
      · obtain ⟨other, hm, ho⟩ := ih h
        exact ⟨other, List.mem_cons_of_mem _ hm, ho⟩

/-- The first set of a choice fails only where that of an alternative does. -/
theorem firstOfChoice_error {first : α → Except AnalysisError FirstSet} {others : FirstSet}
    {alternatives : List α} {cause : AnalysisError}
    (h : firstOfChoice first others alternatives = .error cause) :
    ∃ alternative ∈ alternatives, first alternative = .error cause := by
  induction alternatives generalizing others with
  | nil => cases h
  | cons alternative alternatives ih =>
    rcases bind_eq_error.mp h with h | ⟨set, _, h⟩
    · exact ⟨alternative, List.mem_cons_self, h⟩
    · obtain ⟨other, hm, ho⟩ := ih h
      exact ⟨other, List.mem_cons_of_mem _ hm, ho⟩

/-- The first set of an expansion fails only where that of a child does. -/
theorem Expansion.first_error {first : α → Except AnalysisError FirstSet} {sets : SetTable}
    {k : Nat} {expansion : Expansion α} {cause : AnalysisError}
    (h : expansion.first first sets k = .error cause) :
    ∃ child ∈ expansion.children, first child = .error cause := by
  cases expansion with
  | terminal kind => cases h
  | nonTerminal name args => cases h
  | sequence units => exact firstOfSequence_error h
  | choice alternatives => exact firstOfChoice_error h
  | repetition kind body guard =>
    refine ⟨body, by simp [Expansion.children], ?_⟩
    cases kind with
    | oneOrMore => exact h
    | _ =>
      rcases bind_eq_error.mp h with h | ⟨set, _, h⟩
      · exact h
      · cases h
  | lookahead directive => cases h
  | action code => cases h
  | tryBlock body handlers cleanup => exact ⟨body, by simp [Expansion.children], h⟩

end

/-- The run of the rounds from given sets to a solution, after some rounds. -/
inductive Rounds (rules : List Rule) (k limit : Nat) : Nat → SetTable → Solution → Prop
  /-- A set outgrows the limit. -/
  | stopped {rounds : Nat} {sets : SetTable} {cause : AnalysisError}
    (h : firstRound rules k limit sets = .error cause) :
    Rounds rules k limit rounds sets ⟨rounds, .error cause⟩
  /-- A round gives the sets back. -/
  | stable {rounds : Nat} {sets : SetTable} (h : firstRound rules k limit sets = .ok sets) :
    Rounds rules k limit rounds sets ⟨rounds + 1, .ok sets⟩
  /-- A round changes the sets. -/
  | changed {rounds : Nat} {sets next : SetTable} {solution : Solution}
    (h : firstRound rules k limit sets = .ok next) (new : next ≠ sets)
    (rest : Rounds rules k limit (rounds + 1) next solution) :
    Rounds rules k limit rounds sets solution

namespace SetTable

variable {sets next : SetTable} {name : String}

/-- A production that is not in the table matches nothing. -/
theorem find_of_not_mem (h : name ∉ sets) : sets.find name = FirstSet.empty :=
  Std.ExtTreeMap.getD_eq_fallback h

/-- A table of entries with different names has their sets. -/
theorem find_ofList {entries : List (String × FirstSet)} {set : FirstSet}
    (distinct : (entries.map Prod.fst).Nodup) (h : (name, set) ∈ entries) :
    SetTable.find (Std.ExtTreeMap.ofList entries) name = set := by
  refine Std.ExtTreeMap.getD_ofList_of_mem Std.ReflCmp.compare_self ?_ h
  exact (List.pairwise_map.mp distinct).imp fun {_ _} hne he => hne (Std.LawfulEqCmp.eq_of_compare he)

/-- A table of entries has their names. -/
theorem mem_ofList {entries : List (String × FirstSet)} :
    name ∈ (Std.ExtTreeMap.ofList entries : SetTable) ↔ name ∈ entries.map Prod.fst := by
  rw [Std.ExtTreeMap.mem_ofList, List.contains_iff_mem]

/-- Tables with the same names and the same sets are equal. -/
theorem ext_find (names : ∀ name, name ∈ sets ↔ name ∈ next)
    (same : ∀ name, sets.find name = next.find name) : sets = next := by
  refine Std.ExtTreeMap.ext_getElem? fun name => ?_
  by_cases h : name ∈ sets
  · have h' := (names name).mp h
    have := same name
    unfold find at this
    rw [Std.ExtTreeMap.getElem?_eq_some_getD h, Std.ExtTreeMap.getElem?_eq_some_getD h', this]
  · have h' := mt (names name).mpr h
    rw [Std.ExtTreeMap.getElem?_eq_none h, Std.ExtTreeMap.getElem?_eq_none h']

end SetTable

namespace Registry

/-- The first set of a node, given the sets of the productions. -/
def firstAt (registry : Registry) (sets : SetTable) (k limit : Nat) (id : NodeId) :
    Except AnalysisError FirstSet :=
  (registry.tree id).first sets k limit

variable {registry : Registry} {id : NodeId} {sets next : SetTable} {k limit : Nat}

/-- The first set of a grounded node follows from those of its children. -/
theorem Grounded.firstAt_eq {expansion : Expansion NodeId} (h : registry.Grounded id)
    (he : registry.expansion? id = some expansion) :
    registry.firstAt sets k limit id = (do
      let set ← expansion.first (registry.firstAt sets k limit) sets k
      set.within id k limit) := by
  obtain ⟨location, ht⟩ := h.exists_tree_eq he
  unfold firstAt Tree.first
  rw [ht, Tree.fold_node, Expansion.map_map, firstOfNode, Expansion.first_map]
  rfl

/-- A first set that is found comes from the construct and is within the limit. -/
theorem Grounded.firstAt_eq_ok {expansion : Expansion NodeId} {set : FirstSet}
    (h : registry.Grounded id) (he : registry.expansion? id = some expansion) :
    registry.firstAt sets k limit id = .ok set ↔
      expansion.first (registry.firstAt sets k limit) sets k = .ok set ∧ set.size ≤ limit := by
  rw [h.firstAt_eq he, bind_eq_ok]
  constructor
  · rintro ⟨found, hf, hw⟩
    obtain ⟨rfl, hs⟩ := FirstSet.within_eq_ok.mp hw
    exact ⟨hf, hs⟩
  · rintro ⟨hf, hs⟩
    exact ⟨set, hf, FirstSet.within_eq_ok.mpr ⟨rfl, hs⟩⟩

/-- A first set that is found is within the limit. -/
theorem Grounded.size_firstAt_le {set : FirstSet} (h : registry.Grounded id)
    (hf : registry.firstAt sets k limit id = .ok set) : set.size ≤ limit := by
  obtain ⟨expansion, he, _⟩ := h.exists_expansion
  exact ((h.firstAt_eq_ok he).mp hf).2

/-- The first set of a grounded node fails only by outgrowing the limit. -/
theorem Grounded.firstAt_error {cause : AnalysisError} (h : registry.Grounded id)
    (hf : registry.firstAt sets k limit id = .error cause) :
    ∃ node size, cause = .limitExceeded node k size limit ∧ limit < size := by
  induction h with
  | @node id entry found below ih =>
    have he : registry.expansion? id = some entry.expansion := by simp [expansion?, found]
    rw [(Grounded.node found below).firstAt_eq he] at hf
    rcases bind_eq_error.mp hf with hf | ⟨set, _, hw⟩
    · obtain ⟨child, hc, hf⟩ := Expansion.first_error hf
      exact ih child hc hf
    · obtain ⟨rfl, hl⟩ := FirstSet.within_eq_error hw
      exact ⟨id, _, rfl, hl⟩

/-- A first set that is found is that of the equations. -/
theorem Grounded.plainFirst_of_firstAt {set : FirstSet} (h : registry.Grounded id)
    (hf : registry.firstAt sets k limit id = .ok set) : registry.plainFirst sets.find k id = set := by
  induction h generalizing set with
  | @node id entry found below ih =>
    have he : registry.expansion? id = some entry.expansion := by simp [expansion?, found]
    have h : registry.Grounded id := .node found below
    rw [h.plainFirst_eq he]
    exact Expansion.plainFirst_of_first (fun child hc a => ih child hc) ((h.firstAt_eq_ok he).mp hf).1

/-- The first set of a grounded node grows with the sets of the productions. -/
theorem Grounded.firstAt_mono {a b : FirstSet} (h : registry.Grounded id)
    (tables : ∀ name, sets.find name ≤ next.find name)
    (ha : registry.firstAt sets k limit id = .ok a) (hb : registry.firstAt next k limit id = .ok b) :
    a ≤ b := by
  rw [← h.plainFirst_of_firstAt ha, ← h.plainFirst_of_firstAt hb]
  exact h.plainFirst_mono tables

/-- The second sets are what a round makes of the first. -/
structure Round (registry : Registry) (k limit : Nat) (sets next : SetTable) : Prop where
  /-- They belong to the productions. -/
  names : ∀ name, name ∈ next ↔ name ∈ registry.names
  /-- Each is the first set of the root, given the first sets. -/
  solved : ∀ production ∈ registry.productions,
    registry.firstAt sets k limit production.root = .ok (next.find production.name)

/-- A round that succeeds does that. -/
theorem round_of_ok (h : firstRound registry.rules k limit sets = .ok next) :
    registry.Round k limit sets next := by
  obtain ⟨entries, he, hn⟩ := bind_eq_ok.mp h
  cases hn
  have hnames : entries.map Prod.fst = registry.names := by
    have named : entries.map Prod.fst = registry.rules.map Rule.name := by
      refine map_eq_of_mapM_eq_ok he fun rule entry hr => ?_
      obtain ⟨set, _, hs⟩ := bind_eq_ok.mp hr
      cases hs
      rfl
    rw [named]
    simp [names, rules, Rule.name, Function.comp_def]
  refine ⟨fun name => ?_, fun production hp => ?_⟩
  · rw [SetTable.mem_ofList, hnames]
  · have hr : (⟨production, registry.tree production.root⟩ : Rule) ∈ registry.rules :=
      List.mem_map_of_mem hp
    obtain ⟨entry, hm, hg⟩ := exists_mem_of_mapM_eq_ok he hr
    obtain ⟨set, hf, hs⟩ := bind_eq_ok.mp hg
    cases hs
    have distinct : (entries.map Prod.fst).Nodup := by
      rw [hnames]
      exact registry.names_nodup
    exact hf.trans (congrArg Except.ok (SetTable.find_ofList distinct hm).symm)

/-- A round fails only by outgrowing the limit. -/
theorem firstRound_error {cause : AnalysisError}
    (grounded : ∀ production ∈ registry.productions, registry.Grounded production.root)
    (h : firstRound registry.rules k limit sets = .error cause) :
    ∃ node size, cause = .limitExceeded node k size limit ∧ limit < size := by
  rcases bind_eq_error.mp h with h | ⟨entries, _, h⟩
  · obtain ⟨rule, hm, hr⟩ := mapM_eq_error h
    obtain ⟨production, hp, rfl⟩ := List.mem_map.mp hm
    rcases bind_eq_error.mp hr with hr | ⟨set, _, hr⟩
    · exact (grounded production hp).firstAt_error hr
    · cases hr
  · cases h

/-- What the sets of all productions weigh together. -/
def weight (registry : Registry) (sets : SetTable) : Nat :=
  registry.names.foldr (fun name total => (sets.find name).weight + total) 0

/-- Sets within the limit weigh no more than the limit and a marker each. -/
theorem weight_le (within : ∀ name, (sets.find name).size ≤ limit) :
    registry.weight sets ≤ registry.productions.length * (limit + 1) := by
  have (names : List String) :
      names.foldr (fun name total => (sets.find name).weight + total) 0 ≤
        names.length * (limit + 1) := by
    induction names with
    | nil => simp
    | cons name names ih =>
      have := within name
      have := (sets.find name).nullable.toNat_le
      simp only [List.foldr_cons, List.length_cons, FirstSet.weight, Nat.succ_mul] at ih ⊢
      omega
  simpa [weight, names] using this registry.names

/-- Sets that grow without weighing more stay the same. -/
theorem find_eq_of_weight_le (grow : ∀ name, sets.find name ≤ next.find name)
    (h : registry.weight next ≤ registry.weight sets) :
    ∀ name ∈ registry.names, sets.find name = next.find name := by
  have (names : List String) :
      names.foldr (fun name total => (sets.find name).weight + total) 0 ≤
          names.foldr (fun name total => (next.find name).weight + total) 0 ∧
        (names.foldr (fun name total => (next.find name).weight + total) 0 ≤
          names.foldr (fun name total => (sets.find name).weight + total) 0 →
          ∀ name ∈ names, sets.find name = next.find name) := by
    induction names with
    | nil => simp
    | cons name names ih =>
      have hn := FirstSet.weight_mono (grow name)
      obtain ⟨hle, heq⟩ := ih
      simp only [List.foldr_cons]
      refine ⟨Nat.add_le_add hn hle, fun h => List.forall_mem_cons.mpr ⟨?_, heq (by omega)⟩⟩
      exact FirstSet.eq_of_le_of_weight (grow name) (by omega)
  exact (this registry.names).2 h

/-- Sets from which the rounds go on: those of the productions, within the limit,
and part of what the next round makes of them. -/
structure Growing (registry : Registry) (k limit : Nat) (sets : SetTable) : Prop where
  /-- They belong to the productions. -/
  names : ∀ name, name ∈ sets ↔ name ∈ registry.names
  /-- They are within the limit. -/
  within : ∀ name, (sets.find name).size ≤ limit
  /-- The next round keeps them. -/
  grow : ∀ next, registry.Round k limit sets next → ∀ name, sets.find name ≤ next.find name

/-- The set of a name without production is empty before and after a round. -/
theorem Round.find_of_not_mem {name : String} (h : registry.Round k limit sets next)
    (hn : name ∉ registry.names) : next.find name = FirstSet.empty :=
  SetTable.find_of_not_mem (mt (h.names name).mp hn)

/-- What a round makes of growing sets grows on. -/
theorem Growing.round (grounded : ∀ production ∈ registry.productions, registry.Grounded production.root)
    (h : registry.Growing k limit sets) (hr : registry.Round k limit sets next) :
    registry.Growing k limit next := by
  refine ⟨hr.names, fun name => ?_, fun later hl name => ?_⟩
  · by_cases hn : name ∈ registry.names
    · obtain ⟨production, hp, rfl⟩ := List.mem_map.mp hn
      exact (grounded production hp).size_firstAt_le (hr.solved production hp)
    · rw [hr.find_of_not_mem hn]
      exact Nat.zero_le limit
  · by_cases hn : name ∈ registry.names
    · obtain ⟨production, hp, rfl⟩ := List.mem_map.mp hn
      exact (grounded production hp).firstAt_mono (h.grow next hr) (hr.solved production hp)
        (hl.solved production hp)
    · rw [hr.find_of_not_mem hn]
      exact FirstSet.empty_le _

/-- With enough fuel the rounds run to their end: a round that changes something
adds weight, and the limit bounds the weight. -/
theorem iterateFirst_rounds
    (grounded : ∀ production ∈ registry.productions, registry.Grounded production.root)
    (fuel rounds : Nat) (sets : SetTable) (h : registry.Growing k limit sets)
    (enough : registry.productions.length * (limit + 1) < registry.weight sets + fuel) :
    Rounds registry.rules k limit rounds sets
      (iterateFirst registry.rules k limit fuel rounds sets) := by
  induction fuel generalizing rounds sets with
  | zero =>
    have : registry.weight sets ≤ _ := weight_le h.within
    omega
  | succ fuel ih =>
    simp only [iterateFirst]
    cases hf : firstRound registry.rules k limit sets with
    | error cause => exact .stopped hf
    | ok next =>
      have hr := round_of_ok hf
      by_cases he : next = sets
      · subst he
        simp only [if_true]
        exact .stable hf
      · simp only [if_neg he]
        have hn := h.round grounded hr
        refine .changed hf he (ih _ _ hn ?_)
        -- equal weights would make the round change nothing
        have : registry.weight sets < registry.weight next := by
          by_contra hw
          have same := find_eq_of_weight_le (h.grow next hr) (Nat.not_lt.mp hw)
          refine he (SetTable.ext_find (fun name => ?_) fun name => ?_)
          · rw [hr.names, h.names]
          · by_cases hm : name ∈ registry.names
            · exact (same name hm).symm
            · rw [hr.find_of_not_mem hm, SetTable.find_of_not_mem (mt (h.names name).mp hm)]
        omega

/-- The sets from which solving starts. -/
def initialSets (registry : Registry) : SetTable :=
  Std.ExtTreeMap.ofList (registry.names.map fun name => (name, FirstSet.empty))

/-- In the beginning every production matches nothing. -/
theorem find_initialSets (name : String) : registry.initialSets.find name = FirstSet.empty := by
  have names : (registry.names.map fun name => (name, FirstSet.empty)).map Prod.fst = registry.names := by
    simp [Function.comp_def]
  by_cases h : name ∈ registry.names
  · refine SetTable.find_ofList ?_ (List.mem_map_of_mem h)
    rw [names]
    exact registry.names_nodup
  · refine SetTable.find_of_not_mem ?_
    rwa [initialSets, SetTable.mem_ofList, names]

/-- The rounds can start from the initial sets. -/
theorem growing_initialSets : registry.Growing k limit registry.initialSets := by
  refine ⟨fun name => ?_, fun name => ?_, fun next _ name => ?_⟩
  · rw [initialSets, SetTable.mem_ofList]
    simp [Function.comp_def]
  · rw [find_initialSets]
    exact Nat.zero_le limit
  · rw [find_initialSets]
    exact FirstSet.empty_le _

/-- Solving for first sets is a run of rounds to its end. -/
theorem solveFirst_rounds
    (grounded : ∀ production ∈ registry.productions, registry.Grounded production.root) :
    Rounds registry.rules k limit 0 registry.initialSets (registry.solveFirst limit k) :=
  iterateFirst_rounds grounded _ 0 _ growing_initialSets (by omega)

/-- Rounds fail only by outgrowing the limit. -/
theorem Rounds.outcome_error {rounds : Nat} {solution : Solution} {cause : AnalysisError}
    (run : Rounds registry.rules k limit rounds sets solution)
    (grounded : ∀ production ∈ registry.productions, registry.Grounded production.root)
    (h : solution.outcome = .error cause) :
    ∃ node size, cause = .limitExceeded node k size limit ∧ limit < size := by
  induction run with
  | stopped hf =>
    cases h
    exact firstRound_error grounded hf
  | stable hf => cases h
  | changed hf new rest ih => exact ih h

/-- Rounds that end without outgrowing the limit end in sets that another round gives
back and that have every property the rounds preserve. -/
theorem Rounds.invariant {P : SetTable → Prop} {rounds : Nat} {solution : Solution}
    {final : SetTable} (run : Rounds registry.rules k limit rounds sets solution) (start : P sets)
    (step : ∀ sets next, registry.Round k limit sets next → P sets → P next)
    (h : solution.outcome = .ok final) : P final ∧ registry.Round k limit final final := by
  induction run with
  | stopped hf => cases h
  | stable hf =>
    cases h
    exact ⟨start, round_of_ok hf⟩
  | changed hf new rest ih => exact ih (step _ _ (round_of_ok hf) start) h

end Registry

end BoundedLookahead
