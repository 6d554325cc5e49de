import BoundedLookahead.Proofs.Ambiguities
import BoundedLookahead.Proofs.Horizons
import BoundedLookahead.Proofs.Markers

/-!
# Default alternatives

The default of a choice is its first alternative that can match nothing and has no guard
that overrides. It lets every token pass, under a bare depth as well as without a guard,
so whatever tokens come and whatever predicates answer, an alternative up to it is taken.
The alternatives behind it are reported as unreachable, each once. Without a default none
is reported, and where no tokens are left only an overriding guard can let pass.
-/

namespace BoundedLookahead

section

variable {m : Type → Type} [Monad m] {upcoming : List Token} {answer : String → m Bool}

/-- A bare depth, or no guard at all, asks no predicate. -/
theorem Guard.admitsM_of_not_overrides {guard : Guard} (h : guard.overrides = false)
    (own : FirstSet) :
    guard.admitsM own upcoming answer = pure (own.nullable || own.accepts upcoming) := by
  obtain ⟨amount, syntactic, predicate⟩ := guard
  simp only [overrides, Bool.or_eq_false_iff, Option.isSome_eq_false_iff,
    Option.isNone_iff_eq_none] at h
  obtain ⟨rfl, rfl⟩ := h
  simp only [admitsM, passes, scanned?, Option.isNone_none, Bool.or_true, if_true]
  split
  · next hp => rw [hp]
  · next hp => rw [Bool.not_eq_true] at hp; rw [hp]

namespace ChoiceEntry

variable {entry : ChoiceEntry}

/-- Whether the alternative can be the default: it can match nothing, and no guard of it
overrides. -/
def isEligible (entry : ChoiceEntry) : Bool :=
  !Guard.overridesIn entry.guard && entry.lookahead.nullable

/-- Whether an entry without overriding guard lets every token pass. With a bare depth its
set says so, without a guard its mark. -/
def isLenient (entry : ChoiceEntry) : Bool :=
  if entry.guard.isSome then entry.lookahead.nullable else entry.isDefault

/-- An entry without overriding guard asks no predicate. -/
theorem admitsM_of_not_overrides (plain : Guard.overridesIn entry.guard = false) :
    entry.admitsM upcoming answer =
      pure (entry.isLenient || entry.lookahead.accepts upcoming) := by
  unfold admitsM isLenient
  cases hg : entry.guard with
  | none => rfl
  | some guard =>
    rw [hg] at plain
    exact Guard.admitsM_of_not_overrides plain entry.lookahead

/-- The guard of an entry that can be the default does not override. -/
theorem not_overridesIn (eligible : entry.isEligible = true) :
    Guard.overridesIn entry.guard = false := by
  simp only [isEligible, Bool.and_eq_true, Bool.not_eq_true'] at eligible
  exact eligible.1

/-- A default that can be one lets every token pass. -/
theorem isLenient_of_isEligible (eligible : entry.isEligible = true)
    (marked : entry.isDefault = true) : entry.isLenient = true := by
  simp only [isEligible, Bool.and_eq_true] at eligible
  unfold isLenient
  split
  · exact eligible.2
  · exact marked

/-- The default admits whatever comes. -/
theorem admitsM_of_isDefault (eligible : entry.isEligible = true)
    (marked : entry.isDefault = true) : entry.admitsM upcoming answer = pure true := by
  rw [admitsM_of_not_overrides (not_overridesIn eligible),
    isLenient_of_isEligible eligible marked, Bool.true_or]

/-- An entry that is not the default and cannot be one is not lenient. -/
theorem not_isLenient (plain : Guard.overridesIn entry.guard = false)
    (ineligible : entry.isEligible = false) (unmarked : entry.isDefault = false) :
    entry.isLenient = false := by
  simp only [isEligible, plain, Bool.not_false, Bool.true_and] at ineligible
  unfold isLenient
  split
  · exact ineligible
  · exact unmarked

end ChoiceEntry

end

/-- The first of the entries that can be the default is marked as such, and no other. -/
inductive MarkedFirst : List ChoiceEntry → Prop
  /-- There is no entry. -/
  | nil : MarkedFirst []
  /-- An entry that cannot be the default is passed over. -/
  | passed {entry : ChoiceEntry} {entries : List ChoiceEntry}
    (ineligible : entry.isEligible = false) (unmarked : entry.isDefault = false)
    (rest : MarkedFirst entries) : MarkedFirst (entry :: entries)
  /-- The first one that can be is the default, and none behind it. -/
  | default {entry : ChoiceEntry} {entries : List ChoiceEntry}
    (eligible : entry.isEligible = true) (marked : entry.isDefault = true)
    (behind : ∀ other ∈ entries, other.isDefault = false) : MarkedFirst (entry :: entries)

namespace MarkedFirst

variable {entries : List ChoiceEntry} {position : Nat} {entry : ChoiceEntry}

/-- An entry is the default exactly when it is the first that can be. -/
theorem isDefault_iff (h : MarkedFirst entries) (he : entries[position]? = some entry) :
    entry.isDefault = true ↔ entry.isEligible = true ∧
      ∀ earlier < position, ∀ other, entries[earlier]? = some other → other.isEligible = false := by
  induction h generalizing position with
  | nil => cases he
  | passed ineligible unmarked rest ih =>
    cases position with
    | zero =>
      obtain rfl := Option.some.inj he
      simp [ineligible, unmarked]
    | succ position =>
      rw [ih he]
      refine and_congr_right fun _ => ⟨fun before earlier lt other ho => ?_,
        fun before earlier lt => before (earlier + 1) (Nat.succ_lt_succ lt)⟩
      cases earlier with
      | zero => rwa [← Option.some.inj ho]
      | succ earlier => exact before earlier (Nat.lt_of_succ_lt_succ lt) other ho
  | default eligible marked behind =>
    cases position with
    | zero =>
      obtain rfl := Option.some.inj he
      simp [eligible, marked]
    | succ position =>
      have unmarked := behind entry (List.mem_of_getElem? he)
      refine ⟨fun isDefault => ?_, fun first => ?_⟩
      · rw [unmarked] at isDefault
        cases isDefault
      · have := first.2 0 (Nat.zero_lt_succ _) _ rfl
        rw [eligible] at this
        cases this

/-- Two defaults are one. -/
theorem unique (h : MarkedFirst entries) {other : Nat} {entry' : ChoiceEntry}
    (he : entries[position]? = some entry) (he' : entries[other]? = some entry')
    (marked : entry.isDefault = true) (marked' : entry'.isDefault = true) : position = other := by
  obtain ⟨eligible, first⟩ := (h.isDefault_iff he).mp marked
  obtain ⟨eligible', first'⟩ := (h.isDefault_iff he').mp marked'
  rcases Nat.lt_trichotomy position other with hlt | rfl | hlt
  · rw [first' position hlt entry he] at eligible
    cases eligible
  · rfl
  · rw [first other hlt entry' he'] at eligible'
    cases eligible'

/-- Without a default no entry can be one. -/
theorem not_isEligible (h : MarkedFirst entries)
    (none : ∀ entry ∈ entries, entry.isDefault = false) :
    ∀ entry ∈ entries, entry.isEligible = false := by
  induction h with
  | nil => simp
  | passed ineligible _ _ ih =>
    rw [List.forall_mem_cons] at none ⊢
    exact ⟨ineligible, ih none.2⟩
  | default _ marked _ =>
    rw [none _ List.mem_cons_self] at marked
    cases marked

end MarkedFirst

namespace ChoiceDecision

section

variable {τ : Type} {upcoming : List Token} {answer : String → StateM τ Bool} {state : τ}

/-- The first entry is taken, or the others are tried in the state it leaves. -/
theorem selectFromM_cons {first : ChoiceEntry} {entries : List ChoiceEntry} {passed : Bool}
    {next : τ} (h : first.admitsM upcoming answer state = (passed, next)) :
    selectFromM upcoming answer (first :: entries) state =
      if passed then (some first.alternative, next)
      else selectFromM upcoming answer entries next := by
  simp only [selectFromM, bind, StateT.bind, h]
  cases passed <;> rfl

/-- An entry that lets the tokens pass whatever predicates answer is taken, unless one
before it is. -/
theorem exists_selectFromM {entries : List ChoiceEntry} {d : Nat} {entry : ChoiceEntry}
    (he : entries[d]? = some entry) (admitted : entry.admitsM upcoming answer = pure true)
    (state : τ) : ∃ i other, i ≤ d ∧ entries[i]? = some other ∧
      (selectFromM upcoming answer entries state).1 = some other.alternative := by
  induction entries generalizing d state with
  | nil => cases he
  | cons first entries ih =>
    cases hf : first.admitsM upcoming answer state with
    | mk passed next =>
      rw [selectFromM_cons hf]
      cases passed with
      | true => exact ⟨0, first, Nat.zero_le d, rfl, rfl⟩
      | false =>
        cases d with
        | zero =>
          obtain rfl := Option.some.inj he
          rw [admitted] at hf
          cases hf
        | succ d =>
          obtain ⟨i, other, le, ho, selected⟩ := ih he next
          exact ⟨i + 1, other, Nat.succ_le_succ le, ho, selected⟩

/-- What is taken has let the tokens pass. -/
theorem exists_admitsM {entries : List ChoiceEntry} {alternative : Nat}
    (h : (selectFromM upcoming answer entries state).1 = some alternative) :
    ∃ entry ∈ entries, entry.alternative = alternative ∧
      ∃ before, (entry.admitsM upcoming answer before).1 = true := by
  induction entries generalizing state with
  | nil => cases h
  | cons first entries ih =>
    cases hf : first.admitsM upcoming answer state with
    | mk passed next =>
      rw [selectFromM_cons hf] at h
      cases passed with
      | true => exact ⟨first, List.mem_cons_self, Option.some.inj h, state, by rw [hf]⟩
      | false =>
        obtain ⟨entry, hm, same, before, admitted⟩ := ih h
        exact ⟨entry, List.mem_cons_of_mem _ hm, same, before, admitted⟩

end

variable {decision : ChoiceDecision}

/-- Without a default no entry is marked. -/
theorem default?_eq_none_iff :
    decision.default? = none ↔ ∀ entry ∈ decision.entries, entry.isDefault = false := by
  simp [default?]

/-- Fixed answers select what answers in a state can select. -/
theorem selectWith_eq_selectM (upcoming : List Token) (holds : String → Bool) :
    (decision.selectWith upcoming holds).value =
      (decision.selectM upcoming (noting holds) []).1 := by
  have noted : decision.selectM upcoming (noting holds) [] = _ := decision.selectM_noting
  rw [noted]

section

variable (marked : MarkedFirst decision.entries)
  (numbered : ∀ (position : Nat) (entry : ChoiceEntry),
    decision.entries[position]? = some entry → entry.alternative = position)

include marked numbered

/-- The default alternative is that of the one entry marked as default. -/
theorem default?_eq_some_iff {d : Nat} : decision.default? = some d ↔
    ∃ entry, decision.entries[d]? = some entry ∧ entry.isDefault = true := by
  constructor
  · intro h
    obtain ⟨entry, found, rfl⟩ := Option.map_eq_some_iff.mp h
    obtain ⟨position, hp⟩ := List.mem_iff_getElem?.mp (List.mem_of_find?_eq_some found)
    rw [numbered position entry hp]
    exact ⟨entry, hp, List.find?_some found⟩
  · rintro ⟨entry, he, hd⟩
    obtain ⟨first, found⟩ := Option.isSome_iff_exists.mp
      (List.find?_isSome.mpr ⟨entry, List.mem_of_getElem? he, hd⟩)
    obtain ⟨position, hp⟩ := List.mem_iff_getElem?.mp (List.mem_of_find?_eq_some found)
    obtain rfl := marked.unique hp he (List.find?_some found) hd
    rw [default?, found, Option.map_some, numbered position first hp]

variable {τ : Type} {answer : String → StateM τ Bool} {state : τ}

/-- With a default, an alternative up to it is taken. -/
theorem exists_selectM_le {d : Nat} (h : decision.default? = some d) (upcoming : List Token) :
    ∃ i ≤ d, (decision.selectM upcoming answer state).1 = some i := by
  obtain ⟨entry, he, hd⟩ := (default?_eq_some_iff marked numbered).mp h
  have admitted : entry.admitsM upcoming answer = pure true :=
    ChoiceEntry.admitsM_of_isDefault ((marked.isDefault_iff he).mp hd).1 hd
  obtain ⟨i, other, le, ho, selected⟩ := exists_selectFromM he admitted state
  exact ⟨i, le, by rw [selectM, selected, numbered i other ho]⟩

/-- Without a default, an entry that is taken where no tokens are left has an overriding
guard: the others could only match nothing, and they cannot. -/
theorem overridesIn_of_selectM (none : decision.default? = none)
    (full : ∀ entry ∈ decision.entries, entry.lookahead.accepts [] = false) {i : Nat}
    (h : (decision.selectM [] answer state).1 = some i) :
    ∃ entry, decision.entries[i]? = some entry ∧ Guard.overridesIn entry.guard = true := by
  obtain ⟨entry, hm, rfl, before, admitted⟩ := exists_admitsM h
  obtain ⟨position, hp⟩ := List.mem_iff_getElem?.mp hm
  refine ⟨entry, by rw [numbered position entry hp, hp], ?_⟩
  have unmarked := default?_eq_none_iff.mp none
  have ineligible := marked.not_isEligible unmarked entry hm
  rw [← Bool.not_eq_false]
  intro plain
  rw [ChoiceEntry.admitsM_of_not_overrides plain, full entry hm,
    ChoiceEntry.not_isLenient plain ineligible (unmarked entry hm)] at admitted
  cases admitted

end

end ChoiceDecision

/-- A bounded set accepts nothing where no tokens are left: it stores no empty word. -/
theorem FirstSet.Bounded.not_accepts_nil {set : FirstSet} {k : Nat} (h : set.Bounded k) :
    set.accepts [] = false := by
  rw [← Bool.not_eq_true, FirstSet.accepts_iff]
  rintro ⟨word, hm, starts⟩
  exact (h word hm).1 (List.prefix_nil.mp starts)

namespace Registry

variable {registry : Registry} {limit : Nat} {scope : Scope}

/-- The report of an alternative that is hidden behind the default. -/
def hiddenReport (registry : Registry) (production : String) (d : Nat) (entry : ChoiceEntry) :
    Diagnostic :=
  ⟨.unreachableAlternative, production, (registry.tree entry.node).location,
    s!"alternative {entry.alternative + 1} can never be chosen: alternative {d + 1} matches " ++
      "the empty string"⟩

/-- Checking a guard reports nothing as unreachable. -/
theorem filter_checkGuard {alternative : Tree} {index : Nat} {guard : Option Guard}
    {set : FirstSet} {contradictions : List Diagnostic}
    (h : (registry.oracle limit).checkGuard scope alternative index guard set = .ok contradictions)
    (others : List Diagnostic) :
    (contradictions ++ others).filter (·.kind = .unreachableAlternative) =
      others.filter (·.kind = .unreachableAlternative) := by
  have checked : contradictions.filter (·.kind = .unreachableAlternative) = [] :=
    filter_kind_eq_nil fun warning hw => (checkGuard_warnings h warning hw).2.trans_ne (by decide)
  rw [List.filter_append, checked, List.nil_append]

/-- Behind a default every alternative is reported, and none is marked. -/
theorem entries_behind {index d : Nat} {alternatives : List Tree}
    (trees : ∀ alternative ∈ alternatives, registry.tree alternative.id = alternative)
    {result : List ChoiceEntry × List Diagnostic}
    (h : (registry.oracle limit).entries scope index (some d) alternatives = .ok result) :
    (∀ entry ∈ result.1, entry.isDefault = false) ∧
      result.2.filter (·.kind = .unreachableAlternative) =
        result.1.map (registry.hiddenReport scope.production d) := by
  induction alternatives generalizing index result with
  | nil =>
    cases h
    exact ⟨by simp, rfl⟩
  | cons alternative alternatives ih =>
    rw [List.forall_mem_cons] at trees
    obtain ⟨entry, contradictions, rest, tests, number, mark, hc, hr, rfl⟩ := entries_cons h
    have unmarked : entry.isDefault = false := mark
    rw [unmarked] at hr
    obtain ⟨others, hidden⟩ := ih trees.2 hr
    have first : scope.hiddenWarning alternative index d =
        registry.hiddenReport scope.production d entry := by
      rw [hiddenReport, tests.node, trees.1, number]
      rfl
    refine ⟨List.forall_mem_cons.mpr ⟨unmarked, others⟩, ?_⟩
    rw [List.append_assoc, List.filter_append, filter_checkGuard hc, hidden]
    simp [first, hiddenReport]

/-- Without a default so far, the first alternative that can be one is marked, and the
alternatives behind it are reported. -/
theorem entries_marked {index : Nat} {alternatives : List Tree}
    (trees : ∀ alternative ∈ alternatives, registry.tree alternative.id = alternative)
    {result : List ChoiceEntry × List Diagnostic}
    (h : (registry.oracle limit).entries scope index none alternatives = .ok result) :
    MarkedFirst result.1 ∧
      ((∀ entry ∈ result.1, entry.isDefault = false) →
        result.2.filter (·.kind = .unreachableAlternative) = []) ∧
      ∀ d entry, result.1[d]? = some entry → entry.isDefault = true →
        result.2.filter (·.kind = .unreachableAlternative) =
          (result.1.drop (d + 1)).map (registry.hiddenReport scope.production (index + d)) := by
  induction alternatives generalizing index result with
  | nil =>
    cases h
    exact ⟨.nil, fun _ => rfl, fun d entry he => by simp at he⟩
  | cons alternative alternatives ih =>
    rw [List.forall_mem_cons] at trees
    obtain ⟨entry, contradictions, rest, _, _, mark, hc, hr, rfl⟩ := entries_cons h
    have mark : entry.isDefault = entry.isEligible := mark
    have warnings := filter_checkGuard hc rest.2
    cases marked : entry.isDefault with
    | true =>
      rw [marked] at hr mark
      obtain ⟨behind, hidden⟩ := entries_behind trees.2 hr
      refine ⟨.default mark.symm marked behind, fun none => ?_, fun d other ho hd => ?_⟩
      · rw [none entry List.mem_cons_self] at marked
        cases marked
      · cases d with
        | zero => exact warnings.trans hidden
        | succ d =>
          rw [behind other (List.mem_of_getElem? ho)] at hd
          cases hd
    | false =>
      rw [marked] at hr mark
      obtain ⟨first, quiet, hidden⟩ := ih trees.2 hr
      refine ⟨.passed mark.symm marked first, fun none => ?_, fun d other ho hd => ?_⟩
      · exact warnings.trans (quiet (List.forall_mem_cons.mp none).2)
      · cases d with
        | zero =>
          rw [Option.some.inj ho, hd] at marked
          cases marked
        | succ d =>
          have behind := hidden d other ho hd
          rw [Nat.add_right_comm, Nat.add_assoc] at behind
          exact warnings.trans behind

/-- What the default of a choice means for its entries, for what it selects and for the
warnings made of it. -/
structure Defaulted (registry : Registry) (production : String) (decision : ChoiceDecision)
    (warnings : List Diagnostic) : Prop where
  /-- Entries are numbered in order. -/
  numbered : ∀ (position : Nat) (entry : ChoiceEntry),
    decision.entries[position]? = some entry → entry.alternative = position
  /-- The default is the first entry whose set can match nothing and whose guard, if any, does
  not override. -/
  isDefault_iff : ∀ (position : Nat) (entry : ChoiceEntry),
    decision.entries[position]? = some entry → (entry.isDefault = true ↔
      entry.isEligible = true ∧ ∀ earlier < position, ∀ other,
        decision.entries[earlier]? = some other → other.isEligible = false)
  /-- No two entries are the default. -/
  once : ∀ (position other : Nat) (entry entry' : ChoiceEntry),
    decision.entries[position]? = some entry → decision.entries[other]? = some entry' →
      entry.isDefault = true → entry'.isDefault = true → position = other
  /-- The default alternative is that of the entry marked as default. -/
  default_iff : ∀ d, decision.default? = some d ↔
    ∃ entry, decision.entries[d]? = some entry ∧ entry.isDefault = true
  /-- With a default, an alternative up to it is taken on any tokens, whatever predicates
  answer, also with effects. -/
  selects : ∀ d, decision.default? = some d → ∀ upcoming,
    (∀ holds, ∃ i ≤ d, (decision.selectWith upcoming holds).value = some i) ∧
      ∀ (τ : Type) (answer : String → StateM τ Bool) (state : τ),
        ∃ i ≤ d, (decision.selectM upcoming answer state).1 = some i
  /-- With a default, each alternative behind it is reported once, and no other. -/
  hides : ∀ d, decision.default? = some d → warnings.filter (·.kind = .unreachableAlternative) =
    (decision.entries.drop (d + 1)).map (registry.hiddenReport production d)
  /-- Without a default nothing is reported as unreachable. -/
  quiet : decision.default? = none → warnings.filter (·.kind = .unreachableAlternative) = []
  /-- Without a default, only an overriding guard lets pass where no tokens are left. -/
  opens : decision.default? = none → ∀ i,
    ((∃ holds, (decision.selectWith [] holds).value = some i) ∨
      ∃ (τ : Type) (answer : String → StateM τ Bool) (state : τ),
        (decision.selectM [] answer state).1 = some i) →
      ∃ entry, decision.entries[i]? = some entry ∧ Guard.overridesIn entry.guard = true

/-- Deciding a choice makes its default like that. -/
theorem defaulted_of_choicePoint {id : NodeId} {location : Location} {alternatives : List Tree}
    {point : Point}
    (h : (registry.oracle limit).choicePoint scope id location alternatives = .ok point)
    (trees : ∀ alternative ∈ alternatives, registry.tree alternative.id = alternative)
    {decision : ChoiceDecision} (hd : point.decision = .choice decision)
    (full : ∀ entry ∈ decision.entries, entry.lookahead.accepts [] = false) :
    registry.Defaulted scope.production decision point.warnings := by
  obtain ⟨entries, remarks, conflicts, depth, he, hc, rfl⟩ := choicePoint_eq_ok h
  cases hd
  obtain ⟨marked, quiet, hidden⟩ := entries_marked trees he
  have numbered (position : Nat) (entry : ChoiceEntry) (hp : entries[position]? = some entry) :
      entry.alternative = position := by
    simpa using entries_numbered he hp
  have remarked : (remarks ++ conflicts).filter (·.kind = .unreachableAlternative) =
      remarks.filter (·.kind = .unreachableAlternative) := by
    rw [List.filter_append, filter_kind_eq_nil fun warning hw =>
      (kind_of_mem_ambiguities hc warning hw).trans_ne (by decide), List.append_nil]
  have default_iff (d : Nat) : (⟨depth, entries⟩ : ChoiceDecision).default? = some d ↔
      ∃ entry, entries[d]? = some entry ∧ entry.isDefault = true :=
    ChoiceDecision.default?_eq_some_iff marked numbered
  refine {
    numbered
    default_iff
    isDefault_iff := fun position entry hp => marked.isDefault_iff hp
    once := fun _ _ _ _ he he' => marked.unique he he'
    selects := fun d hd upcoming => ⟨fun holds => ?_, fun τ answer state =>
      ChoiceDecision.exists_selectM_le marked numbered hd upcoming⟩
    hides := fun d hd => ?_
    quiet := fun none => remarked.trans (quiet (ChoiceDecision.default?_eq_none_iff.mp none))
    opens := fun none i selected => ?_ }
  · rw [ChoiceDecision.selectWith_eq_selectM]
    exact ChoiceDecision.exists_selectM_le marked numbered hd upcoming
  · obtain ⟨entry, hp, isDefault⟩ := (default_iff d).mp hd
    have behind := hidden d entry hp isDefault
    rw [Nat.zero_add] at behind
    exact remarked.trans behind
  · rcases selected with ⟨holds, selected⟩ | ⟨τ, answer, state, selected⟩
    · rw [ChoiceDecision.selectWith_eq_selectM] at selected
      exact ChoiceDecision.overridesIn_of_selectM marked numbered none full selected
    · exact ChoiceDecision.overridesIn_of_selectM marked numbered none full selected

variable {σ : Type} {options : Options} {state : σ} {analysis : Analysis}

/-- The entries of a choice are marked as defaults are. -/
theorem markedFirst_of_choice? (analyzed : (registry.analyze options state).result = .ok analysis)
    {id : NodeId} {decision : ChoiceDecision}
    (decided : analysis.decisions.choice? id = some decision) : MarkedFirst decision.entries := by
  obtain ⟨_, _, _, _, _, _, _, _, h, hd, _, trees⟩ := exists_choicePoint analyzed decided
  obtain ⟨entries, _, _, _, he, _, rfl⟩ := choicePoint_eq_ok h
  cases hd
  exact (entries_marked trees he).1

/-- The default of every choice is its first alternative that can match nothing and has no
overriding guard. It is taken, or an alternative before it, whatever tokens come and
whatever predicates answer, and each alternative behind it is reported once. No other
alternatives are reported, and a choice without default selects nothing where no tokens are
left, except by an overriding guard. -/
theorem defaults_exact (analyzed : (registry.analyze options state).result = .ok analysis) :
    (∃ choices : List NodeId, choices.Nodup ∧
      (∀ id, id ∈ choices ↔ ∃ decision, analysis.decisions.choice? id = some decision) ∧
      analysis.diagnostics.items.filter (·.kind = .unreachableAlternative) =
        choices.flatMap fun id =>
          (registry.warningsAt options id).filter (·.kind = .unreachableAlternative)) ∧
    ∀ id decision, analysis.decisions.choice? id = some decision →
      registry.expansion? id = some (.choice (decision.entries.map (·.node))) ∧
      (∀ entry ∈ decision.entries,
        entry.lookahead.nullable = true ↔ registry.Derives .repeated entry.node []) ∧
      ∃ production ∈ registry.productions, registry.Reaches production.root id ∧
        registry.Defaulted production.name decision (registry.warningsAt options id) := by
  refine ⟨exists_choices analyzed (by decide) (by decide), fun id decision decided => ?_⟩
  obtain ⟨inside, about⟩ := decidedAs_of_get? analyzed (DecisionTable.choice?_eq_some.mp decided)
  obtain ⟨_, ⟨final, ho⟩, _⟩ := analyze_eq_ok analyzed
  have grounded := grounded_production ho
  cases about with
  | @choice alternatives _ he _ nodes first =>
  have below {entry : ChoiceEntry} (hm : entry ∈ decision.entries) :
      registry.Grounded entry.node :=
    (inside.of_child he (nodes ▸ List.mem_map_of_mem hm)).grounded_of grounded
  refine ⟨by rw [he, nodes], fun entry hm =>
    (below hm).nullable_firstOf_iff grounded (first entry hm).2, ?_⟩
  obtain ⟨production, hprod, reached, scope, location, trees, point, same, h, hd, warnings, own⟩ :=
    exists_choicePoint analyzed decided
  refine ⟨production, hprod, reached, ?_⟩
  rw [← warnings, ← same]
  refine defaulted_of_choicePoint h own hd fun entry hm => ?_
  obtain ⟨positive, found⟩ := first entry hm
  exact ((below hm).mem_firstOf positive grounded found).1.not_accepts_nil

/-- The grammar `S -> LOOKAHEAD(b) ( ) | a | LOOKAHEAD(2) [a] | c`. -/
def guardedEmpties : Registry where
  nodes := #[⟨.terminal "b", {}⟩, ⟨.lookahead { guard := some 0 }, {}⟩, ⟨.sequence [1], {}⟩,
    ⟨.terminal "a", {}⟩, ⟨.lookahead { amount := some 2 }, {}⟩, ⟨.terminal "a", {}⟩,
    ⟨.repetition .zeroOrOne 5 none, {}⟩, ⟨.sequence [4, 6], {}⟩, ⟨.terminal "c", {}⟩,
    ⟨.choice [2, 3, 7, 8], {}⟩]
  productions := [{ name := "S", root := (9 : Nat) }]
  tokens := ["a", "b", "c"]

/-- The first alternative can match nothing, but its guard overrides. The third one is the
default, under a bare depth: it or an alternative before it is taken on any tokens, and the
fourth is the one that is reported. -/
theorem defaults_guardedEmpties : ∃ analysis decision,
    (guardedEmpties.analyze {} ()).result = .ok analysis ∧
      analysis.decisions.choice? 9 = some decision ∧ decision.default? = some 2 ∧
      (∀ upcoming holds, ∃ i ≤ 2, (decision.selectWith upcoming holds).value = some i) ∧
      ((guardedEmpties.warningsAt {} 9).filter (·.kind = .unreachableAlternative)).length = 1 := by
  have computed : ((guardedEmpties.analyze {} ()).result.toOption.bind fun analysis =>
      (analysis.decisions.choice? 9).map fun decision =>
        (decision.default?, decision.entries.length)) = some (some 2, 4) := by
    decide +kernel
  obtain ⟨analysis, ha, found⟩ := Option.bind_eq_some_iff.mp computed
  obtain ⟨decision, hd, found⟩ := Option.map_eq_some_iff.mp found
  obtain ⟨default, count⟩ := Prod.mk.inj found
  have analyzed := toOption_eq_some.mp ha
  obtain ⟨_, choices⟩ := defaults_exact analyzed
  obtain ⟨_, _, production, _, _, defaulted⟩ := choices 9 decision hd
  refine ⟨analysis, decision, analyzed, hd, default,
    fun upcoming => (defaulted.selects 2 default upcoming).1, ?_⟩
  rw [defaulted.hides 2 default, List.length_map, List.length_drop, count]

end Registry

end BoundedLookahead
