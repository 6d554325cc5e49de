import BoundedLookahead.Resolution
import BoundedLookahead.Proofs.Conflicts
import BoundedLookahead.Proofs.Outcome

/-!
# Deciding a choice

A choice that is decided over the solutions of a grammar has one entry for each
alternative, with the first set of the alternative at the depth of the entry. Any
two entries up to the default are compared, at the deeper of their depths. So a
choice without warnings has no default before its last alternative and no two
alternatives with conflicting sets.
-/

namespace BoundedLookahead

/-- The report of an alternative behind the default. -/
def Scope.hiddenWarning (scope : Scope) (alternative : Tree) (index earlier : Nat) : Diagnostic :=
  ⟨.unreachableAlternative, scope.production, alternative.location,
    s!"alternative {index + 1} can never be chosen: alternative {earlier + 1} matches " ++
      "the empty string"⟩

/-- What is said of two alternatives that both can start with the same words. -/
def ambiguityMessage (i j : Nat) (common : WordSet) : String :=
  s!"choice conflict between alternatives {i + 1} and {j + 1}: both can start with " ++
    s!"{WordSet.text common}; alternative {i + 1} will be used"

/-- The report of two such alternatives. -/
def Scope.ambiguityWarning (scope : Scope) (location : Location) (i j : Nat) (common : WordSet) :
    Diagnostic :=
  ⟨.ambiguity, scope.production, location, ambiguityMessage i j common⟩

/-- Whether an alternative becomes the default of its choice, given the default
before it, its guard and its first set. -/
def becomesDefault (fallback : Option Nat) (guard : Option Guard) (set : FirstSet) : Bool :=
  fallback.isNone && !Guard.overridesIn guard && set.nullable

namespace Registry

variable {registry : Registry} {limit : Nat} {scope : Scope}

/-- The entry tests the alternative. -/
structure Tests (registry : Registry) (limit : Nat) (scope : Scope) (alternative : Tree)
    (entry : ChoiceEntry) : Prop where
  /-- It is about the node of the alternative. -/
  node : entry.node = alternative.id
  /-- The directive that leads the alternative gives its depth and its guard. -/
  guard : (registry.oracle limit).guard scope alternative.leadingDirective? =
    .ok (entry.depth, entry.guard)
  /-- It has the first set of the alternative at its depth. -/
  first : registry.firstOf limit alternative.id entry.depth = .ok entry.lookahead

/-- The depth of a decision is never 0 when the depth by default is not. -/
theorem depth_pos {directive : Option (Directive Tree)} {depth : Nat} {guard : Option Guard}
    (h : (registry.oracle limit).guard scope directive = .ok (depth, guard))
    (hs : 0 < scope.lookahead) : 0 < depth := by
  cases directive with
  | none =>
    cases h
    exact hs
  | some directive =>
    have pos : 0 < (directive.amount.filter fun amount => 0 < amount).getD scope.lookahead := by
      cases hf : directive.amount.filter fun amount => 0 < amount with
      | none => exact hs
      | some amount => simpa using (Option.filter_eq_some_iff.mp hf).2
    have last {plain : Bool} {found : Nat} {given : Guard}
        (h : (if plain then pure (found, none) else pure (found, some given) :
          Except AnalysisError (Nat × Option Guard)) = .ok (depth, guard)) : found = depth := by
      split at h <;> cases h <;> rfl
    obtain ⟨amount, predicate, _ | tree⟩ := directive
    · obtain ⟨_, _, h⟩ := bind_eq_ok.mp h
      exact last h ▸ pos
    · obtain ⟨set, _, h⟩ := bind_eq_ok.mp h
      obtain ⟨_, _, h⟩ := bind_eq_ok.mp h
      exact last h ▸ pos

/-- Alternatives are decided from the first to the last: each gets its entry, and a
report when it is hidden behind a default. -/
theorem entries_cons {index : Nat} {fallback : Option Nat} {alternative : Tree}
    {alternatives : List Tree} {result : List ChoiceEntry × List Diagnostic}
    (h : (registry.oracle limit).entries scope index fallback (alternative :: alternatives) =
      .ok result) :
    ∃ entry contradictions rest, registry.Tests limit scope alternative entry ∧
      entry.alternative = index ∧
      entry.isDefault = becomesDefault fallback entry.guard entry.lookahead ∧
      (registry.oracle limit).checkGuard scope alternative index entry.guard entry.lookahead =
        .ok contradictions ∧
      (registry.oracle limit).entries scope (index + 1)
        (if entry.isDefault then some index else fallback) alternatives = .ok rest ∧
      result = (entry :: rest.1,
        fallback.toList.map (scope.hiddenWarning alternative index) ++ contradictions ++ rest.2) := by
  obtain ⟨⟨depth, guard⟩, hg, h⟩ := bind_eq_ok.mp h
  obtain ⟨set, hs, h⟩ := bind_eq_ok.mp h
  cases fallback with
  | none =>
    obtain ⟨_, hh, h⟩ := bind_eq_ok.mp h
    cases hh
    obtain ⟨contradictions, hc, h⟩ := bind_eq_ok.mp h
    obtain ⟨rest, hr, h⟩ := bind_eq_ok.mp h
    cases h
    exact ⟨⟨index, alternative.id, depth, set, guard, becomesDefault none guard set⟩,
      contradictions, rest, ⟨rfl, hg, hs⟩, rfl, rfl, hc, hr, rfl⟩
  | some before =>
    obtain ⟨_, hw, h⟩ := bind_eq_ok.mp h
    cases hw
    obtain ⟨_, hh, h⟩ := bind_eq_ok.mp h
    cases hh
    obtain ⟨contradictions, hc, h⟩ := bind_eq_ok.mp h
    obtain ⟨rest, hr, h⟩ := bind_eq_ok.mp h
    cases h
    exact ⟨⟨index, alternative.id, depth, set, guard, becomesDefault (some before) guard set⟩,
      contradictions, rest, ⟨rfl, hg, hs⟩, rfl, rfl, hc, hr, rfl⟩

/-- Every alternative has its entry. -/
theorem entries_tests {index : Nat} {fallback : Option Nat} {alternatives : List Tree}
    {result : List ChoiceEntry × List Diagnostic}
    (h : (registry.oracle limit).entries scope index fallback alternatives = .ok result) :
    List.Forall₂ (registry.Tests limit scope) alternatives result.1 := by
  induction alternatives generalizing index fallback result with
  | nil =>
    cases h
    exact .nil
  | cons alternative alternatives ih =>
    obtain ⟨entry, contradictions, rest, ht, _, _, _, hr, rfl⟩ := entries_cons h
    exact .cons ht (ih hr)

/-- Every entry is that of an alternative. -/
theorem exists_tests {index : Nat} {fallback : Option Nat} {alternatives : List Tree}
    {result : List ChoiceEntry × List Diagnostic}
    (h : (registry.oracle limit).entries scope index fallback alternatives = .ok result)
    {entry : ChoiceEntry} (he : entry ∈ result.1) :
    ∃ alternative ∈ alternatives, registry.Tests limit scope alternative entry := by
  have all := entries_tests h
  clear h
  generalize result.1 = entries at he all
  induction all with
  | nil => cases he
  | cons first rest ih =>
    rcases List.mem_cons.mp he with rfl | he
    · exact ⟨_, List.mem_cons_self, first⟩
    · obtain ⟨alternative, ha, ht⟩ := ih he
      exact ⟨alternative, List.mem_cons_of_mem _ ha, ht⟩

/-- Entries are numbered like their alternatives. -/
theorem entries_numbered {index : Nat} {fallback : Option Nat} {alternatives : List Tree}
    {result : List ChoiceEntry × List Diagnostic}
    (h : (registry.oracle limit).entries scope index fallback alternatives = .ok result)
    {position : Nat} {entry : ChoiceEntry} (he : result.1[position]? = some entry) :
    entry.alternative = index + position := by
  induction alternatives generalizing index fallback result position with
  | nil =>
    cases h
    cases he
  | cons alternative alternatives ih =>
    obtain ⟨first, contradictions, rest, _, hi, _, _, hr, rfl⟩ := entries_cons h
    cases position with
    | zero =>
      cases he
      exact hi
    | succ position =>
      rw [List.getElem?_cons_succ] at he
      have := ih hr he
      omega

/-- Where no alternative is reported as hidden, an alternative before the last whose
guard does not override cannot match nothing and is no default. -/
theorem entries_open {index : Nat} {fallback : Option Nat} {alternatives : List Tree}
    {result : List ChoiceEntry × List Diagnostic}
    (h : (registry.oracle limit).entries scope index fallback alternatives = .ok result)
    (quiet : ∀ warning ∈ result.2, warning.kind ≠ .unreachableAlternative) :
    (fallback.isSome = true → alternatives = []) ∧
      ∀ earlier entry later, result.1 = earlier ++ entry :: later → later ≠ [] →
        entry.isDefault = false ∧
          (Guard.overridesIn entry.guard = false → entry.lookahead.nullable = false) := by
  induction alternatives generalizing index fallback result with
  | nil =>
    cases h
    exact ⟨fun _ => rfl, fun earlier entry later he => by simp at he⟩
  | cons alternative alternatives ih =>
    obtain ⟨first, contradictions, rest, _, _, hd, _, hr, rfl⟩ := entries_cons h
    obtain ⟨hnone, hopen⟩ := ih hr fun warning hw => quiet warning (List.mem_append_right _ hw)
    have hfallback : fallback = none := by
      cases fallback with
      | none => rfl
      | some before => exact absurd rfl (quiet _ (by simp; exact .inl rfl))
    subst hfallback
    refine ⟨nofun, fun earlier entry later he hne => ?_⟩
    cases earlier with
    | cons other earlier => exact hopen earlier entry later (by simpa using (List.cons.inj he).2) hne
    | nil =>
      obtain ⟨rfl, rfl⟩ := List.cons.inj he
      have hlater : first.isDefault = false := by
        rw [← Bool.not_eq_true]
        intro hdef
        rw [if_pos hdef] at hr hnone
        obtain rfl := hnone rfl
        cases hr
        exact hne rfl
      refine ⟨hlater, fun ho => ?_⟩
      rw [hd] at hlater
      simpa [becomesDefault, ho] using hlater

/-- Only entries of the choice are reached. -/
theorem reachedEntries_subset (entries : List ChoiceEntry) : reachedEntries entries ⊆ entries := by
  unfold reachedEntries
  split
  · exact List.take_subset _ _
  · exact List.Subset.refl _

/-- Where none of the entries before the last is the default, all of them are reached. -/
theorem reachedEntries_eq {entries : List ChoiceEntry}
    (h : ∀ earlier entry later, entries = earlier ++ entry :: later → later ≠ [] →
      entry.isDefault = false) : reachedEntries entries = entries := by
  unfold reachedEntries
  split
  · next position hp =>
    obtain ⟨inside, hd, _⟩ := List.findIdx?_eq_some_iff_getElem.mp hp
    refine List.take_of_length_le (Nat.not_lt.mp fun hl => ?_)
    have parts : entries = entries.take position ++ entries[position] :: entries.drop (position + 1) := by
      rw [← List.drop_eq_getElem_cons inside, List.take_append_drop]
    rw [h _ _ _ parts (by simpa using hl)] at hd
    cases hd
  · rfl

/-- The set of an entry at a greater depth is that of its node. -/
theorem Tests.entrySet {alternative : Tree} {entry : ChoiceEntry}
    (h : registry.Tests limit scope alternative entry) (depth : Nat) :
    (registry.oracle limit).entrySet entry depth = registry.firstOf limit entry.node depth := by
  unfold Oracle.entrySet
  split
  · next he =>
    rw [← he, h.node, h.first]
    rfl
  · rfl

/-- Two alternatives are not compared when the guard of one of them overrides. Others
are compared at the deeper of their depths, and reported when their sets are in conflict
there. -/
theorem ambiguity_cases {location : Location} {a b : ChoiceEntry} {warnings : List Diagnostic}
    (h : (registry.oracle limit).ambiguity scope location a b = .ok warnings) :
    ((Guard.overridesIn a.guard || Guard.overridesIn b.guard) = true ∧ warnings = []) ∨
    Guard.overridesIn a.guard = false ∧ Guard.overridesIn b.guard = false ∧
      ∃ left right, (registry.oracle limit).entrySet a (max a.depth b.depth) = .ok left ∧
        (registry.oracle limit).entrySet b (max a.depth b.depth) = .ok right ∧
        warnings = if (left.conflicts right).isEmpty then []
          else [scope.ambiguityWarning location a.alternative b.alternative (left.conflicts right)] := by
  unfold Oracle.ambiguity at h
  split at h
  · next exempt =>
    cases h
    exact .inl ⟨exempt, rfl⟩
  · next compared =>
    simp only [Bool.or_eq_true, not_or, Bool.not_eq_true] at compared
    obtain ⟨left, hl, h⟩ := bind_eq_ok.mp h
    obtain ⟨right, hr, h⟩ := bind_eq_ok.mp h
    refine .inr ⟨compared.1, compared.2, left, right, hl, hr, ?_⟩
    dsimp only at h
    split at h
    · next quiet =>
      cases h
      rw [if_pos quiet]
    · next conflict =>
      cases h
      rw [if_neg conflict]
      rfl

/-- Two alternatives without overriding guards are compared at the deeper of their
depths, and reported when their sets are in conflict there. -/
theorem ambiguity_eq_ok {location : Location} {a b : ChoiceEntry} {warnings : List Diagnostic}
    (ha : Guard.overridesIn a.guard = false) (hb : Guard.overridesIn b.guard = false)
    (h : (registry.oracle limit).ambiguity scope location a b = .ok warnings) :
    ∃ left right, (registry.oracle limit).entrySet a (max a.depth b.depth) = .ok left ∧
      (registry.oracle limit).entrySet b (max a.depth b.depth) = .ok right ∧
      ∀ word ∈ left.conflicts right, ∃ warning ∈ warnings, warning.kind = .ambiguity := by
  obtain ⟨exempt, _⟩ | ⟨_, _, left, right, hl, hr, rfl⟩ := ambiguity_cases h
  · rw [ha, hb] at exempt
    cases exempt
  · refine ⟨left, right, hl, hr, fun word hw => ?_⟩
    have conflict : ¬(left.conflicts right).isEmpty = true := fun he => by
      rw [Std.ExtTreeSet.isEmpty_iff.mp he] at hw
      exact Std.ExtTreeSet.not_mem_empty hw
    rw [if_neg conflict]
    exact ⟨_, List.mem_singleton_self _, rfl⟩

/-- Every entry is compared with each of the later ones. -/
theorem ambiguities_pairwise {location : Location} {entries : List ChoiceEntry}
    {warnings : List Diagnostic}
    (h : (registry.oracle limit).ambiguities scope location entries = .ok warnings) :
    entries.Pairwise fun a b => ∃ part,
      (registry.oracle limit).ambiguity scope location a b = .ok part ∧ part ⊆ warnings := by
  have row {a : ChoiceEntry} {later : List ChoiceEntry} {warnings : List Diagnostic}
      (h : (registry.oracle limit).ambiguitiesWith scope location a later = .ok warnings) :
      ∀ b ∈ later, ∃ part,
        (registry.oracle limit).ambiguity scope location a b = .ok part ∧ part ⊆ warnings := by
    induction later generalizing warnings with
    | nil => simp
    | cons b later ih =>
      obtain ⟨first, hf, h⟩ := bind_eq_ok.mp h
      obtain ⟨others, ho, h⟩ := bind_eq_ok.mp h
      cases h
      refine List.forall_mem_cons.mpr ⟨⟨first, hf, List.subset_append_left _ _⟩, fun c hc => ?_⟩
      obtain ⟨part, hp, hs⟩ := ih ho c hc
      exact ⟨part, hp, fun w hw => List.mem_append_right _ (hs hw)⟩
  induction entries generalizing warnings with
  | nil => exact .nil
  | cons a later ih =>
    obtain ⟨first, hf, h⟩ := bind_eq_ok.mp h
    obtain ⟨others, ho, h⟩ := bind_eq_ok.mp h
    cases h
    refine .cons (fun b hb => ?_) ((ih ho).imp fun {_ _} he => ?_)
    · obtain ⟨part, hp, hs⟩ := row hf b hb
      exact ⟨part, hp, fun w hw => List.mem_append_left _ (hs hw)⟩
    · obtain ⟨part, hp, hs⟩ := he
      exact ⟨part, hp, fun w hw => List.mem_append_right _ (hs hw)⟩

/-- What is reported of entries is reported of two of them, in their order. -/
theorem exists_of_mem_ambiguities {location : Location} {entries : List ChoiceEntry}
    {warnings : List Diagnostic}
    (h : (registry.oracle limit).ambiguities scope location entries = .ok warnings)
    {warning : Diagnostic} (hw : warning ∈ warnings) :
    ∃ (p q : Nat) (hp : p < entries.length) (hq : q < entries.length), p < q ∧ ∃ part,
      (registry.oracle limit).ambiguity scope location entries[p] entries[q] = .ok part ∧
      warning ∈ part := by
  have row {a : ChoiceEntry} {later : List ChoiceEntry} {warnings : List Diagnostic}
      (h : (registry.oracle limit).ambiguitiesWith scope location a later = .ok warnings)
      (hw : warning ∈ warnings) : ∃ (q : Nat) (hq : q < later.length), ∃ part,
        (registry.oracle limit).ambiguity scope location a later[q] = .ok part ∧ warning ∈ part := by
    induction later generalizing warnings with
    | nil =>
      cases h
      cases hw
    | cons b later ih =>
      obtain ⟨first, hf, h⟩ := bind_eq_ok.mp h
      obtain ⟨others, ho, h⟩ := bind_eq_ok.mp h
      cases h
      rcases List.mem_append.mp hw with hw | hw
      · exact ⟨0, Nat.zero_lt_succ _, first, hf, hw⟩
      · obtain ⟨q, hq, part, hpart, hw⟩ := ih ho hw
        exact ⟨q + 1, Nat.succ_lt_succ hq, part, hpart, hw⟩
  induction entries generalizing warnings with
  | nil =>
    cases h
    cases hw
  | cons a later ih =>
    obtain ⟨first, hf, h⟩ := bind_eq_ok.mp h
    obtain ⟨others, ho, h⟩ := bind_eq_ok.mp h
    cases h
    rcases List.mem_append.mp hw with hw | hw
    · obtain ⟨q, hq, part, hpart, hw⟩ := row hf hw
      exact ⟨0, q + 1, Nat.zero_lt_succ _, Nat.succ_lt_succ hq, Nat.zero_lt_succ q, part, hpart, hw⟩
    · obtain ⟨p, q, hp, hq, hpq, part, hpart, hw⟩ := ih ho hw
      exact ⟨p + 1, q + 1, Nat.succ_lt_succ hp, Nat.succ_lt_succ hq, Nat.succ_lt_succ hpq, part,
        hpart, hw⟩

/-- Checking a guard reports nothing but that it lets pass what cannot come, in the
production that is walked. -/
theorem checkGuard_warnings {alternative : Tree} {index : Nat} {guard : Option Guard}
    {set : FirstSet} {contradictions : List Diagnostic}
    (h : (registry.oracle limit).checkGuard scope alternative index guard set =
      .ok contradictions) : ∀ warning ∈ contradictions,
        warning.production = scope.production ∧ warning.kind = .guardContradiction := by
  unfold Oracle.checkGuard at h
  split at h
  · cases h
    simp
  · split at h
    · cases h
      simp
    · dsimp only at h
      split at h
      · cases h
        simp
      · cases h
        exact fun warning hw => List.mem_singleton.mp hw ▸ ⟨rfl, rfl⟩

/-- Deciding the entries reports hidden alternatives and guards that let pass what cannot
come, in the production that is walked. -/
theorem entries_warnings {index : Nat} {fallback : Option Nat} {alternatives : List Tree}
    {result : List ChoiceEntry × List Diagnostic}
    (h : (registry.oracle limit).entries scope index fallback alternatives = .ok result) :
    ∀ warning ∈ result.2, warning.production = scope.production ∧
      (warning.kind = .unreachableAlternative ∨ warning.kind = .guardContradiction) := by
  induction alternatives generalizing index fallback result with
  | nil =>
    cases h
    simp
  | cons alternative alternatives ih =>
    obtain ⟨entry, contradictions, rest, _, _, _, hc, hr, rfl⟩ := entries_cons h
    intro warning hw
    rcases List.mem_append.mp hw with hw | hw
    · rcases List.mem_append.mp hw with hw | hw
      · obtain ⟨before, _, rfl⟩ := List.mem_map.mp hw
        exact ⟨rfl, .inl rfl⟩
      · obtain ⟨walked, kind⟩ := checkGuard_warnings hc warning hw
        exact ⟨walked, .inr kind⟩
    · exact ih hr warning hw

/-- No other problems are reported of the entries. -/
theorem kind_of_mem_entries {index : Nat} {fallback : Option Nat} {alternatives : List Tree}
    {result : List ChoiceEntry × List Diagnostic}
    (h : (registry.oracle limit).entries scope index fallback alternatives = .ok result) :
    ∀ warning ∈ result.2,
      warning.kind = .unreachableAlternative ∨ warning.kind = .guardContradiction :=
  fun warning hw => (entries_warnings h warning hw).2

/-- What is reported of two entries is an ambiguity in the production that is walked. -/
theorem ambiguities_warnings {location : Location} {entries : List ChoiceEntry}
    {warnings : List Diagnostic}
    (h : (registry.oracle limit).ambiguities scope location entries = .ok warnings) :
    ∀ warning ∈ warnings, warning.production = scope.production ∧ warning.kind = .ambiguity := by
  intro warning hw
  obtain ⟨p, q, hp, hq, _, part, hpart, hw⟩ := exists_of_mem_ambiguities h hw
  obtain ⟨_, rfl⟩ | ⟨_, _, left, right, _, _, rfl⟩ := ambiguity_cases hpart
  · cases hw
  · split at hw
    · cases hw
    · rw [List.mem_singleton.mp hw]
      exact ⟨rfl, rfl⟩

/-- What is reported of two entries is an ambiguity. -/
theorem kind_of_mem_ambiguities {location : Location} {entries : List ChoiceEntry}
    {warnings : List Diagnostic}
    (h : (registry.oracle limit).ambiguities scope location entries = .ok warnings) :
    ∀ warning ∈ warnings, warning.kind = .ambiguity :=
  fun warning hw => (ambiguities_warnings h warning hw).2

/-- A choice is decided by the entries of its alternatives and comparing them up to
the default. -/
theorem choicePoint_eq_ok {id : NodeId} {location : Location} {alternatives : List Tree}
    {point : Point}
    (h : (registry.oracle limit).choicePoint scope id location alternatives = .ok point) :
    ∃ entries warnings conflicts depth,
      (registry.oracle limit).entries scope 0 none alternatives = .ok (entries, warnings) ∧
      (registry.oracle limit).ambiguities scope location (reachedEntries entries) = .ok conflicts ∧
      point = ⟨id, .choice ⟨depth, entries⟩, warnings ++ conflicts⟩ := by
  obtain ⟨⟨entries, warnings⟩, he, h⟩ := bind_eq_ok.mp h
  obtain ⟨conflicts, hc, h⟩ := bind_eq_ok.mp h
  cases h
  exact ⟨entries, warnings, conflicts, _, he, hc, rfl⟩

/-- No loop is reported of a choice. -/
theorem kind_ne_of_mem_choicePoint {id : NodeId} {location : Location} {alternatives : List Tree}
    {point : Point}
    (h : (registry.oracle limit).choicePoint scope id location alternatives = .ok point) :
    ∀ warning ∈ point.warnings, warning.kind ≠ .loopConflict := by
  obtain ⟨entries, warnings, conflicts, depth, he, hc, rfl⟩ := choicePoint_eq_ok h
  intro warning hw
  rcases List.mem_append.mp hw with hw | hw
  · rcases kind_of_mem_entries he warning hw with hk | hk
    · simp [hk]
    · simp [hk]
  · simp [kind_of_mem_ambiguities hc warning hw]

end Registry

end BoundedLookahead
