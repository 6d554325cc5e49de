import BoundedLookahead.Proofs.Beginnings
import BoundedLookahead.Proofs.ChoicePoints

/-!
# Selecting an alternative

The first entry that admits the upcoming tokens is selected. Without overriding
guards and without a default in front, an entry admits what its set accepts. In a
choice without warnings, an earlier entry can only be in the way of a later one
when their depths differ.
-/

namespace BoundedLookahead

variable {upcoming : List Token} {holds : String → Bool}

/-- A bare depth, or no guard at all, neither compares other words nor asks a
predicate. -/
theorem Guard.admits_of_not_overrides {guard : Guard} (h : guard.overrides = false) (own : FirstSet) :
    guard.admits own upcoming holds = ⟨own.nullable || own.accepts upcoming, []⟩ := by
  obtain ⟨amount, syntactic, predicate⟩ := guard
  simp only [overrides, Bool.or_eq_false_iff, Option.isSome_eq_false_iff, Option.isNone_iff_eq_none] at h
  obtain ⟨rfl, rfl⟩ := h
  simp only [admits, passes, scanned?, Option.isNone_none, Bool.or_true, if_true]
  split
  · next hp => rw [hp]
  · next hp => rw [Bool.not_eq_true] at hp; rw [hp]

namespace ChoiceEntry

variable {entry : ChoiceEntry}

/-- An entry without overriding guard admits what its set accepts. -/
theorem admits_of_accepts (plain : Guard.overridesIn entry.guard = false)
    (h : entry.lookahead.accepts upcoming = true) : (entry.admits upcoming holds).value = true := by
  unfold admits
  cases hg : entry.guard with
  | none => simp [h]
  | some guard =>
    rw [hg] at plain
    simp [Guard.admits_of_not_overrides plain, h]

/-- An entry without overriding guard that cannot match nothing and is no default
admits only what its set accepts. -/
theorem accepts_of_admits (plain : Guard.overridesIn entry.guard = false)
    (full : entry.lookahead.nullable = false) (last : entry.isDefault = false)
    (h : (entry.admits upcoming holds).value = true) : entry.lookahead.accepts upcoming = true := by
  unfold admits at h
  cases hg : entry.guard with
  | none => simpa [hg, last] using h
  | some guard =>
    rw [hg] at plain h
    simpa [Guard.admits_of_not_overrides plain, full] using h

end ChoiceEntry

/-- The first entry that admits the tokens is selected. -/
theorem ChoiceDecision.selectFrom_append {earlier later : List ChoiceEntry} {entry : ChoiceEntry}
    (passed : ∀ other ∈ earlier, (other.admits upcoming holds).value = false)
    (admitted : (entry.admits upcoming holds).value = true) :
    (selectFrom upcoming holds (earlier ++ entry :: later)).value = some entry.alternative := by
  induction earlier with
  | nil => simp [selectFrom, admitted]
  | cons other earlier ih =>
    rw [List.forall_mem_cons] at passed
    simp only [List.cons_append, selectFrom, passed.1, Bool.false_eq_true, if_false]
    exact ih passed.2

namespace Registry

variable {registry : Registry} {limit : Nat} {scope : Scope}

/-- Two alternatives whose sets at the deeper of their depths are without conflict do
not accept the same tokens, when the later one begins with them also at the depth of
an earlier deeper one, and an earlier one that looks less far accepts them with a
complete sentence. -/
theorem Tests.not_accepts {first second : Tree} {a b : ChoiceEntry}
    (grounded : ∀ production ∈ registry.productions, registry.Grounded production.root)
    (ha : registry.Tests limit scope first a) (hb : registry.Tests limit scope second b)
    (inside : registry.InProduction first.id) (hd : 0 < a.depth)
    {left right : FirstSet} (hl : registry.firstOf limit a.node (max a.depth b.depth) = .ok left)
    (hr : registry.firstOf limit b.node (max a.depth b.depth) = .ok right)
    (quiet : ∀ word, word ∉ left.conflicts right) (own : b.lookahead.accepts upcoming = true)
    (deeper : b.depth < a.depth → ∃ set, registry.firstOf limit b.node a.depth = .ok set ∧
      set.accepts upcoming = true)
    (shallower : a.depth < b.depth → ∀ word ∈ a.lookahead.words, word <+: upcoming →
      word.length ≠ a.depth) : a.lookahead.accepts upcoming = false := by
  rw [← Bool.not_eq_true]
  intro hacc
  obtain ⟨word, hw, hp⟩ := FirstSet.accepts_iff.mp hacc
  suffices ∃ word ∈ left.words, word <+: upcoming ∧ right.accepts upcoming = true by
    obtain ⟨word, hw, hp, hra⟩ := this
    obtain ⟨other, ho, hop⟩ := FirstSet.accepts_iff.mp hra
    obtain ⟨common, hc, -⟩ := FirstSet.exists_mem_conflicts hw ho hp hop
    exact quiet common hc
  have hfa := ha.first
  have hfb := hb.first
  rw [← ha.node] at hfa inside
  rw [← hb.node] at hfb
  rcases Nat.lt_trichotomy a.depth b.depth with hlt | heq | hgt
  · -- the accepted word is too short to be cut, so it is a word of the deeper set too
    rw [Nat.max_eq_right (Nat.le_of_lt hlt)] at hl hr
    rw [hfb] at hr
    cases hr
    have hg := inside.grounded_of grounded
    obtain ⟨bounded, begins⟩ := hg.mem_firstOf hd grounded hfa
    have hne := (bounded word hw).1
    have short : word.length < a.depth := by
      have := (bounded word hw).2
      have := shallower hlt word hw hp
      omega
    have hbeg := ((begins word).mp (bounded.mem hw)).deeper hd (Nat.le_of_lt hlt) inside short
    have := ((hg.mem_firstOf (Nat.lt_trans hd hlt) grounded hl).2 word).mpr hbeg
    exact ⟨word, FirstSet.mem_words this hne, hp, own⟩
  · rw [heq, Nat.max_self] at hl hr
    rw [heq, hl] at hfa
    rw [hr] at hfb
    cases hfa
    cases hfb
    exact ⟨word, hw, hp, own⟩
  · rw [Nat.max_eq_left (Nat.le_of_lt hgt)] at hl hr
    rw [hfa] at hl
    cases hl
    obtain ⟨set, hs, haccept⟩ := deeper hgt
    rw [hr] at hs
    cases hs
    exact ⟨word, hw, hp, haccept⟩

/-- What holds of the entries of a choice that is decided without warnings. -/
structure Apart (registry : Registry) (limit : Nat) (scope : Scope) (alternatives : List Tree)
    (entries : List ChoiceEntry) : Prop where
  /-- Each is about an alternative. -/
  tests : ∀ entry ∈ entries, ∃ alternative ∈ alternatives,
    registry.Tests limit scope alternative entry
  /-- They are numbered. -/
  numbered : ∀ (position : Nat) (entry : ChoiceEntry), entries[position]? = some entry →
    entry.alternative = position
  /-- Before the last, an alternative that can match nothing has an overriding guard. -/
  opened : ∀ earlier entry later, entries = earlier ++ entry :: later → later ≠ [] →
    entry.isDefault = false ∧
      (Guard.overridesIn entry.guard = false → entry.lookahead.nullable = false)
  /-- Two without overriding guards are without conflict at the deeper of their depths. -/
  separate : entries.Pairwise fun a b => Guard.overridesIn a.guard = false →
    Guard.overridesIn b.guard = false →
      ∃ left right, registry.firstOf limit a.node (max a.depth b.depth) = .ok left ∧
        registry.firstOf limit b.node (max a.depth b.depth) = .ok right ∧
        ∀ word, word ∉ left.conflicts right

/-- A choice that is decided without warnings has such entries. -/
theorem apart_of_choicePoint {id : NodeId} {location : Location} {alternatives : List Tree}
    {point : Point} {decision : ChoiceDecision}
    (h : (registry.oracle limit).choicePoint scope id location alternatives = .ok point)
    (hd : point.decision = .choice decision)
    (quiet : ∀ warning ∈ point.warnings,
      warning.kind ≠ .ambiguity ∧ warning.kind ≠ .unreachableAlternative) :
    registry.Apart limit scope alternatives decision.entries := by
  obtain ⟨entries, warnings, conflicts, depth, he, hc, rfl⟩ := choicePoint_eq_ok h
  cases hd
  obtain ⟨_, opened⟩ := entries_open he fun warning hw =>
    (quiet warning (List.mem_append_left _ hw)).2
  rw [reachedEntries_eq fun earlier other later hsplit hne =>
    (opened earlier other later hsplit hne).1] at hc
  refine ⟨fun entry hm => exists_tests he hm, fun position entry hp => ?_, opened, ?_⟩
  · rw [entries_numbered he hp, Nat.zero_add]
  refine List.Pairwise.imp_of_mem (fun {a b} ha hb hpart plain plain' => ?_)
    (ambiguities_pairwise hc)
  obtain ⟨part, hp, hsub⟩ := hpart
  obtain ⟨left, right, hl, hr, hconf⟩ := ambiguity_eq_ok plain plain' hp
  obtain ⟨first, _, htf⟩ := exists_tests he ha
  obtain ⟨second, _, hts⟩ := exists_tests he hb
  rw [htf.entrySet] at hl
  rw [hts.entrySet] at hr
  refine ⟨left, right, hl, hr, fun word hw => ?_⟩
  obtain ⟨warning, hwarn, hk⟩ := hconf word hw
  exact (quiet warning (List.mem_append_right _ (hsub hwarn))).1 hk

/-- Entries that are apart select an alternative on tokens that its set accepts, unless
an earlier alternative of another depth is in the way. -/
theorem Apart.select {alternatives : List Tree} {decision : ChoiceDecision}
    (h : registry.Apart limit scope alternatives decision.entries)
    (grounded : ∀ production ∈ registry.productions, registry.Grounded production.root)
    (inside : ∀ alternative ∈ alternatives, registry.InProduction alternative.id)
    (hs : 0 < scope.lookahead)
    (plain : ∀ entry ∈ decision.entries, Guard.overridesIn entry.guard = false)
    {j : Nat} {entry : ChoiceEntry} (hj : decision.entries[j]? = some entry)
    (own : entry.lookahead.accepts upcoming = true)
    (deeper : ∀ other ∈ decision.entries.take j, entry.depth < other.depth →
      ∃ set, registry.firstOf limit entry.node other.depth = .ok set ∧ set.accepts upcoming = true)
    (shallower : ∀ other ∈ decision.entries.take j, other.depth < entry.depth →
      ∀ word ∈ other.lookahead.words, word <+: upcoming → word.length ≠ other.depth) :
    decision.select upcoming = some j := by
  obtain ⟨hlt, hget⟩ := List.getElem?_eq_some_iff.mp hj
  have parts : decision.entries =
      decision.entries.take j ++ entry :: decision.entries.drop (j + 1) := by
    rw [← hget, ← List.drop_eq_getElem_cons hlt, List.take_append_drop]
  have hmem : entry ∈ decision.entries := List.mem_of_getElem? hj
  have pairs := h.separate
  rw [parts, List.pairwise_append] at pairs
  have passed : ∀ other ∈ decision.entries.take j,
      (other.admits upcoming fun _ => true).value = false := by
    intro other ho
    have hom : other ∈ decision.entries := List.mem_of_mem_take ho
    obtain ⟨earlier, later, hsplit⟩ := List.append_of_mem ho
    obtain ⟨hdef, hnull⟩ := h.opened earlier other (later ++ entry :: decision.entries.drop (j + 1))
      (parts.trans (by rw [hsplit, List.append_assoc, List.cons_append])) (by simp)
    obtain ⟨first, hf, htf⟩ := h.tests other hom
    obtain ⟨second, _, hts⟩ := h.tests entry hmem
    obtain ⟨left, right, hl, hr, quiet⟩ :=
      pairs.2.2 other ho entry List.mem_cons_self (plain other hom) (plain entry hmem)
    have refused := htf.not_accepts grounded hts (inside first hf) (depth_pos htf.guard hs) hl hr
      quiet own (deeper other ho) (shallower other ho)
    rw [← Bool.not_eq_true]
    intro hadm
    rw [ChoiceEntry.accepts_of_admits (plain other hom) (hnull (plain other hom)) hdef hadm] at refused
    cases refused
  have found : (ChoiceDecision.selectFrom upcoming (fun _ => true)
      (decision.entries.take j ++ entry :: decision.entries.drop (j + 1))).value =
        some entry.alternative :=
    ChoiceDecision.selectFrom_append passed (ChoiceEntry.admits_of_accepts (plain entry hmem) own)
  rwa [← parts, h.numbered j entry hj] at found

end Registry

end BoundedLookahead
