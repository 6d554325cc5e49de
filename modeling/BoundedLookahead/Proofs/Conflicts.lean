import BoundedLookahead.Proofs.FirstSets

/-!
# Conflicts of first sets

Two first sets are in conflict when a word of one is a prefix of a word of the
other. Sets that both accept the same upcoming tokens are always in conflict, so
sets without conflict tell every input apart.
-/

namespace BoundedLookahead

/-- The prefixes of a word are what their name says. -/
@[simp] theorem Word.mem_prefixes {word part : Word} : part ∈ word.prefixes ↔ part <+: word := by
  induction word generalizing part with
  | nil => simp [Word.prefixes]
  | cons kind word ih =>
    rw [Word.prefixes, List.mem_cons, List.mem_map]
    constructor
    · rintro (rfl | ⟨rest, hr, rfl⟩)
      · exact List.nil_prefix
      · exact List.cons_prefix_cons.mpr ⟨rfl, ih.mp hr⟩
    · intro h
      cases part with
      | nil => exact .inl rfl
      | cons first rest =>
        obtain ⟨rfl, hr⟩ := List.cons_prefix_cons.mp h
        exact .inr ⟨rest, ih.mpr hr, rfl⟩

namespace FirstSet

variable {a b set : FirstSet} {word : Word} {upcoming : List Token}

/-- Tokens are accepted when they start with a stored word. -/
theorem accepts_iff : set.accepts upcoming = true ↔ ∃ word ∈ set.words, word <+: upcoming := by
  simp [accepts, List.any_eq_true, List.isPrefixOf_iff_prefix]

/-- The conflicting words are the shorter members of the pairs in conflict. -/
theorem mem_conflicts : word ∈ a.conflicts b ↔
    (word ∈ a.words ∧ ∃ other ∈ b.words, word <+: other) ∨
      (word ∈ b.words ∧ ∃ other ∈ a.words, word <+: other) := by
  have (a b : FirstSet) :
      word ∈ a.prefixesIn b ↔ word ∈ a.words ∧ ∃ other ∈ b.words, word <+: other := by
    simp only [prefixesIn, List.mem_flatMap, List.mem_filter, Word.mem_prefixes,
      Std.ExtTreeSet.mem_toList, Std.ExtTreeSet.contains_iff_mem]
    constructor
    · rintro ⟨other, ho, hp, hm⟩
      exact ⟨hm, other, ho, hp⟩
    · rintro ⟨hm, other, ho, hp⟩
      exact ⟨other, ho, hp, hm⟩
  rw [conflicts, WordSet.mem_ofList, List.mem_append, this, this]

/-- It does not matter which of the sets comes first. -/
theorem conflicts_comm (a b : FirstSet) : a.conflicts b = b.conflicts a := by
  refine Std.ExtTreeSet.ext_mem fun word => ?_
  rw [mem_conflicts, mem_conflicts, or_comm]

/-- Of two words of both sets with which the same tokens start, the shorter one is in
conflict. -/
theorem exists_mem_conflicts {left right : Word} (hl : left ∈ a.words) (hr : right ∈ b.words)
    (hlu : left <+: upcoming) (hru : right <+: upcoming) :
    ∃ word ∈ a.conflicts b, word <+: upcoming := by
  rcases List.prefix_or_prefix_of_prefix hlu hru with h | h
  · exact ⟨left, mem_conflicts.mpr (.inl ⟨hl, right, hr, h⟩), hlu⟩
  · exact ⟨right, mem_conflicts.mpr (.inr ⟨hr, left, hl, h⟩), hru⟩

/-- Sets are in conflict when a word of one is a prefix of a word of the other. -/
theorem overlaps_iff : a.overlaps b = true ↔
    ∃ left ∈ a.words, ∃ right ∈ b.words, left <+: right ∨ right <+: left := by
  have inhabited : a.overlaps b = true ↔ ∃ word, word ∈ a.conflicts b := by
    rw [overlaps, Bool.not_eq_true', Std.ExtTreeSet.isEmpty_eq_false_iff,
      Std.ExtTreeSet.eq_empty_iff_forall_not_mem, not_forall_not]
  rw [inhabited]
  constructor
  · rintro ⟨word, hm⟩
    rcases mem_conflicts.mp hm with ⟨hw, other, ho, hp⟩ | ⟨hw, other, ho, hp⟩
    · exact ⟨word, hw, other, ho, .inl hp⟩
    · exact ⟨other, ho, word, hw, .inr hp⟩
  · rintro ⟨left, hl, right, hr, hp | hp⟩
    · exact ⟨left, mem_conflicts.mpr (.inl ⟨hl, right, hr, hp⟩)⟩
    · exact ⟨right, mem_conflicts.mpr (.inr ⟨hr, left, hl, hp⟩)⟩

/-- Sets are in conflict when both accept some tokens. -/
theorem overlaps_iff_accepts : a.overlaps b = true ↔
    ∃ upcoming, a.accepts upcoming = true ∧ b.accepts upcoming = true := by
  simp only [overlaps_iff, accepts_iff]
  constructor
  · rintro ⟨left, hl, right, hr, hp | hp⟩
    · exact ⟨right, ⟨left, hl, hp⟩, right, hr, List.prefix_refl _⟩
    · exact ⟨left, ⟨left, hl, List.prefix_refl _⟩, right, hr, hp⟩
  · rintro ⟨upcoming, ⟨left, hl, hlu⟩, right, hr, hru⟩
    exact ⟨left, hl, right, hr, List.prefix_or_prefix_of_prefix hlu hru⟩

/-- The conflicts of two sets are the inputs that these do not tell apart. It does not
matter which set comes first. The sets overlap when both accept some tokens. A word is
reported when it is in one of the sets and a prefix of a word of the other. Whatever both
sets accept starts with a word that is reported. -/
theorem conflicts_exact (a b : FirstSet) :
    a.conflicts b = b.conflicts a ∧
    (a.overlaps b = true ↔ ∃ upcoming, a.accepts upcoming = true ∧ b.accepts upcoming = true) ∧
    (∀ word, word ∈ a.conflicts b ↔ (word ∈ a.words ∧ ∃ other ∈ b.words, word <+: other) ∨
      (word ∈ b.words ∧ ∃ other ∈ a.words, word <+: other)) ∧
    ∀ upcoming, a.accepts upcoming = true → b.accepts upcoming = true →
      ∃ word ∈ a.conflicts b, word <+: upcoming := by
  refine ⟨conflicts_comm a b, overlaps_iff_accepts, fun word => mem_conflicts, ?_⟩
  intro upcoming ha hb
  obtain ⟨left, hl, hlu⟩ := accepts_iff.mp ha
  obtain ⟨right, hr, hru⟩ := accepts_iff.mp hb
  exact exists_mem_conflicts hl hr hlu hru

/-- Two sets with a word each that starts a word of the other, and tokens that both
accept. -/
theorem conflicts_sharedStarts : ∃ a b : FirstSet,
    a = ofWords [["a"], ["b", "c"], ["d"]] false ∧ b = ofWords [["a", "x"], ["b"]] true ∧
    (a.conflicts b).toList = [["a"], ["b"]] ∧ a.conflicts b = b.conflicts a ∧
    a.overlaps b = true ∧ a.accepts ["b", "c", "d"] = true ∧ b.accepts ["b", "c", "d"] = true ∧
    ∃ word ∈ a.conflicts b, word <+: ["b", "c", "d"] := by
  have left : (ofWords [["a"], ["b", "c"], ["d"]] false).accepts ["b", "c", "d"] = true := by
    decide +kernel
  have right : (ofWords [["a", "x"], ["b"]] true).accepts ["b", "c", "d"] = true := by
    decide +kernel
  obtain ⟨comm, overlap, -, shared⟩ := conflicts_exact
    (ofWords [["a"], ["b", "c"], ["d"]] false) (ofWords [["a", "x"], ["b"]] true)
  exact ⟨_, _, rfl, rfl, by decide +kernel, comm, overlap.mpr ⟨_, left, right⟩, left, right,
    shared _ left right⟩

end FirstSet

end BoundedLookahead
