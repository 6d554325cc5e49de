import BoundedLookahead.Proofs.Continuations
import BoundedLookahead.Proofs.Rows

/-!
# Laws of bounded concatenation

Where the second set has a member, the members of a concatenation are the joined words of
both sets, cut. So the laws of joining words hold for sets that do not store the empty word:
ε is neutral up to a cut, the order in which three sets are joined does not matter, and a
longer concatenation comes down to a shorter one. Before an empty set only the words that
fill the length remain. A word that two sets fill together is then kept when these are
joined first, and lost when the empty set is joined first.

The first set of a sequence is joined from the left, what follows its units from the right.
By these laws both agree where every node derives something.
-/

namespace BoundedLookahead

namespace FirstSet

variable {a b c set other : FirstSet} {word : Word} {j k : Nat}

theorem eq_of_words (words : ∀ word, word ∈ a.words ↔ word ∈ b.words)
    (nullable : a.nullable = b.nullable) : a = b :=
  le_antisymm ⟨fun word => (words word).mp, fun h => nullable ▸ h⟩
    ⟨fun word => (words word).mpr, fun h => nullable ▸ h⟩

/-- A set that does not store the empty word has a member, or it is empty. -/
theorem eq_empty_or_exists_mem (h : [] ∉ set.words) : set = empty ∨ ∃ word, word ∈ set := by
  by_cases members : ∃ word, word ∈ set
  · exact .inr members
  · exact .inl (le_antisymm (le_of_mem h fun word hm => absurd ⟨word, hm⟩ members) (empty_le set))

theorem exists_mem_of_isEmpty (h : [] ∉ set.words) (inhabited : set.isEmpty = false) :
    ∃ word, word ∈ set := by
  refine (eq_empty_or_exists_mem h).resolve_left ?_
  rintro rfl
  exact absurd inhabited (by decide)

/-- A union in front is continued part by part, whatever the sets store. -/
theorem union_concat : (a.union b).concat c k = (a.concat c k).union (b.concat c k) := by
  refine eq_of_words (fun word => iff_of_eq ?_) (Bool.and_or_distrib_right ..)
  simp only [mem_concat_words, union, Std.ExtTreeSet.mem_union_iff, Bool.or_eq_true, or_and_right,
    exists_or]
  ac_rfl

/-- So is a set before a union. -/
theorem concat_union : a.concat (b.union c) k = (a.concat b k).union (a.concat c k) := by
  refine eq_of_words (fun word => iff_of_eq ?_) (Bool.and_or_distrib_left ..)
  simp only [mem_concat_words, union, Std.ExtTreeSet.mem_union_iff, Bool.or_eq_true, or_and_right,
    and_or_left, exists_or]
  ac_rfl

/-- Before ε a set is cut, and so it is behind ε. -/
theorem concat_epsilon (hk : 1 ≤ k) (ha : [] ∉ a.words) : a.concat epsilon k = a.truncate k := by
  have he : [] ∉ epsilon.words := Std.ExtTreeSet.not_mem_empty
  refine (bounded_concat hk ha he).ext bounded_truncate fun word => ?_
  rw [mem_concat_of_inhabited hk ha he ⟨[], mem_epsilon.mpr rfl⟩, mem_truncate_iff hk ha]
  simp only [mem_epsilon, exists_eq_left, List.append_nil]

theorem epsilon_concat (hk : 1 ≤ k) (ha : [] ∉ a.words) : epsilon.concat a k = a.truncate k := by
  have he : [] ∉ epsilon.words := Std.ExtTreeSet.not_mem_empty
  refine (bounded_concat hk he ha).ext bounded_truncate fun word => ?_
  have short : ¬ k ≤ ([] : Word).length := Nat.not_le.mpr hk
  rw [mem_concat_iff hk he ha, mem_truncate_iff hk ha]
  simp only [mem_epsilon, exists_eq_left, short, false_and, false_or, Nat.not_le.mp short, true_and,
    List.nil_append]

theorem empty_concat : empty.concat b k = empty := by
  refine eq_of_words (fun word => ?_) rfl
  simp [mem_concat_words, empty]

/-- Before the empty set only words that have reached the length remain. -/
theorem saturated_concat_empty (hk : 1 ≤ k) (ha : [] ∉ a.words) :
    (a.concat empty k).saturated k = true := by
  have he : [] ∉ empty.words := Std.ExtTreeSet.not_mem_empty
  refine (saturated_iff hk (bounded_concat hk ha he)).mpr fun word hm => ?_
  rcases (mem_concat_iff hk ha he).mp hm with ⟨head, _, hl, rfl⟩ | ⟨_, _, _, tail, ht, _⟩
  · rw [List.length_take, Nat.min_eq_left hl]
  · exact absurd ht not_mem_empty

/-- Where both sets have a member, the concatenation has one. -/
theorem exists_mem_concat (hk : 1 ≤ k) (ha : [] ∉ a.words) (hb : [] ∉ b.words)
    (front : ∃ word, word ∈ a) (behind : ∃ word, word ∈ b) : ∃ word, word ∈ a.concat b k := by
  obtain ⟨head, hm⟩ := front
  obtain ⟨tail, ht⟩ := behind
  exact ⟨_, (mem_concat_of_inhabited hk ha hb ⟨tail, ht⟩).mpr ⟨head, hm, tail, ht, rfl⟩⟩

/-- It does not matter which two of three sets are joined first when the last one has a
member. -/
theorem concat_assoc (hk : 1 ≤ k) (ha : [] ∉ a.words) (hb : [] ∉ b.words) (hc : [] ∉ c.words)
    (inhabited : ∃ word, word ∈ c) : (a.concat b k).concat c k = a.concat (b.concat c k) k := by
  rcases eq_empty_or_exists_mem hb with rfl | middle
  · rw [empty_concat]
    exact concat_of_saturated (saturated_concat_empty hk ha) fun word hm =>
      length_le_of_mem_concat_words hm
  have hab := (bounded_concat hk ha hb).nil_not_mem
  have hbc := (bounded_concat hk hb hc).nil_not_mem
  have later := exists_mem_concat hk hb hc middle inhabited
  refine (bounded_concat hk hab hc).ext (bounded_concat hk ha hbc) fun word => ?_
  rw [mem_concat_of_inhabited hk hab hc inhabited, mem_concat_of_inhabited hk ha hbc later]
  simp only [mem_concat_of_inhabited hk ha hb middle, mem_concat_of_inhabited hk hb hc inhabited]
  constructor
  · rintro ⟨_, ⟨x, hx, y, hy, rfl⟩, z, hz, rfl⟩
    refine ⟨x, hx, _, ⟨y, hy, z, hz, rfl⟩, ?_⟩
    rw [take_append_take, take_take_append, List.append_assoc]
  · rintro ⟨x, hx, _, ⟨y, hy, z, hz, rfl⟩, rfl⟩
    refine ⟨_, ⟨x, hx, y, hy, rfl⟩, z, hz, ?_⟩
    rw [take_append_take, take_take_append, List.append_assoc]

/-- Nothing follows `empty`, but `[a b]` is complete before it. -/
example : ((token "a").concat (token "b") 2).concat empty 2 ≠
    (token "a").concat ((token "b").concat empty 2) 2 := by
  decide +kernel

theorem trimsTo_truncate (hj : 1 ≤ j) (h : [] ∉ set.words) : set.TrimsTo j (set.truncate j) :=
  fun word hm => (mem_truncate_iff hj h).mpr ⟨word, hm, rfl⟩

/-- The truncated set is part of every set that the set is cut to. -/
theorem TrimsTo.truncate_le (hj : 1 ≤ j) (h : [] ∉ set.words) (trims : set.TrimsTo j other) :
    set.truncate j ≤ other := by
  refine le_of_mem bounded_truncate.nil_not_mem fun word hm => ?_
  obtain ⟨whole, hw, rfl⟩ := (mem_truncate_iff hj h).mp hm
  exact trims whole hw

/-- A concatenation, cut, is part of the concatenation of the cut sets. -/
theorem truncate_concat_le (hj : 1 ≤ j) (hjk : j ≤ k) (ha : [] ∉ a.words) (hb : [] ∉ b.words) :
    (a.concat b k).truncate j ≤ (a.truncate j).concat (b.truncate j) j := by
  have hab := (bounded_concat (Nat.le_trans hj hjk) ha hb).nil_not_mem
  exact TrimsTo.truncate_le hj hab (TrimsTo.concat hj hjk ha hb bounded_truncate.nil_not_mem
    bounded_truncate.nil_not_mem (trimsTo_truncate hj ha) (trimsTo_truncate hj hb))

/-- It is the whole of it when the second set has a member. -/
theorem truncate_concat (hj : 1 ≤ j) (hjk : j ≤ k) (ha : [] ∉ a.words) (hb : [] ∉ b.words)
    (inhabited : ∃ word, word ∈ b) :
    (a.concat b k).truncate j = (a.truncate j).concat (b.truncate j) j := by
  have hk : 1 ≤ k := Nat.le_trans hj hjk
  have hab := (bounded_concat hk ha hb).nil_not_mem
  have ha' : [] ∉ (a.truncate j).words := bounded_truncate.nil_not_mem
  have hb' : [] ∉ (b.truncate j).words := bounded_truncate.nil_not_mem
  have cut : ∃ word, word ∈ b.truncate j := by
    obtain ⟨tail, ht⟩ := inhabited
    exact ⟨_, trimsTo_truncate hj hb tail ht⟩
  refine le_antisymm (truncate_concat_le hj hjk ha hb)
    (le_of_mem (bounded_concat hj ha' hb').nil_not_mem fun word hm => ?_)
  obtain ⟨_, front, _, behind, rfl⟩ := (mem_concat_of_inhabited hj ha' hb' cut).mp hm
  obtain ⟨x, hx, rfl⟩ := (mem_truncate_iff hj ha).mp front
  obtain ⟨y, hy, rfl⟩ := (mem_truncate_iff hj hb).mp behind
  refine (mem_truncate_iff hj hab).mpr
    ⟨_, (mem_concat_of_inhabited hk ha hb inhabited).mpr ⟨x, hx, y, hy, rfl⟩, ?_⟩
  rw [List.take_take, Nat.min_eq_left hjk, take_append_take, take_take_append]

/-- The algebra of bounded concatenation, for sets that do not store the empty word and a
positive length. A union is joined part by part on either side. ε only cuts. Three sets can
be joined in either order when the last one is not empty. A concatenation cut at a smaller
positive length is part of the concatenation of the cut sets, and all of it when the second
set is not empty. -/
theorem concat_algebra (hk : 1 ≤ k) (ha : [] ∉ a.words) (hb : [] ∉ b.words) (hc : [] ∉ c.words) :
    (a.union b).concat c k = (a.concat c k).union (b.concat c k) ∧
    a.concat (b.union c) k = (a.concat b k).union (a.concat c k) ∧
    a.concat epsilon k = a.truncate k ∧
    epsilon.concat a k = a.truncate k ∧
    (c.isEmpty = false → (a.concat b k).concat c k = a.concat (b.concat c k) k) ∧
    ∀ j, 1 ≤ j → j ≤ k →
      (a.concat b k).truncate j ≤ (a.truncate j).concat (b.truncate j) j ∧
      (b.isEmpty = false → (a.concat b k).truncate j = (a.truncate j).concat (b.truncate j) j) := by
  refine ⟨union_concat, concat_union, concat_epsilon hk ha, epsilon_concat hk ha, fun inhabited => ?_,
    fun j hj hjk => ⟨truncate_concat_le hj hjk ha hb, fun inhabited => ?_⟩⟩
  · exact concat_assoc hk ha hb hc (exists_mem_of_isEmpty hc inhabited)
  · exact truncate_concat hj hjk ha hb (exists_mem_of_isEmpty hb inhabited)

/-- Two optional units, the first with a long word, and a token, joined at length 2. -/
theorem concat_optionalUnits : ∃ a b c : FirstSet,
    a = ofWords [["a"], ["x", "y", "z"]] true ∧ b = ofWords [["b"]] true ∧ c = token "c" ∧
    [] ∉ a.words ∧ [] ∉ b.words ∧ [] ∉ c.words ∧ b.isEmpty = false ∧ c.isEmpty = false ∧
    ((a.concat b 2).concat c 2).words.toList =
      [["a", "b"], ["a", "c"], ["b", "c"], ["c"], ["x", "y"]] ∧
    (a.union b).concat c 2 = (a.concat c 2).union (b.concat c 2) ∧
    a.concat (b.union c) 2 = (a.concat b 2).union (a.concat c 2) ∧
    a.concat epsilon 2 = a.truncate 2 ∧ epsilon.concat a 2 = a.truncate 2 ∧
    (a.concat b 2).concat c 2 = a.concat (b.concat c 2) 2 ∧
    (a.concat b 2).truncate 1 = (a.truncate 1).concat (b.truncate 1) 1 := by
  have ha : [] ∉ (ofWords [["a"], ["x", "y", "z"]] true).words := by decide +kernel
  have hb : [] ∉ (ofWords [["b"]] true).words := by decide +kernel
  have hc : [] ∉ (token "c").words := by decide +kernel
  have later : (ofWords [["b"]] true).isEmpty = false := by decide +kernel
  have last : (token "c").isEmpty = false := by decide +kernel
  obtain ⟨front, behind, right, left, assoc, cut⟩ := concat_algebra (k := 2) (by decide) ha hb hc
  exact ⟨_, _, _, rfl, rfl, rfl, ha, hb, hc, later, last, by decide +kernel, front, behind, right,
    left, assoc last, (cut 1 (by decide) (by decide)).2 later⟩

end FirstSet

namespace Registry

variable {registry : Registry} {limit k : Nat} {units : List NodeId} {row : NodeId}
  {before follow after set : FirstSet}

section

variable (hk : 1 ≤ k)
  (each : ∀ unit ∈ units, ∀ set, registry.firstOf limit unit k = .ok set →
    set.Bounded k ∧ ∃ word, word ∈ set)
  (hf : follow.Bounded k) (inhabited : ∃ word, word ∈ follow)
  (h : registry.behind limit k follow units = .ok after)

include hk each hf inhabited h

/-- What units begin with is bounded and has a member when every unit has one and what
follows has one. -/
theorem behind_inhabited : after.Bounded k ∧ ∃ word, word ∈ after := by
  induction units generalizing after with
  | nil =>
    cases h
    exact ⟨hf, inhabited⟩
  | cons unit units ih =>
    rw [List.forall_mem_cons] at each
    obtain ⟨rest, hr, h⟩ := bind_eq_ok.mp h
    obtain ⟨found, hs, h⟩ := bind_eq_ok.mp h
    cases h
    obtain ⟨bounded, first⟩ := each.1 found hs
    obtain ⟨bounded', later⟩ := ih each.2 hr
    exact ⟨bounded.concat hk bounded',
      FirstSet.exists_mem_concat hk bounded.nil_not_mem bounded'.nil_not_mem first later⟩

/-- Units that are joined from the left and then with what follows give the same as units
that are joined from the right. -/
theorem concat_behind (hb : before.Bounded k)
    (hs : firstOfSequence (fun unit => registry.firstOf limit unit k) k before units = .ok set) :
    set.concat follow k = before.concat after k := by
  induction units generalizing before after with
  | nil =>
    cases hs
    cases h
    rfl
  | cons unit units ih =>
    rw [List.forall_mem_cons] at each
    obtain ⟨rest, hr, h⟩ := bind_eq_ok.mp h
    obtain ⟨found, hfound, h⟩ := bind_eq_ok.mp h
    cases h
    simp only [firstOfSequence] at hs
    split at hs
    · next saturated =>
      cases hs
      rw [FirstSet.concat_of_saturated saturated fun word hm => (hb word hm).2,
        FirstSet.concat_of_saturated saturated fun word hm => (hb word hm).2]
    · obtain ⟨found', hfound', hs⟩ := bind_eq_ok.mp hs
      obtain rfl : found = found' := Except.ok.inj (hfound.symm.trans hfound')
      have bounded := (each.1 found hfound).1
      obtain ⟨bounded', later⟩ := behind_inhabited hk each.2 hf inhabited hr
      rw [ih each.2 hr (hb.concat hk bounded) hs, FirstSet.concat_assoc hk hb.nil_not_mem
        bounded.nil_not_mem bounded'.nil_not_mem later]

end

/-- Where every node derives something, a walk that joins the units of a sequence from the
right finds the first set of the sequence, joined from the left, before what follows it. -/
theorem behind_eq_concat
    (grounded : ∀ production ∈ registry.productions, registry.Grounded production.root)
    (productive : registry.Productive) (hk : 1 ≤ k) (inside : registry.InProduction row)
    (he : registry.expansion? row = some (.sequence units)) (hf : follow.Bounded k)
    (inhabited : ∃ word, word ∈ follow) (hs : registry.firstOf limit row k = .ok set)
    (h : registry.behind limit k follow units = .ok after) : after = set.concat follow k := by
  have each : ∀ unit ∈ units, ∀ set, registry.firstOf limit unit k = .ok set →
      set.Bounded k ∧ ∃ word, word ∈ set := by
    intro unit hu set hset
    have below : registry.InProduction unit := inside.of_child he hu
    have shown := below.shows_firstOf grounded productive hk hset
    obtain ⟨word, derived⟩ := productive unit below
    exact ⟨shown.bounded, _, (shown.shown _).mpr ⟨word, derived, rfl⟩⟩
  have joined := (inside.grounded_of grounded).firstOfRow_of_firstOf he hs
  have bounded := (behind_inhabited hk each hf inhabited h).1
  rw [concat_behind hk each hf inhabited h FirstSet.bounded_epsilon joined,
    FirstSet.epsilon_concat hk bounded.nil_not_mem, bounded.truncate_eq hk]

end Registry

end BoundedLookahead
