import BoundedLookahead.Proofs.EngineAnswers
import Mathlib.Data.List.Infix
import Mathlib.Tactic.IntervalCases

/-!
# First sets at two depths

Looking further never contradicts what a shorter look has found. The first set of
a node at a greater depth, cut at a smaller one, is part of the first set found
there, and both tell alike whether the node can match nothing. Where every node
derives something the two are the same set: what has begun can be completed, so a
word that fills the smaller depth goes on to one at the greater.
-/

namespace BoundedLookahead

/-- Cutting at a positive length leaves only the empty word empty. -/
theorem take_eq_nil_iff_of_pos {α : Type} {k : Nat} (hk : 1 ≤ k) {word : List α} :
    word.take k = [] ↔ word = [] := by
  have hk' : k ≠ 0 := Nat.one_le_iff_ne_zero.mp hk
  rw [List.take_eq_nil_iff, or_iff_right hk']

namespace FirstSet

variable {a b c d set : FirstSet} {word : Word} {j k : Nat}

/-- A truncated set has the marker of the set. -/
@[simp] theorem nullable_truncate : (set.truncate k).nullable = set.nullable := rfl

/-- The words of a truncated set have between 1 and `k` tokens. -/
theorem bounded_truncate : (set.truncate k).Bounded k := by
  intro word hm
  obtain ⟨hne, whole, _, rfl⟩ := mem_truncate_words.mp hm
  exact ⟨hne, List.length_take_le _ _⟩

/-- The members of a set that does not store the empty word, cut, are the members of the
truncated set. -/
theorem mem_truncate_iff (hk : 1 ≤ k) (h : [] ∉ set.words) :
    word ∈ set.truncate k ↔ ∃ whole ∈ set, whole.take k = word := by
  constructor
  · intro hm
    by_cases hne : word = []
    · subst hne
      exact ⟨[], nil_mem.mpr (nil_mem.mp hm), List.take_nil⟩
    · obtain ⟨_, whole, hw, hc⟩ := mem_truncate_words.mp (mem_words hm hne)
      exact ⟨whole, mem_of_mem_words h hw, hc⟩
  · rintro ⟨whole, hm, rfl⟩
    by_cases hne : whole = []
    · subst hne
      rw [List.take_nil, nil_mem, nullable_truncate]
      exact nil_mem.mp hm
    · have hcut : whole.take k ≠ [] := mt (take_eq_nil_iff_of_pos hk).mp hne
      exact bounded_truncate.mem (mem_truncate_words.mpr ⟨hcut, whole, mem_words hm hne, rfl⟩)

/-- So are those of a bounded set. -/
theorem mem_truncate (hk : 1 ≤ k) {bound : Nat} (h : set.Bounded bound) :
    word ∈ set.truncate k ↔ ∃ whole ∈ set, whole.take k = word :=
  mem_truncate_iff hk h.nil_not_mem

/-- Bounded sets with the same members are equal. -/
theorem Bounded.ext (ha : a.Bounded j) (hb : b.Bounded k) (h : ∀ word, word ∈ a ↔ word ∈ b) :
    a = b :=
  le_antisymm (le_of_mem ha.nil_not_mem fun word => (h word).mp)
    (le_of_mem hb.nil_not_mem fun word => (h word).mpr)

/-- Cutting at its bound does not change a bounded set. -/
theorem Bounded.truncate_eq (hk : 1 ≤ k) (h : set.Bounded k) : set.truncate k = set := by
  refine bounded_truncate.ext h fun word => ?_
  rw [mem_truncate hk h]
  constructor
  · rintro ⟨whole, hm, rfl⟩
    rwa [List.take_of_length_le (h.length_le hm)]
  · exact fun hm => ⟨word, hm, List.take_of_length_le (h.length_le hm)⟩

/-- Every member of the set, cut at length `k`, is a member of the other set. -/
def TrimsTo (set : FirstSet) (k : Nat) (other : FirstSet) : Prop :=
  ∀ word ∈ set, word.take k ∈ other

/-- ε is not changed by cutting. -/
theorem trimsTo_epsilon : epsilon.TrimsTo k epsilon := by
  intro word hm
  rw [mem_epsilon.mp hm, List.take_nil]
  exact mem_epsilon.mpr rfl

/-- A union is cut part by part. -/
theorem TrimsTo.union (hac : a.TrimsTo k c) (hbd : b.TrimsTo k d) :
    (a.union b).TrimsTo k (c.union d) := fun word hm =>
  mem_union.mpr ((mem_union.mp hm).imp (hac word) (hbd word))

/-- A concatenation is cut part by part. A word that reaches the greater bound in its
first part is complete at the smaller one, whatever comes behind. -/
theorem TrimsTo.concat (hj : 1 ≤ j) (hjk : j ≤ k) (ha : [] ∉ a.words) (hb : [] ∉ b.words)
    (hc : [] ∉ c.words) (hd : [] ∉ d.words) (hac : a.TrimsTo j c) (hbd : b.TrimsTo j d) :
    (a.concat b k).TrimsTo j (c.concat d j) := by
  intro word hm
  rcases (mem_concat_iff (Nat.le_trans hj hjk) ha hb).mp hm with ⟨head, hh, hl, rfl⟩ |
    ⟨head, hh, -, tail, ht, rfl⟩
  · rw [List.take_take, Nat.min_eq_left hjk]
    have hcut : (head.take j).length = j := by
      rw [List.length_take, Nat.min_eq_left (Nat.le_trans hjk hl)]
    exact (mem_concat_iff hj hc hd).mpr
      (.inl ⟨_, hac head hh, Nat.le_of_eq hcut.symm, by rw [List.take_take, Nat.min_self]⟩)
  · rw [List.take_take, Nat.min_eq_left hjk]
    refine (mem_concat_of_inhabited hj hc hd ⟨_, hbd tail ht⟩).mpr
      ⟨_, hac head hh, _, hbd tail ht, ?_⟩
    rw [take_append_take, take_take_append]

/-- Sets that are in conflict are still so after a cut. -/
theorem TrimsTo.overlaps (hj : 1 ≤ j) (ha : a.Bounded k) (hb : b.Bounded k) (hac : a.TrimsTo j c)
    (hbd : b.TrimsTo j d) (h : a.overlaps b = true) : c.overlaps d = true := by
  have kept {set other : FirstSet} (hs : set.Bounded k) (trims : set.TrimsTo j other) {word : Word}
      (hw : word ∈ set.words) : word.take j ∈ other.words := by
    have hne : word.take j ≠ [] := mt (take_eq_nil_iff_of_pos hj).mp (hs word hw).1
    exact mem_words (trims word (hs.mem hw)) hne
  obtain ⟨left, hl, right, hr, hp⟩ := overlaps_iff.mp h
  refine overlaps_iff.mpr ⟨_, kept ha hac hl, _, kept hb hbd hr, ?_⟩
  exact hp.imp (·.take j) (·.take j)

/-- Where a set is cut to a smaller depth, the set cut at greater lengths is too. -/
theorem TrimsTo.truncate {m n : Nat} (hm : 1 ≤ m) (hmj : m ≤ j) (hmn : m ≤ n) (ha : a.Bounded k)
    (hc : c.Bounded j) (hac : a.TrimsTo j c) : (a.truncate n).TrimsTo m (c.truncate m) := by
  intro word hw
  obtain ⟨whole, hin, rfl⟩ := (mem_truncate (Nat.le_trans hm hmn) ha).mp hw
  refine (mem_truncate hm hc).mpr ⟨whole.take j, hac whole hin, ?_⟩
  rw [List.take_take, List.take_take, Nat.min_eq_left hmj, Nat.min_eq_left hmn]

end FirstSet

namespace Registry

variable {registry : Registry} {id : NodeId} {limit j k : Nat} {small large : FirstSet}

/-- The first set of a node at a greater depth, cut, is part of that at a smaller one. -/
theorem Grounded.trimsTo_firstOf
    (grounded : ∀ production ∈ registry.productions, registry.Grounded production.root)
    (h : registry.Grounded id) (hj : 1 ≤ j) (hjk : j ≤ k)
    (hs : registry.firstOf limit id j = .ok small) (hl : registry.firstOf limit id k = .ok large) :
    large.TrimsTo j small := by
  intro word hm
  have begins := ((h.mem_firstOf (Nat.le_trans hj hjk) grounded hl).2 word).mp hm
  exact ((h.mem_firstOf hj grounded hs).2 _).mpr (begins.take hj hjk)

/-- At every depth the first set of a node has the empty word when the node derives
it. -/
theorem InProduction.nullable_firstOf
    (grounded : ∀ production ∈ registry.productions, registry.Grounded production.root)
    (inside : registry.InProduction id) (hk : 1 ≤ k) (hl : registry.firstOf limit id k = .ok large) :
    large.nullable = true ↔ registry.Derives .once id [] := by
  have h := inside.grounded_of grounded
  rw [← FirstSet.nil_mem, (h.mem_firstOf hk grounded hl).2]
  constructor
  · intro begins
    obtain ⟨whole, derived, hw⟩ := begins.exists_derives hk inside (.inl hk)
    rwa [(take_eq_nil_iff_of_pos hk).mp hw] at derived
  · intro derived
    have := derived.begins hk
    rwa [List.take_nil] at this

/-- Where every node derives something, the first set of a node at depth `k` has the
words that the node derives, cut at length `k`. -/
theorem InProduction.mem_firstOf_of_productive
    (grounded : ∀ production ∈ registry.productions, registry.Grounded production.root)
    (inside : registry.InProduction id) (productive : registry.Productive) (hk : 1 ≤ k)
    (hl : registry.firstOf limit id k = .ok large) {word : Word} :
    word ∈ large ↔ ∃ whole, registry.Derives .once id whole ∧ whole.take k = word := by
  have h := inside.grounded_of grounded
  rw [(h.mem_firstOf hk grounded hl).2]
  constructor
  · exact fun begins => begins.exists_derives hk inside (.inr productive)
  · rintro ⟨whole, derived, rfl⟩
    exact derived.begins hk

/-- Nodes of productions stay among nodes that hold the roots and are closed under
children. -/
theorem InProduction.mem_of_closed {ids : List NodeId}
    (roots : ∀ production ∈ registry.productions, production.root ∈ ids)
    (closed : ∀ id ∈ ids, ∀ child ∈ registry.childIds id, child ∈ ids)
    (inside : registry.InProduction id) : id ∈ ids := by
  obtain ⟨production, hp, reached⟩ := inside
  induction reached with
  | refl => exact roots production hp
  | tail _ step ih => exact closed _ ih _ step

end Registry

namespace Engine

/-- First sets are consistent between depths. On a grammar that an engine accepts,
whatever was asked before either question, the first sets of a node at depths `j` and
`k` have the same marker, and the larger one cut at `j` has words of the smaller one
only. Where every node derives something, cutting gives exactly the smaller one. -/
theorem truncate_first {registry : Registry} {report : Report} {options : Options} {engine : Engine}
    (accepted : start registry report options = .ok engine) (earlier later : List Query)
    {id : NodeId} (inside : registry.InProduction id) {j k : Nat} (hj : 1 ≤ j) (hjk : j ≤ k)
    {small large : FirstSet}
    (answered : (first id j (answers earlier engine).state).result = .ok small)
    (answered' : (first id k (answers later engine).state).result = .ok large) :
    small.nullable = large.nullable ∧
    (∀ word ∈ (large.truncate j).words, word ∈ small.words) ∧
    (registry.Productive → large.truncate j = small) := by
  obtain ⟨_, _, ⟨final, ho⟩, rfl⟩ := start_eq_ok.mp accepted
  have found {history : List Query} {depth : Nat} {set : FirstSet}
      (h : (first id depth (answers history
        { registry, nullable := report.nullable, limit := options.expansionLimit }).state).result =
          .ok set) : registry.firstOf options.expansionLimit id depth = .ok set := by
    obtain ⟨_, served⟩ := answers_eq history _ ⟨rfl, rfl, rfl⟩
    rw [← h, (serving_first id depth _ served).1]
  have hs := found answered
  have hl := found answered'
  have hk : 1 ≤ k := Nat.le_trans hj hjk
  have grounded := Registry.grounded_production ho
  have trims := (inside.grounded ho).trimsTo_firstOf grounded hj hjk hs hl
  have smallBounded := ((inside.grounded ho).mem_firstOf hj grounded hs).1
  have largeBounded := ((inside.grounded ho).mem_firstOf hk grounded hl).1
  refine ⟨?_, fun word hm => ?_, fun productive => ?_⟩
  · rw [Bool.eq_iff_iff, inside.nullable_firstOf grounded hj hs, inside.nullable_firstOf grounded hk hl]
  · obtain ⟨hne, whole, hw, rfl⟩ := FirstSet.mem_truncate_words.mp hm
    exact FirstSet.mem_words (trims whole (largeBounded.mem hw)) hne
  · refine FirstSet.bounded_truncate.ext smallBounded fun word => ?_
    rw [FirstSet.mem_truncate hj largeBounded,
      inside.mem_firstOf_of_productive grounded productive hj hs]
    constructor
    · rintro ⟨longer, hm, rfl⟩
      obtain ⟨whole, derived, rfl⟩ :=
        (inside.mem_firstOf_of_productive grounded productive hk hl).mp hm
      exact ⟨whole, derived, by rw [List.take_take, Nat.min_eq_left hjk]⟩
    · rintro ⟨whole, derived, rfl⟩
      refine ⟨whole.take k, (inside.mem_firstOf_of_productive grounded productive hk hl).mpr
        ⟨whole, derived, rfl⟩, ?_⟩
      rw [List.take_take, Nat.min_eq_left hjk]

/-- Every node of the right-recursive grammar derives something. -/
theorem rightRecursion_productive : rightRecursion.Productive := by
  have token : rightRecursion.Derives .once 0 ["a"] := .terminal rfl
  have other : rightRecursion.Derives .once 3 ["b"] := .terminal rfl
  have both : rightRecursion.expansion? 4 = some (.choice [2, 3]) := rfl
  have root : rightRecursion.Derives .once 4 ["b"] := .choice both (by simp) other
  have call : rightRecursion.Derives .once 1 ["b"] := .nonTerminal rfl rfl root
  have row : rightRecursion.Derives .once 2 ["a", "b"] :=
    .sequence [(0, ["a"]), (1, ["b"])] rfl (by simp [token, call])
  intro id inside
  have known : id ∈ List.range 5 :=
    inside.mem_of_closed (by decide) (by decide)
  have bound : id < 5 := List.mem_range.mp known
  interval_cases id
  · exact ⟨_, token⟩
  · exact ⟨_, call⟩
  · exact ⟨_, row⟩
  · exact ⟨_, other⟩
  · exact ⟨_, root⟩

/-- The first set of the right-recursive grammar at depth 2 comes down to that at
depth 1, which was found before it. -/
theorem truncate_rightRecursion : ∃ engine small large,
    start rightRecursion ⟨⟨[]⟩, [], [], []⟩ {} = .ok engine ∧
      (first 4 1 (answers [] engine).state).result = .ok small ∧
      (first 4 2 (answers [.first 4 1] engine).state).result = .ok large ∧
      large.words.toList = [["a", "a"], ["a", "b"], ["b"]] ∧ large.truncate 1 = small := by
  have owned : rightRecursion.owners.toOption.isSome = true := by decide +kernel
  have accepted : start rightRecursion ⟨⟨[]⟩, [], [], []⟩ {} =
      .ok { registry := rightRecursion, nullable := [], limit := 10000 } :=
    start_eq_ok.mpr ⟨rfl, rfl, exists_eq_ok_of_isSome owned, rfl⟩
  have atOne : ((first 4 1 (answers []
      { registry := rightRecursion, nullable := [], limit := 10000 }).state).result.toOption.map
        fun set => set.words.toList) = some [["a"], ["b"]] := by
    decide +kernel
  have atTwo : ((first 4 2 (answers [.first 4 1]
      { registry := rightRecursion, nullable := [], limit := 10000 }).state).result.toOption.map
        fun set => set.words.toList) = some [["a", "a"], ["a", "b"], ["b"]] := by
    decide +kernel
  obtain ⟨small, hs, _⟩ := Option.map_eq_some_iff.mp atOne
  obtain ⟨large, hl, words⟩ := Option.map_eq_some_iff.mp atTwo
  have answered := toOption_eq_some.mp hs
  have answered' := toOption_eq_some.mp hl
  have inside : rightRecursion.InProduction 4 := ⟨_, List.mem_cons_self, .refl⟩
  have consistent := truncate_first accepted [] [.first 4 1] inside (by decide) (by decide)
    answered answered'
  exact ⟨_, small, large, accepted, answered, answered', words,
    consistent.2.2 rightRecursion_productive⟩

end Engine

end BoundedLookahead
