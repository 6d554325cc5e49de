import BoundedLookahead.Proofs.Places
import BoundedLookahead.Proofs.Truncation

/-!
# Continuations

After a node come, inside its own production, the words of the units behind it, another
run of a body that may run again, and what comes after its parent. Nothing comes after
a root or a guard. Where every node derives something, a walk arrives at a node with
exactly these words, cut at the depth at which it keeps what follows: the sets are
joined from the right to the left, but no word is lost or made up on the way.
-/

namespace BoundedLookahead

namespace FirstSet

/-- The set has the words of a language, cut at length `k`, and no others. -/
structure Shows (set : FirstSet) (k : Nat) (P : Word → Prop) : Prop where
  /-- Its words have between 1 and `k` tokens. -/
  bounded : set.Bounded k
  /-- Its members are the words of the language, cut. -/
  shown : ∀ word, word ∈ set ↔ ∃ whole, P whole ∧ whole.take k = word

variable {a b set : FirstSet} {j k : Nat} {P Q : Word → Prop}

/-- A language is shown by the same sets as another one with the same words. -/
theorem Shows.congr (h : set.Shows k P) (same : ∀ word, P word ↔ Q word) : set.Shows k Q := by
  refine ⟨h.bounded, fun word => ?_⟩
  simp only [h.shown, same]

/-- ε shows the language of the empty word. -/
theorem shows_epsilon : epsilon.Shows k fun word => word = [] := by
  refine ⟨bounded_epsilon, fun word => ?_⟩
  rw [mem_epsilon]
  constructor
  · rintro rfl
    exact ⟨[], rfl, List.take_nil⟩
  · rintro ⟨whole, rfl, rfl⟩
    exact List.take_nil

/-- A union shows both languages. -/
theorem Shows.union (ha : a.Shows k P) (hb : b.Shows k Q) :
    (a.union b).Shows k fun word => P word ∨ Q word := by
  refine ⟨ha.bounded.union hb.bounded, fun word => ?_⟩
  rw [mem_union, ha.shown, hb.shown, ← exists_or]
  simp only [or_and_right]

/-- A concatenation shows the concatenated languages when the second has a word: only
then does every word of the first go on. -/
theorem Shows.concat (hk : 1 ≤ k) (ha : a.Shows k P) (hb : b.Shows k Q) (tail : ∃ word, Q word) :
    (a.concat b k).Shows k fun word => ∃ front behind, P front ∧ Q behind ∧ word = front ++ behind := by
  refine ⟨ha.bounded.concat hk hb.bounded, fun word => ?_⟩
  have inhabited : ∃ word, word ∈ b := by
    obtain ⟨behind, hq⟩ := tail
    exact ⟨_, (hb.shown _).mpr ⟨behind, hq, rfl⟩⟩
  rw [mem_concat_of_inhabited hk ha.bounded.nil_not_mem hb.bounded.nil_not_mem inhabited]
  constructor
  · rintro ⟨head, hh, rest, hr, rfl⟩
    obtain ⟨front, hp, rfl⟩ := (ha.shown head).mp hh
    obtain ⟨behind, hq, rfl⟩ := (hb.shown rest).mp hr
    exact ⟨_, ⟨front, behind, hp, hq, rfl⟩, by rw [take_append_take, take_take_append]⟩
  · rintro ⟨whole, ⟨front, behind, hp, hq, rfl⟩, rfl⟩
    refine ⟨_, (ha.shown _).mpr ⟨front, hp, rfl⟩, _, (hb.shown _).mpr ⟨behind, hq, rfl⟩, ?_⟩
    rw [take_append_take, take_take_append]

/-- A truncated set shows the language at the smaller length. -/
theorem Shows.truncate (hj : 1 ≤ j) (hjk : j ≤ k) (h : set.Shows k P) :
    (set.truncate j).Shows j P := by
  refine ⟨bounded_truncate, fun word => ?_⟩
  rw [mem_truncate hj h.bounded]
  constructor
  · rintro ⟨longer, hm, rfl⟩
    obtain ⟨whole, hp, rfl⟩ := (h.shown longer).mp hm
    exact ⟨whole, hp, by rw [List.take_take, Nat.min_eq_left hjk]⟩
  · rintro ⟨whole, hp, rfl⟩
    refine ⟨whole.take k, (h.shown _).mpr ⟨whole, hp, rfl⟩, ?_⟩
    rw [List.take_take, Nat.min_eq_left hjk]

/-- A language is shown by one set at a depth. -/
theorem Shows.unique (ha : a.Shows k P) (hb : b.Shows k P) : a = b :=
  ha.bounded.ext hb.bounded fun word => by rw [ha.shown, hb.shown]

/-- The stored words of a set are the nonempty words of the language, cut. -/
theorem Shows.mem_words_iff (hk : 1 ≤ k) (h : set.Shows k P) {word : Word} :
    word ∈ set.words ↔ ∃ whole, P whole ∧ whole ≠ [] ∧ whole.take k = word := by
  constructor
  · intro hm
    obtain ⟨whole, hp, rfl⟩ := (h.shown word).mp (h.bounded.mem hm)
    have hne : whole.take k ≠ [] := (h.bounded _ hm).1
    exact ⟨whole, hp, mt (take_eq_nil_iff_of_pos hk).mpr hne, rfl⟩
  · rintro ⟨whole, hp, hne, rfl⟩
    exact mem_words ((h.shown _).mpr ⟨whole, hp, rfl⟩) (mt (take_eq_nil_iff_of_pos hk).mp hne)

/-- Sets that show languages are in conflict when nonempty words of both, cut, cannot be
told apart. -/
theorem Shows.overlaps_iff (hk : 1 ≤ k) (ha : a.Shows k P) (hb : b.Shows k Q) :
    a.overlaps b = true ↔ ∃ left right, P left ∧ left ≠ [] ∧ Q right ∧ right ≠ [] ∧
      (left.take k <+: right.take k ∨ right.take k <+: left.take k) := by
  rw [FirstSet.overlaps_iff]
  constructor
  · rintro ⟨word, hw, other, ho, hp⟩
    obtain ⟨left, hl, hne, rfl⟩ := (ha.mem_words_iff hk).mp hw
    obtain ⟨right, hr, hne', rfl⟩ := (hb.mem_words_iff hk).mp ho
    exact ⟨left, right, hl, hne, hr, hne', hp⟩
  · rintro ⟨left, right, hl, hne, hr, hne', hp⟩
    exact ⟨_, (ha.mem_words_iff hk).mpr ⟨left, hl, hne, rfl⟩, _,
      (hb.mem_words_iff hk).mpr ⟨right, hr, hne', rfl⟩, hp⟩

end FirstSet

namespace Registry

/-- The units derive the word in a row. -/
def DerivesRow (registry : Registry) (units : List NodeId) (word : Word) : Prop :=
  ∃ pieces : Pieces, pieces.nodes = units ∧ pieces.word = word ∧
    ∀ piece ∈ pieces, registry.Derives .once piece.1 piece.2

/-- The word can come after the node inside its own production. -/
inductive Follows (registry : Registry) : NodeId → Word → Prop
  /-- Nothing comes after the root of a production. -/
  | root {production : Production} (h : production ∈ registry.productions) :
    Follows registry production.root []
  /-- Nothing comes after a guard. -/
  | apart {parent child : NodeId} (inside : registry.InProduction parent)
    (stands : registry.Stands parent .apart child) : Follows registry child []
  /-- After a unit come the later units and what comes after the sequence; after a node
  with nothing behind it comes what comes after its parent. -/
  | before {parent child : NodeId} {units : List NodeId} {front outer : Word}
    (stands : registry.Stands parent (.before units) child) (row : registry.DerivesRow units front)
    (above : Follows registry parent outer) : Follows registry child (front ++ outer)
  /-- After a body that may run again comes another run, or none, and what comes after
  the repetition. -/
  | again {parent child : NodeId} {front outer : Word}
    (stands : registry.Stands parent .looped child)
    (round : front = [] ∨ registry.Derives .once child front)
    (above : Follows registry parent outer) : Follows registry child (front ++ outer)

variable {registry : Registry} {final : Owners} {parent child id : NodeId} {word : Word}
  {limit k : Nat}

/-- What has something to come after it stands in a production. -/
theorem Follows.inProduction (h : registry.Follows id word) : registry.InProduction id := by
  induction h with
  | root h => exact .root h
  | apart inside stands => exact inside.step stands.of_child
  | before stands _ _ ih => exact ih.step stands.of_child
  | again stands _ _ ih => exact ih.step stands.of_child

/-- What comes after a node in its place, given what comes after its parent. -/
def FollowsIn (registry : Registry) (parent child : NodeId) : Place → Word → Prop
  | .apart, word => word = []
  | .before units, word => ∃ front outer, registry.DerivesRow units front ∧
      registry.Follows parent outer ∧ word = front ++ outer
  | .looped, word => ∃ front outer, (registry.Derives .once child front ∨ front = []) ∧
      registry.Follows parent outer ∧ word = front ++ outer

section

variable (ho : registry.owners = .ok final)

include ho

/-- After the root of a production comes the empty word alone. -/
theorem follows_root {production : Production} (hp : production ∈ registry.productions) :
    registry.Follows production.root word ↔ word = [] := by
  constructor
  · intro h
    have orphan {parent child : NodeId} {place : Place} (inside : registry.InProduction parent)
        (stands : registry.Stands parent place child) : production.root ≠ child := fun he =>
      inside.not_child_root ho hp (he ▸ stands.of_child)
    generalize hr : production.root = node at h
    cases h with
    | root _ => rfl
    | apart _ _ => rfl
    | before stands _ above => exact absurd hr (orphan above.inProduction stands)
    | again stands _ above => exact absurd hr (orphan above.inProduction stands)
  · rintro rfl
    exact .root hp

/-- What comes after a node is found from its place and from what comes after its
parent. -/
theorem follows_iff (inside : registry.InProduction parent) {place : Place}
    (stands : registry.Stands parent place child) :
    registry.Follows child word ↔ registry.FollowsIn parent child place word := by
  constructor
  · intro h
    have only {other : NodeId} {place' : Place} (hi : registry.InProduction other)
        (hs : registry.Stands other place' child) : other = parent ∧ place' = place := by
      obtain rfl := hi.parent_eq ho inside hs.of_child stands.of_child
      exact ⟨rfl, hs.unique stands⟩
    cases h with
    | root hp => exact absurd stands.of_child (inside.not_child_root ho hp)
    | apart hi hs =>
      obtain ⟨rfl, rfl⟩ := only hi hs
      rfl
    | before hs row above =>
      obtain ⟨rfl, rfl⟩ := only above.inProduction hs
      exact ⟨_, _, row, above, rfl⟩
    | again hs round above =>
      obtain ⟨rfl, rfl⟩ := only above.inProduction hs
      exact ⟨_, _, round.symm, above, rfl⟩
  · intro h
    cases place with
    | before units =>
      obtain ⟨front, outer, row, above, rfl⟩ := h
      exact .before stands row above
    | looped =>
      obtain ⟨front, outer, round, above, rfl⟩ := h
      exact .again stands round.symm above
    | apart =>
      cases h
      exact .apart inside stands

end

/-- Where every node derives something, rows of nodes do. -/
theorem exists_derivesRow (productive : registry.Productive) {units : List NodeId}
    (inside : ∀ unit ∈ units, registry.InProduction unit) : ∃ word, registry.DerivesRow units word := by
  obtain ⟨pieces, hn, hd⟩ := Pieces.exists_of_nodes fun unit hu => productive unit (inside unit hu)
  exact ⟨_, pieces, hn, rfl, hd⟩

/-- The units behind a node of a production stand in the production. -/
theorem Stands.inProduction_units {units : List NodeId}
    (stands : registry.Stands parent (.before units) child) (inside : registry.InProduction parent) :
    ∀ unit ∈ units, registry.InProduction unit :=
  fun unit hu => inside.step (stands.child_of_mem unit hu)

/-- Where every node derives something, something comes after every node of a
production. -/
theorem exists_follows (grounded : ∀ production ∈ registry.productions, registry.Grounded production.root)
    (productive : registry.Productive) (inside : registry.InProduction id) :
    ∃ word, registry.Follows id word := by
  obtain ⟨production, hp, reached⟩ := inside
  induction reached with
  | refl => exact ⟨[], .root hp⟩
  | @tail parent child above step ih =>
    obtain ⟨outer, hf⟩ := ih
    have hi : registry.InProduction parent := ⟨production, hp, above⟩
    obtain ⟨place, stands⟩ := exists_stands (hi.grounded_of grounded) step
    cases place with
    | before units =>
      obtain ⟨front, row⟩ := exists_derivesRow productive (stands.inProduction_units hi)
      exact ⟨_, .before stands row hf⟩
    | looped => exact ⟨_, .again stands (.inl rfl) hf⟩
    | apart => exact ⟨[], .apart hi stands⟩

section

variable (grounded : ∀ production ∈ registry.productions, registry.Grounded production.root)
  (productive : registry.Productive) (hk : 1 ≤ k)

include grounded productive hk

/-- Where every node derives something, a first set shows what its node derives. -/
theorem InProduction.shows_firstOf (inside : registry.InProduction id) {set : FirstSet}
    (h : registry.firstOf limit id k = .ok set) : set.Shows k (registry.Derives .once id) := by
  have grounds := inside.grounded_of grounded
  exact ⟨(grounds.mem_firstOf hk grounded h).1, fun word =>
    inside.mem_firstOf_of_productive grounded productive hk h⟩

/-- What units begin with shows the words of the units before those of what follows. -/
theorem shows_behind {units : List NodeId} (inside : ∀ unit ∈ units, registry.InProduction unit)
    {follow next : FirstSet} {P : Word → Prop} (hf : follow.Shows k P) (outer : ∃ word, P word)
    (h : registry.behind limit k follow units = .ok next) :
    next.Shows k fun word => ∃ front outer, registry.DerivesRow units front ∧ P outer ∧
      word = front ++ outer := by
  induction units generalizing next with
  | nil =>
    cases h
    refine hf.congr fun word => ?_
    constructor
    · exact fun hp => ⟨[], word, ⟨[], rfl, rfl, by simp⟩, hp, rfl⟩
    · rintro ⟨front, outer, ⟨pieces, hn, rfl, _⟩, hp, rfl⟩
      obtain rfl := List.map_eq_nil_iff.mp hn
      exact hp
  | cons unit units ih =>
    rw [List.forall_mem_cons] at inside
    obtain ⟨after, ha, h⟩ := bind_eq_ok.mp h
    obtain ⟨set, hs, h⟩ := bind_eq_ok.mp h
    cases h
    have first := inside.1.shows_firstOf grounded productive hk hs
    obtain ⟨row, hrow⟩ := exists_derivesRow productive inside.2
    obtain ⟨last, hlast⟩ := outer
    refine (first.concat hk (ih inside.2 ha) ⟨_, row, last, hrow, hlast, rfl⟩).congr fun word => ?_
    constructor
    · rintro ⟨front, _, hd, ⟨_, outer, ⟨pieces, rfl, rfl, hp⟩, hout, rfl⟩, rfl⟩
      refine ⟨front ++ pieces.word, outer, ⟨(unit, front) :: pieces, rfl, rfl, ?_⟩, hout,
        (List.append_assoc _ _ _).symm⟩
      exact List.forall_mem_cons.mpr ⟨hd, hp⟩
    · rintro ⟨_, outer, ⟨pieces, hn, rfl, hp⟩, hout, rfl⟩
      obtain ⟨piece, rest, rfl, rfl, rfl⟩ := List.map_eq_cons_iff.mp hn
      rw [List.forall_mem_cons] at hp
      exact ⟨piece.2, _, hp.1, ⟨_, outer, ⟨rest, rfl, rfl, hp.2⟩, hout, rfl⟩,
        List.append_assoc _ _ _⟩

/-- What follows a node shows what can come after it. -/
theorem shows_followAt (ho : registry.owners = .ok final) (inside : registry.InProduction parent)
    {place : Place} (stands : registry.Stands parent place child) {follow next : FirstSet}
    (hf : follow.Shows k (registry.Follows parent))
    (h : registry.followAt limit k child follow place = .ok next) :
    next.Shows k (registry.Follows child) := by
  have outer := exists_follows grounded productive inside
  refine .congr (P := registry.FollowsIn parent child place) ?_ fun word =>
    (follows_iff ho inside stands).symm
  cases place with
  | before units =>
    exact shows_behind grounded productive hk (stands.inProduction_units inside) hf outer h
  | looped =>
    obtain ⟨set, hs, h⟩ := bind_eq_ok.mp h
    cases h
    have below := inside.step stands.of_child
    have body := below.shows_firstOf grounded productive hk hs
    exact (body.union FirstSet.shows_epsilon).concat hk hf outer
  | apart =>
    cases h
    exact FirstSet.shows_epsilon

end

end Registry

end BoundedLookahead
