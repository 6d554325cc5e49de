import BoundedLookahead.Proofs.Derivation
import BoundedLookahead.Proofs.Rounds

/-!
# First sets and beginnings

The first set of a node holds exactly the beginnings of the node. That nothing
else gets into it follows along the rounds of solving; that nothing is missing
follows, for sets that a round gives back, along the reading of a beginning.
-/

namespace BoundedLookahead

section

variable {α : Type} {first : α → Except AnalysisError FirstSet} {k : Nat}

/-- A bounded part before bounded units gives a bounded row. -/
theorem bounded_firstOfSequence (hk : 1 ≤ k) {units : List α} {before result : FirstSet}
    (bounded : ∀ unit ∈ units, ∀ set, first unit = .ok set → set.Bounded k)
    (hb : before.Bounded k) (h : firstOfSequence first k before units = .ok result) :
    result.Bounded k := by
  induction units generalizing before with
  | nil =>
    cases h
    exact hb
  | cons unit units ih =>
    rw [List.forall_mem_cons] at bounded
    simp only [firstOfSequence] at h
    split at h
    · cases h
      exact hb
    · obtain ⟨set, hset, h⟩ := bind_eq_ok.mp h
      exact ih bounded.2 (hb.concat hk (bounded.1 set hset)) h

/-- A member that has reached the bound stays whatever follows. -/
theorem mem_firstOfSequence_of_length (hk : 1 ≤ k) {units : List α} {before result : FirstSet}
    {word : Word} (bounded : ∀ unit ∈ units, ∀ set, first unit = .ok set → set.Bounded k)
    (hb : before.Bounded k) (hm : word ∈ before) (hl : word.length = k)
    (h : firstOfSequence first k before units = .ok result) : word ∈ result := by
  induction units generalizing before with
  | nil =>
    cases h
    exact hm
  | cons unit units ih =>
    rw [List.forall_mem_cons] at bounded
    simp only [firstOfSequence] at h
    split at h
    · cases h
      exact hm
    · obtain ⟨set, hset, h⟩ := bind_eq_ok.mp h
      have hs := bounded.1 set hset
      exact ih bounded.2 (hb.concat hk hs)
        ((FirstSet.mem_concat hk hb hs).mpr (.inl ⟨word, hm, hl, rfl⟩)) h

end

/-- Cutting a word first does not change where it is cut with more behind it. -/
theorem take_take_append {α : Type} (k : Nat) (front behind : List α) :
    (front.take k ++ behind).take k = (front ++ behind).take k := by
  rw [List.take_append, List.take_append, List.take_take, Nat.min_self, List.length_take]
  by_cases h : front.length ≤ k
  · rw [Nat.min_eq_right h]
  · rw [Nat.min_eq_left (by omega), Nat.sub_self, Nat.sub_eq_zero_of_le (by omega)]

/-- Nor does cutting what comes behind it. -/
theorem take_append_take {α : Type} (k : Nat) (front behind : List α) :
    (front ++ behind.take k).take k = (front ++ behind).take k := by
  rw [List.take_append, List.take_append, List.take_take, Nat.min_eq_left (Nat.sub_le k front.length)]

/-- In a list without repeated names an item is found under its name. -/
theorem find?_eq_some_of_nodup {α : Type} (name : α → String) {items : List α}
    (distinct : (items.map name).Nodup) {item : α} (h : item ∈ items) :
    items.find? (fun other => name other == name item) = some item := by
  induction items with
  | nil => cases h
  | cons first items ih =>
    rw [List.map_cons, List.nodup_cons] at distinct
    rcases List.mem_cons.mp h with rfl | h
    · simp
    · have hne : name first ≠ name item := fun he => distinct.1 (he ▸ List.mem_map_of_mem h)
      rw [List.find?_cons_of_neg (by simpa using hne)]
      exact ih distinct.2 h

/-- In a list without repeated names the order does not matter to what is found. -/
theorem find?_perm_of_nodup {α : Type} (name : α → String) {items items' : List α}
    (distinct : (items.map name).Nodup) (same : items.Perm items') (key : String) :
    items.find? (fun item => name item == key) = items'.find? fun item => name item == key := by
  cases hf : items'.find? fun item => name item == key with
  | none =>
    rw [List.find?_eq_none] at hf ⊢
    exact fun item hm => hf item (same.mem_iff.mp hm)
  | some item =>
    obtain rfl : name item = key := by simpa using List.find?_some hf
    exact find?_eq_some_of_nodup name distinct (same.mem_iff.mpr (List.mem_of_find?_eq_some hf))

namespace Registry

variable {registry : Registry} {id : NodeId} {sets next : SetTable} {k limit : Nat}

/-- A production is found under its name. -/
theorem production?_eq_some {production : Production} (h : production ∈ registry.productions) :
    registry.production? production.name = some production :=
  find?_eq_some_of_nodup Production.name registry.names_nodup h

/-- A defined name is the name of a production. -/
theorem isDefined_iff {name : String} : registry.isDefined name = true ↔ name ∈ registry.names := by
  simp [isDefined, production?, names]

/-- The sets hold beginnings of their productions only. -/
structure Begun (registry : Registry) (k : Nat) (sets : SetTable) : Prop where
  /-- They are bounded. -/
  bounded : ∀ name, (sets.find name).Bounded k
  /-- Their members are beginnings. -/
  begins : ∀ name, ∀ word ∈ sets.find name, ∃ production,
    registry.production? name = some production ∧ registry.Begins k production.root word

/-- The units begin one after the other with the word, read up to `k` tokens. -/
def Reads (registry : Registry) (k : Nat) (units : List NodeId) (word : Word) : Prop :=
  ∃ (pieces : Pieces) (rest : List NodeId), units = pieces.nodes ++ rest ∧
    (rest = [] ∨ k ≤ pieces.word.length) ∧
    (∀ piece ∈ pieces, registry.Begins k piece.1 piece.2) ∧ pieces.word.take k = word

/-- Further units do not matter to a word that has reached the bound. -/
theorem Reads.append {units : List NodeId} {word : Word} (h : registry.Reads k units word)
    (hl : word.length = k) (more : List NodeId) : registry.Reads k (units ++ more) word := by
  obtain ⟨pieces, rest, rfl, stop, hb, rfl⟩ := h
  refine ⟨pieces, rest ++ more, List.append_assoc _ _ _, .inr ?_, hb, rfl⟩
  rw [List.length_take] at hl
  omega

/-- A shorter word goes on with a beginning of the next unit. -/
theorem Reads.snoc {units : List NodeId} {unit : NodeId} {head tail : Word}
    (h : registry.Reads k units head) (hl : head.length < k) (ht : registry.Begins k unit tail) :
    registry.Reads k (units ++ [unit]) ((head ++ tail).take k) := by
  obtain ⟨pieces, rest, rfl, stop, hb, rfl⟩ := h
  rw [List.length_take] at hl
  obtain rfl : rest = [] := stop.resolve_right (by omega)
  refine ⟨pieces ++ [(unit, tail)], [], by simp, .inl rfl, ?_, ?_⟩
  · intro piece hm
    rcases List.mem_append.mp hm with hm | hm
    · exact hb piece hm
    · obtain rfl := List.mem_singleton.mp hm
      exact ht
  · rw [Pieces.word_append, List.take_of_length_le (l := pieces.word) (by omega)]
    simp

/-- The row of units holds words that can be read from them. -/
theorem reads_firstOfSequence (hk : 1 ≤ k) {first : NodeId → Except AnalysisError FirstSet}
    {done units : List NodeId} {before result : FirstSet}
    (children : ∀ unit ∈ units, ∀ set, first unit = .ok set →
      set.Bounded k ∧ ∀ word ∈ set, registry.Begins k unit word)
    (hb : before.Bounded k) (hr : ∀ word ∈ before, registry.Reads k done word)
    (h : firstOfSequence first k before units = .ok result) :
    ∀ word ∈ result, registry.Reads k (done ++ units) word := by
  induction units generalizing done before with
  | nil =>
    cases h
    rwa [List.append_nil]
  | cons unit units ih =>
    simp only [firstOfSequence] at h
    split at h
    · next hs =>
      cases h
      intro word hm
      have := (FirstSet.saturated_iff hk hb).mp hs word hm
      have := hb.length_le hm
      exact (hr word hm).append (by omega) _
    · obtain ⟨set, hset, h⟩ := bind_eq_ok.mp h
      rw [List.forall_mem_cons] at children
      obtain ⟨hs, hc⟩ := children.1 set hset
      have : ∀ word ∈ result, registry.Reads k ((done ++ [unit]) ++ units) word :=
        ih children.2 (hb.concat hk hs) (fun word hm => ?_) h
      · rwa [List.append_assoc] at this
      rcases (FirstSet.mem_concat hk hb hs).mp hm with ⟨head, hh, hl, rfl⟩ |
        ⟨head, hh, hl, tail, ht, rfl⟩
      · exact (hr head hh).append hl _
      · exact (hr head hh).snoc hl (hc tail ht)

/-- Alternatives hold what begins one of them. -/
theorem mem_firstOfChoice {first : NodeId → Except AnalysisError FirstSet}
    {alternatives : List NodeId} {others result : FirstSet}
    (h : firstOfChoice first others alternatives = .ok result) {word : Word} :
    word ∈ result ↔ word ∈ others ∨ ∃ alternative ∈ alternatives, ∃ set,
      first alternative = .ok set ∧ word ∈ set := by
  induction alternatives generalizing others with
  | nil =>
    cases h
    simp
  | cons alternative alternatives ih =>
    obtain ⟨set, hset, h⟩ := bind_eq_ok.mp h
    rw [ih h, FirstSet.mem_union, or_assoc, List.exists_mem_cons_iff]
    refine or_congr_right (or_congr_left ?_)
    constructor
    · exact fun hm => ⟨set, hset, hm⟩
    · rintro ⟨other, ho, hm⟩
      rw [hset] at ho
      cases ho
      exact hm

/-- Alternatives that succeed are bounded together when each is. -/
theorem bounded_firstOfChoice {first : NodeId → Except AnalysisError FirstSet}
    {alternatives : List NodeId} {others result : FirstSet}
    (bounded : ∀ child ∈ alternatives, ∀ set, first child = .ok set → set.Bounded k)
    (ho : others.Bounded k) (h : firstOfChoice first others alternatives = .ok result) :
    result.Bounded k := by
  induction alternatives generalizing others with
  | nil =>
    cases h
    exact ho
  | cons alternative alternatives ih =>
    obtain ⟨set, hset, h⟩ := bind_eq_ok.mp h
    rw [List.forall_mem_cons] at bounded
    exact ih bounded.2 (ho.union (bounded.1 set hset)) h

/-- Found from beginnings of the productions, the first set of a node is bounded and
holds beginnings of the node. -/
theorem Grounded.begins_of_firstAt (hk : 1 ≤ k) (h : registry.Grounded id)
    (begun : registry.Begun k sets) {set : FirstSet} (hf : registry.firstAt sets k limit id = .ok set) :
    set.Bounded k ∧ ∀ word ∈ set, registry.Begins k id word := by
  induction h generalizing set with
  | @node id entry found below ih =>
    obtain ⟨expansion, location⟩ := entry
    have he : registry.expansion? id = some expansion := by simp [expansion?, found]
    replace hf := (((Grounded.node found below).firstAt_eq_ok he).mp hf).1
    dsimp only at below ih
    cases expansion with
    | terminal kind =>
      cases hf
      refine ⟨FirstSet.bounded_token hk kind, fun word hm => ?_⟩
      obtain rfl := FirstSet.mem_token.mp hm
      exact .terminal he
    | nonTerminal name args =>
      cases hf
      refine ⟨begun.bounded name, fun word hm => ?_⟩
      obtain ⟨production, hp, hb⟩ := begun.begins name word hm
      exact .nonTerminal he hp hb
    | sequence units =>
      refine ⟨bounded_firstOfSequence hk (fun unit hu set hs => (ih unit hu hs).1)
        FirstSet.bounded_epsilon hf, fun word hm => ?_⟩
      have start : ∀ word ∈ FirstSet.epsilon, registry.Reads k [] word := fun word hm =>
        ⟨[], [], rfl, .inl rfl, by simp, by rw [FirstSet.mem_epsilon.mp hm]; exact List.take_nil⟩
      obtain ⟨pieces, rest, hu, stop, hb, rfl⟩ := reads_firstOfSequence hk
        (fun unit hu set hs => ih unit hu hs) FirstSet.bounded_epsilon start hf word hm
      exact .sequence pieces rest (by rw [he, ← hu]; rfl) stop hb
    | choice alternatives =>
      refine ⟨bounded_firstOfChoice (fun child hc set hs => (ih child hc hs).1)
        FirstSet.bounded_empty hf, fun word hm => ?_⟩
      rcases (mem_firstOfChoice hf).mp hm with hm | ⟨alternative, ha, set, hs, hm⟩
      · exact absurd hm FirstSet.not_mem_empty
      · exact .choice he ha ((ih alternative ha hs).2 word hm)
    | repetition kind body guard =>
      have hbody : body ∈ (Expansion.repetition kind body guard).children := by
        simp [Expansion.children]
      by_cases hkind : kind = .oneOrMore
      · subst hkind
        obtain ⟨hb, hw⟩ := ih body hbody hf
        exact ⟨hb, fun word hm => .entered he (hw word hm)⟩
      · have hf : (do return (← registry.firstAt sets k limit body).union FirstSet.epsilon) =
            Except.ok set := by
          cases kind with
          | oneOrMore => exact absurd rfl hkind
          | _ => exact hf
        obtain ⟨inner, hs, hf⟩ := bind_eq_ok.mp hf
        cases hf
        obtain ⟨hb, hw⟩ := ih body hbody hs
        refine ⟨hb.union FirstSet.bounded_epsilon, fun word hm => ?_⟩
        rcases FirstSet.mem_union.mp hm with hm | hm
        · exact .entered he (hw word hm)
        · obtain rfl := FirstSet.mem_epsilon.mp hm
          exact .skipped he hkind
    | lookahead directive =>
      cases hf
      refine ⟨FirstSet.bounded_epsilon, fun word hm => ?_⟩
      obtain rfl := FirstSet.mem_epsilon.mp hm
      exact .lookahead he
    | action code =>
      cases hf
      refine ⟨FirstSet.bounded_epsilon, fun word hm => ?_⟩
      obtain rfl := FirstSet.mem_epsilon.mp hm
      exact .action he
    | tryBlock body handlers cleanup =>
      obtain ⟨hb, hw⟩ := ih body (by simp [Expansion.children]) hf
      exact ⟨hb, fun word hm => .tryBlock he (hw word hm)⟩

/-- Every alternative of a choice that succeeds does. -/
theorem exists_of_firstOfChoice {first : NodeId → Except AnalysisError FirstSet}
    {alternatives : List NodeId} {others result : FirstSet}
    (h : firstOfChoice first others alternatives = .ok result) {alternative : NodeId}
    (ha : alternative ∈ alternatives) : ∃ set, first alternative = .ok set := by
  induction alternatives generalizing others with
  | nil => cases ha
  | cons next alternatives ih =>
    obtain ⟨set, hset, h⟩ := bind_eq_ok.mp h
    rcases List.mem_cons.mp ha with rfl | ha
    · exact ⟨set, hset⟩
    · exact ih h ha

/-- The row of units holds every word that goes on from a member of the part before
them with members of their sets, read until the units end or the tokens suffice. -/
theorem mem_firstOfSequence (hk : 1 ≤ k) {first : NodeId → Except AnalysisError FirstSet}
    {pieces : Pieces} {rest : List NodeId} {before result : FirstSet} {head : Word}
    (bounded : ∀ unit ∈ pieces.nodes ++ rest, ∀ set, first unit = .ok set → set.Bounded k)
    (members : ∀ piece ∈ pieces, ∀ set, first piece.1 = .ok set → piece.2 ∈ set)
    (hb : before.Bounded k) (hm : head ∈ before) (stop : rest = [] ∨ k ≤ (head ++ pieces.word).length)
    (h : firstOfSequence first k before (pieces.nodes ++ rest) = .ok result) :
    (head ++ pieces.word).take k ∈ result := by
  have hl := hb.length_le hm
  induction pieces generalizing before head with
  | nil =>
    rw [Pieces.word_nil, List.append_nil] at stop ⊢
    rw [List.take_of_length_le hl]
    rcases stop with rfl | long
    · cases h
      exact hm
    · exact mem_firstOfSequence_of_length hk bounded hb hm (by omega) h
  | cons piece pieces ih =>
    by_cases full : head.length = k
    · have := mem_firstOfSequence_of_length hk bounded hb hm full h
      rwa [List.take_append_of_le_length (by omega), List.take_of_length_le hl]
    have unfinished : ¬before.saturated k = true := fun hs => by
      have := (FirstSet.saturated_iff hk hb).mp hs head hm
      omega
    simp only [Pieces.nodes_cons, List.cons_append, firstOfSequence, if_neg unfinished] at h
    obtain ⟨set, hset, h⟩ := bind_eq_ok.mp h
    rw [Pieces.nodes_cons, List.cons_append, List.forall_mem_cons] at bounded
    rw [List.forall_mem_cons] at members
    have hs := bounded.1 set hset
    have hc : (head ++ piece.2).take k ∈ before.concat set k :=
      (FirstSet.mem_concat hk hb hs).mpr
        (.inr ⟨head, hm, by omega, piece.2, members.1 set hset, rfl⟩)
    have := ih bounded.2 members.2 (hb.concat hk hs) hc ?_ h (List.length_take_le _ _)
    · rwa [Pieces.word_cons, ← List.append_assoc, ← take_take_append]
    · refine stop.imp_right fun long => ?_
      simp only [Pieces.word_cons, List.length_append, List.length_take] at long ⊢
      omega

/-- Found from sets that a round gives back, the first set of a node holds all its
beginnings. -/
theorem Begins.mem_firstAt (hk : 1 ≤ k)
    (grounded : ∀ production ∈ registry.productions, registry.Grounded production.root)
    (begun : registry.Begun k sets) (round : registry.Round k limit sets sets) {word : Word}
    (h : registry.Begins k id word) (hg : registry.Grounded id) {set : FirstSet}
    (hf : registry.firstAt sets k limit id = .ok set) : word ∈ set := by
  induction h generalizing set with
  | @terminal id kind he =>
    cases ((hg.firstAt_eq_ok he).mp hf).1
    exact FirstSet.mem_token.mpr rfl
  | @nonTerminal id name args production word he defined _ ih =>
    cases ((hg.firstAt_eq_ok he).mp hf).1
    have hp : production ∈ registry.productions := List.mem_of_find?_eq_some defined
    have hn : production.name = name := by simpa using List.find?_some defined
    have := ih (grounded production hp) (round.solved production hp)
    rwa [hn] at this
  | @sequence id pieces rest he stop units ih =>
    have hf := ((hg.firstAt_eq_ok he).mp hf).1
    have below := hg.of_expansion he
    have start : [] ∈ FirstSet.epsilon := FirstSet.mem_epsilon.mpr rfl
    refine mem_firstOfSequence hk
      (fun unit hu set hs => ((below unit hu).begins_of_firstAt hk begun hs).1)
      (fun piece hp set hs => ih piece hp ?_ hs) FirstSet.bounded_epsilon start stop hf
    exact below _ (List.mem_append_left _ (Pieces.mem_nodes hp))
  | @choice id alternative alternatives word he taken _ ih =>
    have hf := ((hg.firstAt_eq_ok he).mp hf).1
    obtain ⟨inner, hs⟩ := exists_of_firstOfChoice hf taken
    exact (mem_firstOfChoice hf).mpr
      (.inr ⟨alternative, taken, inner, hs, ih (hg.of_expansion he _ taken) hs⟩)
  | @entered id body kind guard word he _ ih =>
    have hf := ((hg.firstAt_eq_ok he).mp hf).1
    have hb := hg.of_expansion he body (by simp [Expansion.children])
    cases kind with
    | oneOrMore => exact ih hb hf
    | _ =>
      obtain ⟨inner, hs, hf⟩ := bind_eq_ok.mp hf
      cases hf
      exact FirstSet.mem_union.mpr (.inl (ih hb hs))
  | @skipped id body kind guard he optional =>
    have hf := ((hg.firstAt_eq_ok he).mp hf).1
    cases kind with
    | oneOrMore => exact absurd rfl optional
    | _ =>
      obtain ⟨inner, hs, hf⟩ := bind_eq_ok.mp hf
      cases hf
      exact FirstSet.mem_union.mpr (.inr (FirstSet.mem_epsilon.mpr rfl))
  | lookahead he =>
    cases ((hg.firstAt_eq_ok he).mp hf).1
    exact FirstSet.mem_epsilon.mpr rfl
  | action he =>
    cases ((hg.firstAt_eq_ok he).mp hf).1
    exact FirstSet.mem_epsilon.mpr rfl
  | @tryBlock id body handlers cleanup word he _ ih =>
    have hf := ((hg.firstAt_eq_ok he).mp hf).1
    exact ih (hg.of_expansion he body (by simp [Expansion.children])) hf

/-- In the beginning nothing has begun. -/
theorem begun_initialSets : registry.Begun k registry.initialSets :=
  ⟨fun name => by rw [find_initialSets]; exact FirstSet.bounded_empty,
    fun name word hm => by rw [find_initialSets] at hm; exact absurd hm FirstSet.not_mem_empty⟩

/-- A round makes sets of beginnings from sets of beginnings. -/
theorem Begun.round (hk : 1 ≤ k)
    (grounded : ∀ production ∈ registry.productions, registry.Grounded production.root)
    (h : registry.Begun k sets) (hr : registry.Round k limit sets next) : registry.Begun k next := by
  have (name : String) : (next.find name).Bounded k ∧ ∀ word ∈ next.find name, ∃ production,
      registry.production? name = some production ∧ registry.Begins k production.root word := by
    by_cases hn : name ∈ registry.names
    · obtain ⟨production, hp, rfl⟩ := List.mem_map.mp hn
      obtain ⟨hb, hw⟩ := (grounded production hp).begins_of_firstAt hk h (hr.solved production hp)
      exact ⟨hb, fun word hm => ⟨production, production?_eq_some hp, hw word hm⟩⟩
    · rw [hr.find_of_not_mem hn]
      exact ⟨FirstSet.bounded_empty, fun word hm => absurd hm FirstSet.not_mem_empty⟩
  exact ⟨fun name => (this name).1, fun name => (this name).2⟩

/-- Rounds that end without outgrowing the limit end in sets of beginnings that
another round gives back. -/
theorem Rounds.outcome_ok (hk : 1 ≤ k) {rounds : Nat} {solution : Solution} {final : SetTable}
    (run : Rounds registry.rules k limit rounds sets solution)
    (grounded : ∀ production ∈ registry.productions, registry.Grounded production.root)
    (begun : registry.Begun k sets) (h : solution.outcome = .ok final) :
    registry.Begun k final ∧ registry.Round k limit final final :=
  Rounds.invariant run begun (fun _ _ hr begun => begun.round hk grounded hr) h

/-- The first set of a node at a level is found from the sets of the level. -/
theorem Grounded.levelOf_first (h : registry.Grounded id) :
    (registry.levelOf limit k sets).first id = registry.firstAt sets k limit id :=
  h.valueIn_harvest

/-- The first set of a grounded node at a depth is found from the solution for that
depth. -/
theorem Grounded.firstOf_eq (h : registry.Grounded id) :
    registry.firstOf limit id k =
      ((registry.solveFirst limit k).outcome >>= fun sets => registry.firstAt sets k limit id) := by
  unfold firstOf level
  cases (registry.solveFirst limit k).outcome with
  | error cause => rfl
  | ok sets => exact h.levelOf_first

/-- The first set of a grounded node is bounded and holds the beginnings of the
node and nothing else. -/
theorem Grounded.mem_firstOf (hk : 1 ≤ k)
    (grounded : ∀ production ∈ registry.productions, registry.Grounded production.root)
    (h : registry.Grounded id) {set : FirstSet} (hf : registry.firstOf limit id k = .ok set) :
    set.Bounded k ∧ ∀ word, word ∈ set ↔ registry.Begins k id word := by
  rw [h.firstOf_eq] at hf
  obtain ⟨sets, hs, hf⟩ := bind_eq_ok.mp hf
  obtain ⟨begun, round⟩ := Rounds.outcome_ok hk (solveFirst_rounds grounded) grounded
    begun_initialSets hs
  obtain ⟨bounded, begins⟩ := h.begins_of_firstAt hk begun hf
  exact ⟨bounded, fun word =>
    ⟨begins word, fun hw => hw.mem_firstAt hk grounded begun round h hf⟩⟩

/-- The first set of a grounded node fails only by outgrowing the limit. -/
theorem Grounded.firstOf_error
    (grounded : ∀ production ∈ registry.productions, registry.Grounded production.root)
    (h : registry.Grounded id) {cause : AnalysisError} (hf : registry.firstOf limit id k = .error cause) :
    ∃ node size, cause = .limitExceeded node k size limit ∧ limit < size := by
  rw [h.firstOf_eq] at hf
  rcases bind_eq_error.mp hf with hs | ⟨sets, _, hf⟩
  · exact Rounds.outcome_error (solveFirst_rounds grounded) grounded hs
  · exact h.firstAt_error hf

end Registry

end BoundedLookahead
