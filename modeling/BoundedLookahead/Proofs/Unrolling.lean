import BoundedLookahead.Proofs.DecisionPoints
import BoundedLookahead.Proofs.Truncation

/-!
# Bodies that run again

A first set enters a repetition at most once: whether its body runs again is decided when
that comes up. So the lookahead of a decision accepts the sentences that start, as far as
it looks, like one in which no body is repeated, and no others where every node derives
something. Those are among them in whose own derivation only one run of each repetition
reads any of the tokens that are seen, at depth 1 all of them. At depth 2 `a a` still starts
like the `a` of `a+`, but `a a b` starts neither like `a b` nor like `b`, with which `a* b`
begins.
-/

namespace BoundedLookahead

section

variable {α : Type}

/-- Lists that agree up to length `k` still do when what comes behind them agrees as far as
it is seen. -/
theorem take_append_congr {k : Nat} {front front' behind behind' : List α}
    (h : front'.take k = front.take k)
    (h' : behind'.take (k - front.length) = behind.take (k - front.length)) :
    (front' ++ behind').take k = (front ++ behind).take k := by
  have lengths := congrArg List.length h
  rw [List.length_take, List.length_take] at lengths
  have rest : k - front'.length = k - front.length := by omega
  rw [List.take_append, List.take_append, h, rest, h']

/-- In a row of words one comes first that is not empty, unless all of them are. -/
theorem exists_first_nonempty (words : List (List α)) : words = [] ∨
    ∃ idle first later, words = idle ++ first :: later ∧ idle.flatten = [] ∧
      (later.flatten = [] ∨ 1 ≤ first.length) := by
  induction words with
  | nil => exact .inl rfl
  | cons word words ih =>
    right
    by_cases hw : word = []
    · subst hw
      rcases ih with rfl | ⟨idle, first, later, rfl, he, far⟩
      · exact ⟨[], [], [], rfl, rfl, .inl rfl⟩
      · exact ⟨[] :: idle, first, later, rfl, by simpa using he, far⟩
    · exact ⟨[], word, words, rfl, rfl, .inr (List.length_pos_iff.mpr hw)⟩

end

/-- Words that agree with those of the pieces as far as they are seen can be chosen for all
nodes. -/
theorem Pieces.exists_of_take {P : NodeId → Word → Prop} {k : Nat} {pieces : Pieces}
    (h : ∀ before piece behind, pieces = before ++ piece :: behind →
      ∃ other, P piece.1 other ∧
        other.take (k - (word before).length) = piece.2.take (k - (word before).length)) :
    ∃ whole : Pieces, whole.nodes = pieces.nodes ∧ whole.word.take k = pieces.word.take k ∧
      ∀ piece ∈ whole, P piece.1 piece.2 := by
  induction pieces generalizing k with
  | nil => exact ⟨[], rfl, rfl, by simp⟩
  | cons piece pieces ih =>
    obtain ⟨other, ho, same⟩ := h [] piece pieces rfl
    obtain ⟨whole, nodes, rest, hp⟩ := ih (k := k - piece.2.length) fun before other behind he => by
      have := h (piece :: before) other behind (by rw [he]; rfl)
      rwa [word_cons, List.length_append, ← Nat.sub_sub] at this
    refine ⟨(piece.1, other) :: whole, ?_, take_append_congr same rest,
      List.forall_mem_cons.mpr ⟨ho, hp⟩⟩
    rw [nodes_cons, nodes_cons, nodes]

namespace Registry

/-- The node derives the word in the ordinary sense of a grammar, and of the runs of each
repetition at most one reads any of the first `k` tokens. -/
inductive Unrolls (registry : Registry) : Nat → NodeId → Word → Prop
  /-- A token derives itself. -/
  | terminal {k : Nat} {id : NodeId} {kind : Token}
    (h : registry.expansion? id = some (.terminal kind)) : Unrolls registry k id [kind]
  /-- A call of a registered production derives what its root does. -/
  | nonTerminal {k : Nat} {id : NodeId} {name : String} {args : List String}
    {production : Production} {word : Word}
    (h : registry.expansion? id = some (.nonTerminal name args))
    (defined : registry.production? name = some production)
    (body : Unrolls registry k production.root word) : Unrolls registry k id word
  /-- A unit reads those of the first `k` tokens that the units before it have left. -/
  | sequence {k : Nat} {id : NodeId} (pieces : Pieces)
    (h : registry.expansion? id = some (.sequence pieces.nodes))
    (units : ∀ before piece behind, pieces = before ++ piece :: behind →
      Unrolls registry (k - (Pieces.word before).length) piece.1 piece.2) :
    Unrolls registry k id pieces.word
  /-- A choice derives what one of its alternatives does. -/
  | choice {k : Nat} {id alternative : NodeId} {alternatives : List NodeId} {word : Word}
    (h : registry.expansion? id = some (.choice alternatives)) (taken : alternative ∈ alternatives)
    (body : Unrolls registry k alternative word) : Unrolls registry k id word
  /-- A repetition may be left out. -/
  | skipped {k : Nat} {id body : NodeId} {kind : RepetitionKind} {guard : Option NodeId}
    (h : registry.expansion? id = some (.repetition kind body guard))
    (optional : kind ≠ .oneOrMore) : Unrolls registry k id []
  /-- One run reads what is seen: those before it read nothing, and those behind it read
  nothing or only what comes after the first `k` tokens. -/
  | entered {k : Nat} {id body : NodeId} {kind : RepetitionKind} {guard : Option NodeId}
    (idle : List Word) (first : Word) (later : List Word)
    (h : registry.expansion? id = some (.repetition kind body guard))
    (runs : Iteration.repeated kind (idle ++ first :: later).length)
    (bodies : ∀ word ∈ idle ++ first :: later, registry.Derives .repeated body word)
    (nothing : idle.flatten = []) (inner : Unrolls registry k body first)
    (far : later.flatten = [] ∨ k ≤ first.length) :
    Unrolls registry k id (idle ++ first :: later).flatten
  /-- A lookahead consumes nothing. -/
  | lookahead {k : Nat} {id : NodeId} {directive : Directive NodeId}
    (h : registry.expansion? id = some (.lookahead directive)) : Unrolls registry k id []
  /-- An action consumes nothing. -/
  | action {k : Nat} {id : NodeId} {code : String}
    (h : registry.expansion? id = some (.action code)) : Unrolls registry k id []
  /-- A guarded block derives what its body does. -/
  | tryBlock {k : Nat} {id body : NodeId} {handlers : List Handler} {cleanup : Option String}
    {word : Word} (h : registry.expansion? id = some (.tryBlock body handlers cleanup))
    (inner : Unrolls registry k body word) : Unrolls registry k id word

variable {σ : Type} {registry : Registry} {options : Options} {id : NodeId} {word : Word} {k : Nat}

/-- Up to length `k`, what is derived in this way is derived without repeating a body. -/
theorem Unrolls.exists_once (h : registry.Unrolls k id word) :
    ∃ whole, registry.Derives .once id whole ∧ whole.take k = word.take k := by
  induction h with
  | terminal h => exact ⟨_, .terminal h, rfl⟩
  | nonTerminal h defined _ ih =>
    obtain ⟨whole, hd, same⟩ := ih
    exact ⟨whole, .nonTerminal h defined hd, same⟩
  | sequence pieces h units ih =>
    obtain ⟨whole, nodes, same, hd⟩ := Pieces.exists_of_take ih
    exact ⟨whole.word, .sequence whole (nodes ▸ h) hd, same⟩
  | choice h taken _ ih =>
    obtain ⟨whole, hd, same⟩ := ih
    exact ⟨whole, .choice h taken hd, same⟩
  | @skipped k id body kind guard h optional =>
    have : registry.Derives .once id [].flatten :=
      .repetition [] h (by cases kind <;> simp_all [Iteration.once]) (by simp)
    exact ⟨[], this, rfl⟩
  | @entered k id body kind guard idle first later h runs bodies nothing _ far ih =>
    obtain ⟨whole, hd, same⟩ := ih
    have once : registry.Derives .once id [whole].flatten :=
      .repetition [whole] h (by cases kind <;> simp [Iteration.once]) (by simpa using hd)
    rw [List.flatten_singleton] at once
    refine ⟨whole, once, ?_⟩
    rw [List.flatten_append, nothing, List.nil_append, List.flatten_cons, same]
    rcases far with behind | long
    · rw [behind, List.append_nil]
    · rw [List.take_append_of_le_length long]
  | lookahead h => exact ⟨[], .lookahead h, rfl⟩
  | action h => exact ⟨[], .action h, rfl⟩
  | tryBlock h _ ih =>
    obtain ⟨whole, hd, same⟩ := ih
    exact ⟨whole, .tryBlock h hd, same⟩

/-- A word that is derived in this way is derived in the ordinary sense. -/
theorem Unrolls.derives (h : registry.Unrolls k id word) : registry.Derives .repeated id word := by
  induction h with
  | terminal h => exact .terminal h
  | nonTerminal h defined _ ih => exact .nonTerminal h defined ih
  | sequence pieces h units ih =>
    refine .sequence pieces h fun piece hm => ?_
    obtain ⟨before, behind, hsplit⟩ := List.append_of_mem hm
    exact ih before piece behind hsplit
  | choice h taken _ ih => exact .choice h taken ih
  | @skipped k id body kind guard h optional =>
    exact .repetition [] h (by cases kind <;> simp_all [Iteration.repeated]) (by simp)
  | entered idle first later h runs bodies nothing _ far ih => exact .repetition _ h runs bodies
  | lookahead h => exact .lookahead h
  | action h => exact .action h
  | tryBlock h _ ih => exact .tryBlock h ih

/-- Up to depth 1 every derivation is of this kind, since only one run reads the first
token. -/
theorem Derives.unrolls (hk : k ≤ 1) (h : registry.Derives .repeated id word) :
    registry.Unrolls k id word := by
  induction h generalizing k with
  | terminal h => exact .terminal h
  | nonTerminal h defined _ ih => exact .nonTerminal h defined (ih hk)
  | sequence pieces h units ih =>
    refine .sequence pieces h fun before piece behind hsplit => ?_
    exact ih piece (hsplit ▸ List.mem_append_right _ List.mem_cons_self) (by omega)
  | choice h taken _ ih => exact .choice h taken (ih hk)
  | @repetition id body kind guard words h runs bodies ih =>
    rcases exists_first_nonempty words with rfl | ⟨idle, first, later, rfl, nothing, far⟩
    · refine .skipped h ?_
      rintro rfl
      exact absurd runs (by simp [Iteration.repeated])
    · have hm : first ∈ idle ++ first :: later := List.mem_append_right _ List.mem_cons_self
      exact .entered idle first later h runs bodies nothing (ih first hm hk)
        (far.imp_right fun read => by omega)
  | lookahead h => exact .lookahead h
  | action h => exact .action h
  | tryBlock h _ ih => exact .tryBlock h (ih hk)

/-- A derivation that repeats no body is of this kind at every depth. -/
theorem Derives.unrolls_of_once (h : registry.Derives .once id word) :
    registry.Unrolls k id word := by
  induction h generalizing k with
  | terminal h => exact .terminal h
  | nonTerminal h defined _ ih => exact .nonTerminal h defined ih
  | sequence pieces h units ih =>
    exact .sequence pieces h fun before piece behind hsplit =>
      ih piece (hsplit ▸ List.mem_append_right _ List.mem_cons_self)
  | choice h taken _ ih => exact .choice h taken ih
  | @repetition id body kind guard words h runs bodies ih =>
    match words, runs with
    | [], runs =>
      refine .skipped h ?_
      rintro rfl
      cases runs
    | [one], _ =>
      refine .entered [] one [] h (by cases kind <;> simp [Iteration.repeated]) (fun word hm => ?_)
        rfl (ih one List.mem_cons_self) (.inl rfl)
      exact (ih (k := k) word hm).derives
    | _ :: _ :: _, runs => cases kind <;> simp [Iteration.once] at runs
  | lookahead h => exact .lookahead h
  | action h => exact .action h
  | tryBlock h _ ih => exact .tryBlock h ih

/-- Up to length `k` the word starts like a nonempty one that the node derives without
repeating a body. -/
def StartsOnce (registry : Registry) (k : Nat) (id : NodeId) (word : Word) : Prop :=
  ∃ once, once ≠ [] ∧ registry.Derives .once id once ∧ once.take k <+: word

/-- A word of which only one run of each repetition reads what is seen starts like that. -/
theorem Unrolls.startsOnce (h : registry.Unrolls k id word) (hk : 1 ≤ k) (hne : word ≠ []) :
    registry.StartsOnce k id word := by
  obtain ⟨once, derived, same⟩ := h.exists_once
  refine ⟨once, ?_, derived, same ▸ List.take_prefix k word⟩
  rintro rfl
  rw [List.take_nil] at same
  exact hne ((take_eq_nil_iff_of_pos hk).mp same.symm)

/-- Such a word starts with something that the node begins with. -/
theorem StartsOnce.exists_begins (h : registry.StartsOnce k id word) (hk : 1 ≤ k) :
    ∃ start, start ≠ [] ∧ registry.Begins k id start ∧ start <+: word := by
  obtain ⟨once, hne, derived, starts⟩ := h
  exact ⟨once.take k, mt (take_eq_nil_iff_of_pos hk).mp hne, derived.begins hk, starts⟩

/-- What a set accepts at a depth, in terms of what the node derives. -/
structure Recognizes (registry : Registry) (k : Nat) (id : NodeId) (set : FirstSet) : Prop where
  /-- A word is accepted, with anything behind it, exactly when it starts with something that
  the node begins with up to the depth. -/
  begins_iff : ∀ word, (∀ further, set.accepts (word ++ further) = true) ↔
    ∃ start, start ≠ [] ∧ registry.Begins k id start ∧ start <+: word
  /-- It is accepted when it starts like a word that is derived without repeating a body. -/
  of_startsOnce : ∀ word, registry.StartsOnce k id word →
    ∀ further, set.accepts (word ++ further) = true
  /-- Where every node derives something it is accepted in no other case. -/
  startsOnce : registry.Productive → ∀ word, (∀ further, set.accepts (word ++ further) = true) →
    registry.StartsOnce k id word
  /-- A sentence is accepted when only one run of each repetition reads what is seen. -/
  of_unrolls : ∀ word, word ≠ [] → registry.Unrolls k id word →
    registry.Derives .repeated id word ∧ ∀ further, set.accepts (word ++ further) = true
  /-- At depth 1 every sentence is accepted. -/
  of_depth_one : k = 1 → ∀ word, word ≠ [] → registry.Derives .repeated id word →
    ∀ further, set.accepts (word ++ further) = true

/-- The first set of a node accepts what starts like the node. -/
theorem InProduction.recognizes (inside : registry.InProduction id) (hk : 1 ≤ k)
    (grounded : ∀ production ∈ registry.productions, registry.Grounded production.root)
    {limit : Nat} {set : FirstSet} (hf : registry.firstOf limit id k = .ok set) :
    registry.Recognizes k id set := by
  obtain ⟨bounded, members⟩ := (inside.grounded_of grounded).mem_firstOf hk grounded hf
  have begins_iff (word : Word) : (∀ further, set.accepts (word ++ further) = true) ↔
      ∃ start, start ≠ [] ∧ registry.Begins k id start ∧ start <+: word := by
    constructor
    · intro accepted
      have alone := accepted []
      rw [List.append_nil, FirstSet.accepts_iff] at alone
      obtain ⟨start, hm, starts⟩ := alone
      exact ⟨start, (bounded start hm).1, (members start).mp (bounded.mem hm), starts⟩
    · rintro ⟨start, hne, begins, starts⟩ further
      exact FirstSet.accepts_iff.mpr ⟨start, FirstSet.mem_words ((members start).mpr begins) hne,
        starts.trans (List.prefix_append word further)⟩
  have of_startsOnce (word : Word) (h : registry.StartsOnce k id word) :
      ∀ further, set.accepts (word ++ further) = true := (begins_iff word).mpr (h.exists_begins hk)
  refine {
    begins_iff
    of_startsOnce
    startsOnce := fun productive word accepted => ?_
    of_unrolls := fun word hne h => ⟨h.derives, of_startsOnce word (h.startsOnce hk hne)⟩
    of_depth_one := fun one word hne h =>
      of_startsOnce word ((h.unrolls (Nat.le_of_eq one)).startsOnce hk hne) }
  obtain ⟨start, hne, begins, starts⟩ := (begins_iff word).mp accepted
  obtain ⟨once, derived, rfl⟩ := (inside.mem_firstOf_of_productive grounded productive hk hf).mp
    ((members start).mpr begins)
  exact ⟨once, mt (take_eq_nil_iff_of_pos hk).mpr hne, derived, starts⟩

/-- Entries of choices and loops accept the words that start, as far as they look, like a
word that their node derives without repeating a body, with anything behind it. At depth 1
these are all sentences of the node. Without a guard an entry admits what it accepts, or
everything if it is the default, and a loop is entered on what it accepts. -/
theorem decisions_accept_starts {state : σ} {analysis : Analysis}
    (analyzed : (registry.analyze options state).result = .ok analysis) :
    (∀ id decision, analysis.decisions.get? id = some (.choice decision) →
      ∀ entry ∈ decision.entries,
        registry.Recognizes entry.depth entry.node entry.lookahead ∧
        (entry.guard = none → ∀ upcoming holds, (entry.admits upcoming holds).value =
          (entry.isDefault || entry.lookahead.accepts upcoming))) ∧
    ∀ id decision, analysis.decisions.get? id = some (.loop decision) →
      registry.Recognizes decision.depth decision.body decision.lookahead ∧
      (decision.guard = none → ∀ upcoming holds, (decision.entersWith upcoming holds).value =
        decision.lookahead.accepts upcoming) := by
  obtain ⟨_, ⟨final, ho⟩, _⟩ := analyze_eq_ok analyzed
  have grounded := grounded_production ho
  refine ⟨fun id decision decided entry hm => ⟨?_, fun plain upcoming holds => ?_⟩,
    fun id decision decided => ⟨?_, fun plain upcoming holds => ?_⟩⟩
  · obtain ⟨inside, about⟩ := decidedAs_of_get? analyzed decided
    obtain ⟨he, _, nodes, first⟩ := about
    obtain ⟨positive, hf⟩ := first entry hm
    have child := inside.of_child he (nodes ▸ List.mem_map_of_mem hm : entry.node ∈ _)
    exact child.recognizes positive grounded hf
  · rw [ChoiceEntry.admits, plain]
  · obtain ⟨inside, about⟩ := decidedAs_of_get? analyzed decided
    obtain _ | ⟨he, positive, hf⟩ := about
    have child := inside.of_child he (by simp [Expansion.children] : decision.body ∈ _)
    exact child.recognizes positive grounded hf
  · rw [LoopDecision.entersWith, plain]

/-- The grammar `S -> a+ | b`. -/
def repeatedToken : Registry where
  nodes := #[⟨.terminal "a", {}⟩, ⟨.repetition .oneOrMore 0 none, {}⟩, ⟨.terminal "b", {}⟩,
    ⟨.choice [1, 2], {}⟩]
  productions := [{ name := "S", root := (3 : Nat) }]
  tokens := ["a", "b"]

/-- At depth 2 the first entry of that choice admits `a a`, which two runs of the body read,
with anything behind it: the one `a` of a single run is enough. -/
theorem accepts_repeatedToken : ∃ analysis decision entry,
    (repeatedToken.analyze { lookahead := 2 } ()).result = .ok analysis ∧
      analysis.decisions.get? 3 = some (.choice decision) ∧ entry ∈ decision.entries ∧
      entry.depth = 2 ∧ entry.guard = none ∧
      repeatedToken.Derives .repeated entry.node ["a", "a"] ∧
      ∀ further holds, (entry.admits (["a", "a"] ++ further) holds).value = true := by
  have computed : ((repeatedToken.analyze { lookahead := 2 } ()).result.toOption.bind
      fun analysis => (analysis.decisions.choice? 3).bind fun decision =>
        decision.entries.head?.map fun entry =>
          (entry.node, entry.depth, entry.guard)) = some (1, 2, none) := by
    decide +kernel
  obtain ⟨analysis, ha, found⟩ := Option.bind_eq_some_iff.mp computed
  obtain ⟨decision, hd, found⟩ := Option.bind_eq_some_iff.mp found
  obtain ⟨entry, he, found⟩ := Option.map_eq_some_iff.mp found
  simp only [Prod.mk.injEq] at found
  obtain ⟨node, depth, plain⟩ := found
  have analyzed := toOption_eq_some.mp ha
  have decided := DecisionTable.choice?_eq_some.mp hd
  have hm := List.mem_of_head? he
  have token {iteration : Iteration} : repeatedToken.Derives iteration 0 ["a"] := .terminal rfl
  have once : repeatedToken.Derives .once 1 [["a"]].flatten :=
    .repetition [["a"]] rfl (by simp [Iteration.once]) (by simpa using token)
  have twice : repeatedToken.Derives .repeated 1 [["a"], ["a"]].flatten :=
    .repetition [["a"], ["a"]] rfl (by simp [Iteration.repeated]) (by simpa using token)
  have starts : repeatedToken.StartsOnce entry.depth entry.node ["a", "a"] := by
    rw [node, depth]
    exact ⟨["a"], by simp, once, ["a"], rfl⟩
  obtain ⟨recognizes, admits⟩ :=
    (decisions_accept_starts analyzed).1 3 decision decided entry hm
  refine ⟨analysis, decision, entry, analyzed, decided, hm, depth, plain, node ▸ twice,
    fun further holds => ?_⟩
  rw [admits plain, recognizes.of_startsOnce _ starts, Bool.or_true]

/-- The grammar `S -> a* b | c`. -/
def repeatedPrefix : Registry where
  nodes := #[⟨.terminal "a", {}⟩, ⟨.repetition .zeroOrMore 0 none, {}⟩, ⟨.terminal "b", {}⟩,
    ⟨.sequence [1, 2], {}⟩, ⟨.terminal "c", {}⟩, ⟨.choice [3, 4], {}⟩]
  productions := [{ name := "S", root := 5 }]
  tokens := ["a", "b", "c"]

/-- The first entry of that choice at depth 2. -/
theorem exists_repeatedPrefix : ∃ analysis decision entry,
    (repeatedPrefix.analyze { lookahead := 2 } ()).result = .ok analysis ∧
      analysis.lookaheadRan = true ∧ analysis.decisions.get? 5 = some (.choice decision) ∧
      entry ∈ decision.entries ∧ entry.node = 3 ∧ entry.depth = 2 ∧ entry.guard = none ∧
      entry.isDefault = false ∧ entry.lookahead.words.toList = [["a", "b"], ["b"]] := by
  have computed : ((repeatedPrefix.analyze { lookahead := 2 } ()).result.toOption.bind
      fun analysis => (analysis.decisions.choice? 5).bind fun decision =>
        decision.entries.head?.map fun entry =>
          analysis.lookaheadRan && entry.node == 3 && entry.depth == 2 && entry.guard.isNone &&
            !entry.isDefault && entry.lookahead.words.toList == [["a", "b"], ["b"]]) =
              some true := by
    decide +kernel
  obtain ⟨analysis, ha, found⟩ := Option.bind_eq_some_iff.mp computed
  obtain ⟨decision, hd, found⟩ := Option.bind_eq_some_iff.mp found
  obtain ⟨entry, he, found⟩ := Option.map_eq_some_iff.mp found
  simp only [Bool.and_eq_true, beq_iff_eq, Option.isNone_iff_eq_none, Bool.not_eq_true'] at found
  obtain ⟨⟨⟨⟨⟨ran, node⟩, depth⟩, guard⟩, default⟩, words⟩ := found
  obtain ⟨choice, hc, hchoice⟩ := Option.bind_eq_some_iff.mp hd
  obtain ⟨_, rfl⟩ : ∃ other, choice = .choice other := by
    cases choice with
    | choice other => exact ⟨other, rfl⟩
    | loop other => cases hchoice
  cases hchoice
  exact ⟨analysis, decision, entry, toOption_eq_some.mp ha, ran, hc, List.mem_of_head? he, node,
    depth, guard, default, words⟩

/-- At depth 2 the entry refuses `a a b`, which its node derives by two runs of the body. -/
theorem refused_repeatedPrefix : ∃ analysis decision entry,
    (repeatedPrefix.analyze { lookahead := 2 } ()).result = .ok analysis ∧
      analysis.lookaheadRan = true ∧ analysis.decisions.get? 5 = some (.choice decision) ∧
      entry ∈ decision.entries ∧ entry.depth = 2 ∧ entry.guard = none ∧
      repeatedPrefix.Derives .repeated entry.node ["a", "a", "b"] ∧
      entry.lookahead.accepts ["a", "a", "b"] = false ∧
      ∀ holds, (entry.admits ["a", "a", "b"] holds).value = false := by
  obtain ⟨analysis, decision, entry, analyzed, ran, decided, hm, node, depth, guard, default,
    words⟩ := exists_repeatedPrefix
  have token {id : NodeId} {kind : Token}
      (h : repeatedPrefix.expansion? id = some (.terminal kind)) :
      repeatedPrefix.Derives .repeated id [kind] := .terminal h
  have twice : repeatedPrefix.Derives .repeated 1 [["a"], ["a"]].flatten :=
    .repetition [["a"], ["a"]] rfl trivial (by simpa using token rfl)
  have derived : repeatedPrefix.Derives .repeated 3 (Pieces.word [(1, ["a", "a"]), (2, ["b"])]) :=
    .sequence _ rfl (by simpa using ⟨twice, token rfl⟩)
  have refused : entry.lookahead.accepts ["a", "a", "b"] = false := by
    rw [FirstSet.accepts, words]
    rfl
  refine ⟨analysis, decision, entry, analyzed, ran, decided, hm, depth, guard, node ▸ derived,
    refused, fun holds => ?_⟩
  simp [ChoiceEntry.admits, guard, default, refused]

end Registry

end BoundedLookahead
