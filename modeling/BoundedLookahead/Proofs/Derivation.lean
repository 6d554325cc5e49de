import BoundedLookahead.Proofs.Arena

/-!
# Derivations and their beginnings

A node derives words in the ordinary sense of a grammar; how often the body of a
repetition may run is a parameter. A node begins with a word at depth `k` when a
reading of the grammar from the left, stopped at `k` tokens, can give that word.
A reading that is stopped owes nothing to the units behind it, so a beginning is
the beginning of a derivation only where these units derive something.
-/

namespace BoundedLookahead

/-- How often the body of each kind of repetition may run. -/
abbrev Iteration : Type := RepetitionKind → Nat → Prop

namespace Iteration

/-- No body runs a second time. -/
def once : Iteration
  | .zeroOrOne, runs => runs ≤ 1
  | .zeroOrMore, runs => runs ≤ 1
  | .oneOrMore, runs => runs = 1

/-- A repetition runs its body as often as its kind allows. -/
def repeated : Iteration
  | .zeroOrOne, runs => runs ≤ 1
  | .zeroOrMore, _ => True
  | .oneOrMore, runs => 1 ≤ runs

end Iteration

/-- Nodes in a row, each with a word. -/
abbrev Pieces : Type := List (NodeId × Word)

namespace Pieces

/-- The nodes. -/
def nodes (pieces : Pieces) : List NodeId := pieces.map Prod.fst

/-- The words one after the other. -/
def word (pieces : Pieces) : Word := pieces.flatMap Prod.snd

/-- Every word cut at length `k`. -/
def cut (k : Nat) (pieces : Pieces) : Pieces := pieces.map fun piece => (piece.1, piece.2.take k)

@[simp] theorem nodes_nil : nodes [] = [] := rfl

@[simp] theorem word_nil : word [] = [] := rfl

@[simp] theorem nodes_cons (piece : NodeId × Word) (pieces : Pieces) :
    nodes (piece :: pieces) = piece.1 :: nodes pieces := rfl

@[simp] theorem word_cons (piece : NodeId × Word) (pieces : Pieces) :
    word (piece :: pieces) = piece.2 ++ word pieces := rfl

@[simp] theorem nodes_append (pieces others : Pieces) :
    nodes (pieces ++ others) = nodes pieces ++ nodes others := List.map_append

@[simp] theorem word_append (pieces others : Pieces) :
    word (pieces ++ others) = word pieces ++ word others := List.flatMap_append

@[simp] theorem nodes_cut (k : Nat) (pieces : Pieces) : (pieces.cut k).nodes = pieces.nodes := by
  simp [nodes, cut]

/-- The node of a piece is among the nodes. -/
theorem mem_nodes {pieces : Pieces} {piece : NodeId × Word} (h : piece ∈ pieces) :
    piece.1 ∈ pieces.nodes := List.mem_map_of_mem h

/-- The word of a piece is no longer than all together. -/
theorem length_le_word {pieces : Pieces} {piece : NodeId × Word} (h : piece ∈ pieces) :
    piece.2.length ≤ pieces.word.length := by
  induction pieces with
  | nil => cases h
  | cons first pieces ih =>
    rw [word_cons, List.length_append]
    rcases List.mem_cons.mp h with rfl | h
    · omega
    · have := ih h
      omega

/-- What is cut at length `k` depends on the words only up to length `k`. -/
theorem take_word_cut (k : Nat) (pieces : Pieces) : (pieces.cut k).word.take k = pieces.word.take k := by
  have (n : Nat) (hn : n ≤ k) : (pieces.cut k).word.take n = pieces.word.take n := by
    induction pieces generalizing n with
    | nil => rfl
    | cons first pieces ih =>
      simp only [cut, List.map_cons, word_cons] at ih ⊢
      rw [List.take_append, List.take_append, List.take_take, Nat.min_eq_left hn,
        ih _ (by omega), List.length_take]
      by_cases hl : first.2.length ≤ k
      · rw [Nat.min_eq_right hl]
      · rw [Nat.min_eq_left (by omega), Nat.sub_eq_zero_of_le hn,
          Nat.sub_eq_zero_of_le (by omega : n ≤ first.2.length)]
  exact this k (Nat.le_refl k)

/-- Words that reach length `k` together still do so after each is cut there. -/
theorem le_length_word_cut {k : Nat} {pieces : Pieces} (h : k ≤ pieces.word.length) :
    k ≤ (pieces.cut k).word.length := by
  have := congrArg List.length (take_word_cut k pieces)
  rw [List.length_take, List.length_take, Nat.min_eq_left h] at this
  omega

/-- Words that can be chosen node by node can be chosen for all nodes. -/
theorem exists_of_nodes {P : NodeId → Word → Prop} {ids : List NodeId}
    (h : ∀ id ∈ ids, ∃ word, P id word) :
    ∃ pieces : Pieces, pieces.nodes = ids ∧ ∀ piece ∈ pieces, P piece.1 piece.2 := by
  induction ids with
  | nil => exact ⟨[], rfl, by simp⟩
  | cons id ids ih =>
    rw [List.forall_mem_cons] at h
    obtain ⟨word, hw⟩ := h.1
    obtain ⟨pieces, rfl, hp⟩ := ih h.2
    exact ⟨(id, word) :: pieces, rfl, List.forall_mem_cons.mpr ⟨hw, hp⟩⟩

/-- Words whose beginnings are the given ones can be chosen for all nodes. -/
theorem exists_of_cut {P : NodeId → Word → Prop} {k : Nat} {pieces : Pieces}
    (h : ∀ piece ∈ pieces, ∃ word, P piece.1 word ∧ word.take k = piece.2) :
    ∃ whole : Pieces, whole.nodes = pieces.nodes ∧ whole.cut k = pieces ∧
      ∀ piece ∈ whole, P piece.1 piece.2 := by
  induction pieces with
  | nil => exact ⟨[], rfl, rfl, by simp⟩
  | cons piece pieces ih =>
    rw [List.forall_mem_cons] at h
    obtain ⟨word, hw, hc⟩ := h.1
    obtain ⟨whole, hn, hcut, hp⟩ := ih h.2
    refine ⟨(piece.1, word) :: whole, ?_, ?_, List.forall_mem_cons.mpr ⟨hw, hp⟩⟩
    · rw [nodes_cons, nodes_cons, hn]
    · rw [cut, List.map_cons, hc]
      exact congrArg _ hcut

end Pieces

namespace Registry

/-- The node derives the word: a call derives what the root of the called
production does, a lookahead or an action derives only the empty word, and `may`
says how often the body of a repetition can run. -/
inductive Derives (registry : Registry) (may : Iteration) : NodeId → Word → Prop
  /-- A token derives itself. -/
  | terminal {id : NodeId} {kind : Token} (h : registry.expansion? id = some (.terminal kind)) :
    Derives registry may id [kind]
  /-- A call of a registered production derives what its root does. -/
  | nonTerminal {id : NodeId} {name : String} {args : List String} {production : Production}
    {word : Word} (h : registry.expansion? id = some (.nonTerminal name args))
    (defined : registry.production? name = some production)
    (body : Derives registry may production.root word) : Derives registry may id word
  /-- Units derive their words in a row. -/
  | sequence {id : NodeId} (pieces : Pieces)
    (h : registry.expansion? id = some (.sequence pieces.nodes))
    (units : ∀ piece ∈ pieces, Derives registry may piece.1 piece.2) :
    Derives registry may id pieces.word
  /-- A choice derives what one of its alternatives does. -/
  | choice {id alternative : NodeId} {alternatives : List NodeId} {word : Word}
    (h : registry.expansion? id = some (.choice alternatives)) (taken : alternative ∈ alternatives)
    (body : Derives registry may alternative word) : Derives registry may id word
  /-- A repetition derives one word of its body for each run. -/
  | repetition {id body : NodeId} {kind : RepetitionKind} {guard : Option NodeId}
    (words : List Word) (h : registry.expansion? id = some (.repetition kind body guard))
    (runs : may kind words.length) (bodies : ∀ word ∈ words, Derives registry may body word) :
    Derives registry may id words.flatten
  /-- A lookahead consumes nothing. -/
  | lookahead {id : NodeId} {directive : Directive NodeId}
    (h : registry.expansion? id = some (.lookahead directive)) : Derives registry may id []
  /-- An action consumes nothing. -/
  | action {id : NodeId} {code : String} (h : registry.expansion? id = some (.action code)) :
    Derives registry may id []
  /-- A guarded block derives what its body does. -/
  | tryBlock {id body : NodeId} {handlers : List Handler} {cleanup : Option String} {word : Word}
    (h : registry.expansion? id = some (.tryBlock body handlers cleanup))
    (inner : Derives registry may body word) : Derives registry may id word

/-- Every node of every production tree derives some word without repeating a
body. -/
def Productive (registry : Registry) : Prop :=
  ∀ id, registry.InProduction id → ∃ word, registry.Derives .once id word

/-- The node begins with the word when it is read from the left up to `k` tokens.
A sequence is read until its units end or the tokens suffice. -/
inductive Begins (registry : Registry) (k : Nat) : NodeId → Word → Prop
  /-- A token begins with itself. -/
  | terminal {id : NodeId} {kind : Token} (h : registry.expansion? id = some (.terminal kind)) :
    Begins registry k id [kind]
  /-- A call begins like the root of the called production. -/
  | nonTerminal {id : NodeId} {name : String} {args : List String} {production : Production}
    {word : Word} (h : registry.expansion? id = some (.nonTerminal name args))
    (defined : registry.production? name = some production)
    (body : Begins registry k production.root word) : Begins registry k id word
  /-- Units begin one after the other until `k` tokens are read. -/
  | sequence {id : NodeId} (pieces : Pieces) (rest : List NodeId)
    (h : registry.expansion? id = some (.sequence (pieces.nodes ++ rest)))
    (stop : rest = [] ∨ k ≤ pieces.word.length)
    (units : ∀ piece ∈ pieces, Begins registry k piece.1 piece.2) :
    Begins registry k id (pieces.word.take k)
  /-- A choice begins like one of its alternatives. -/
  | choice {id alternative : NodeId} {alternatives : List NodeId} {word : Word}
    (h : registry.expansion? id = some (.choice alternatives)) (taken : alternative ∈ alternatives)
    (body : Begins registry k alternative word) : Begins registry k id word
  /-- A repetition begins like its body. -/
  | entered {id body : NodeId} {kind : RepetitionKind} {guard : Option NodeId} {word : Word}
    (h : registry.expansion? id = some (.repetition kind body guard))
    (inner : Begins registry k body word) : Begins registry k id word
  /-- A repetition that may be left out begins with nothing. -/
  | skipped {id body : NodeId} {kind : RepetitionKind} {guard : Option NodeId}
    (h : registry.expansion? id = some (.repetition kind body guard)) (optional : kind ≠ .oneOrMore) :
    Begins registry k id []
  /-- A lookahead consumes nothing. -/
  | lookahead {id : NodeId} {directive : Directive NodeId}
    (h : registry.expansion? id = some (.lookahead directive)) : Begins registry k id []
  /-- An action consumes nothing. -/
  | action {id : NodeId} {code : String} (h : registry.expansion? id = some (.action code)) :
    Begins registry k id []
  /-- A guarded block begins like its body. -/
  | tryBlock {id body : NodeId} {handlers : List Handler} {cleanup : Option String} {word : Word}
    (h : registry.expansion? id = some (.tryBlock body handlers cleanup))
    (inner : Begins registry k body word) : Begins registry k id word

variable {registry : Registry} {id : NodeId} {word : Word} {k : Nat}

/-- A token derives nothing but itself. -/
theorem Derives.eq_of_terminal {may : Iteration} {kind : Token}
    (h : registry.Derives may id word) (he : registry.expansion? id = some (.terminal kind)) :
    word = [kind] := by
  cases h with
  | terminal h =>
    rw [he] at h
    cases h
    rfl
  | nonTerminal h => rw [he] at h; cases h
  | sequence _ h => rw [he] at h; cases h
  | choice h => rw [he] at h; cases h
  | repetition _ h => rw [he] at h; cases h
  | lookahead h => rw [he] at h; cases h
  | action h => rw [he] at h; cases h
  | tryBlock h => rw [he] at h; cases h

/-- A beginning has no more than `k` tokens. -/
theorem Begins.length_le (hk : 1 ≤ k) (h : registry.Begins k id word) : word.length ≤ k := by
  induction h with
  | terminal h => simpa using hk
  | sequence pieces rest h stop units ih => exact List.length_take_le _ _
  | nonTerminal _ _ _ ih => exact ih
  | choice _ _ _ ih => exact ih
  | entered _ _ ih => exact ih
  | tryBlock _ _ ih => exact ih
  | skipped _ _ => exact Nat.zero_le k
  | lookahead _ => exact Nat.zero_le k
  | action _ => exact Nat.zero_le k

/-- What a node derives, cut at length `k`, is one of its beginnings. -/
theorem Derives.begins (hk : 1 ≤ k) (h : registry.Derives .once id word) :
    registry.Begins k id (word.take k) := by
  induction h with
  | @terminal id kind h =>
    rw [List.take_of_length_le (by simpa using hk)]
    exact .terminal h
  | nonTerminal h defined _ ih => exact .nonTerminal h defined ih
  | sequence pieces h units ih =>
    rw [← Pieces.take_word_cut]
    refine .sequence (pieces.cut k) [] (by simpa using h) (.inl rfl) fun piece hm => ?_
    obtain ⟨whole, hw, rfl⟩ := List.mem_map.mp hm
    exact ih whole hw
  | choice h taken _ ih => exact .choice h taken ih
  | @repetition id body kind guard words h runs bodies ih =>
    match words, runs with
    | [], runs =>
      rw [List.flatten_nil, List.take_nil]
      refine .skipped h ?_
      rintro rfl
      cases runs
    | [one], _ =>
      rw [List.flatten_singleton]
      exact .entered h (ih one List.mem_cons_self)
    | _ :: _ :: _, runs => cases kind <;> simp [Iteration.once] at runs
  | lookahead h =>
    rw [List.take_nil]
    exact .lookahead h
  | action h =>
    rw [List.take_nil]
    exact .action h
  | tryBlock h _ ih => exact .tryBlock h ih

/-- A beginning shorter than `k` is derived. Where every node derives something,
a beginning of `k` tokens begins a derived word. -/
theorem Begins.exists_derives (hk : 1 ≤ k) (h : registry.Begins k id word)
    (hi : registry.InProduction id) (full : word.length < k ∨ registry.Productive) :
    ∃ whole, registry.Derives .once id whole ∧ whole.take k = word := by
  induction h with
  | @terminal id kind h =>
    exact ⟨[kind], .terminal h, List.take_of_length_le (by simpa using hk)⟩
  | @nonTerminal id name args production word h defined _ ih =>
    have hp : production ∈ registry.productions := List.mem_of_find?_eq_some defined
    obtain ⟨whole, hd, hw⟩ := ih (.root hp) full
    exact ⟨whole, .nonTerminal h defined hd, hw⟩
  | @sequence id pieces rest h stop units ih =>
    have inside : ∀ child ∈ pieces.nodes ++ rest, registry.InProduction child :=
      fun child hc => hi.of_child h hc
    -- where the reading was stopped early, the units behind it derive something
    have hrest : rest = [] ∨ registry.Productive := by
      refine full.imp_left fun short => stop.resolve_right fun long => ?_
      rw [List.length_take, Nat.min_eq_left long] at short
      omega
    obtain ⟨behind, hbn, hb⟩ : ∃ behind : Pieces, behind.nodes = rest ∧
        ∀ piece ∈ behind, registry.Derives .once piece.1 piece.2 := by
      refine Pieces.exists_of_nodes fun child hc => ?_
      rcases hrest with rfl | productive
      · cases hc
      · exact productive child (inside child (List.mem_append_right _ hc))
    obtain ⟨front, hfn, hfc, hf⟩ := Pieces.exists_of_cut
        (P := fun child word => registry.Derives .once child word) (k := k) fun piece hm => by
      refine ih piece hm (inside _ (List.mem_append_left _ (Pieces.mem_nodes hm)))
        (full.imp_left fun short => ?_)
      rw [List.length_take] at short
      have := Pieces.length_le_word hm
      omega
    refine ⟨(front ++ behind).word, .sequence _ ?_ fun piece hm =>
      (List.mem_append.mp hm).elim (hf piece) (hb piece), ?_⟩
    · rw [h, Pieces.nodes_append, hfn, hbn]
    · have hw := Pieces.take_word_cut k front
      rw [hfc] at hw
      rw [Pieces.word_append, hw]
      rcases stop with rfl | long
      · obtain rfl : behind = [] := List.map_eq_nil_iff.mp hbn
        rw [Pieces.word_nil, List.append_nil]
      · refine List.take_append_of_le_length ?_
        have := congrArg List.length hw
        rw [List.length_take, List.length_take, Nat.min_eq_left long] at this
        omega
  | choice h taken _ ih =>
    obtain ⟨whole, hd, hw⟩ := ih (hi.of_child h taken) full
    exact ⟨whole, .choice h taken hd, hw⟩
  | @entered id body kind guard word h _ ih =>
    obtain ⟨whole, hd, hw⟩ := ih (hi.of_child h (by simp [Expansion.children])) full
    refine ⟨whole, ?_, hw⟩
    have : registry.Derives .once id [whole].flatten :=
      .repetition [whole] h (by cases kind <;> simp [Iteration.once]) (by simpa using hd)
    rwa [List.flatten_singleton] at this
  | @skipped id body kind guard h optional =>
    have : registry.Derives .once id [].flatten :=
      .repetition [] h (by cases kind <;> simp_all [Iteration.once]) (by simp)
    exact ⟨[], this, List.take_nil⟩
  | lookahead h => exact ⟨[], .lookahead h, List.take_nil⟩
  | action h => exact ⟨[], .action h, List.take_nil⟩
  | tryBlock h _ ih =>
    obtain ⟨whole, hd, hw⟩ := ih (hi.of_child h (by simp [Expansion.children])) full
    exact ⟨whole, .tryBlock h hd, hw⟩

/-- A beginning read to a greater depth, cut, is a beginning. -/
theorem Begins.take {j : Nat} (hj : 1 ≤ j) (hjk : j ≤ k) (h : registry.Begins k id word) :
    registry.Begins j id (word.take j) := by
  induction h with
  | @terminal id kind h =>
    rw [List.take_of_length_le (by simpa using hj)]
    exact .terminal h
  | nonTerminal h defined _ ih => exact .nonTerminal h defined ih
  | sequence pieces rest h stop units ih =>
    rw [List.take_take, Nat.min_eq_left hjk, ← Pieces.take_word_cut]
    refine .sequence (pieces.cut j) rest (by simpa using h)
      (stop.imp_right fun long => Pieces.le_length_word_cut (Nat.le_trans hjk long)) fun piece hm => ?_
    obtain ⟨whole, hw, rfl⟩ := List.mem_map.mp hm
    exact ih whole hw
  | choice h taken _ ih => exact .choice h taken ih
  | entered h _ ih => exact .entered h ih
  | skipped h optional =>
    rw [List.take_nil]
    exact .skipped h optional
  | lookahead h =>
    rw [List.take_nil]
    exact .lookahead h
  | action h =>
    rw [List.take_nil]
    exact .action h
  | tryBlock h _ ih => exact .tryBlock h ih

/-- Between two depths, a beginning shorter than the smaller is one for both. -/
theorem Begins.deeper {j : Nat} (hj : 1 ≤ j) (hjk : j ≤ k) (hi : registry.InProduction id)
    (h : registry.Begins j id word) (short : word.length < j) : registry.Begins k id word := by
  obtain ⟨whole, hd, rfl⟩ := h.exists_derives hj hi (.inl short)
  rw [List.length_take] at short
  have := hd.begins (Nat.le_trans hj hjk)
  rw [List.take_of_length_le (by omega)] at this
  rwa [List.take_of_length_le (by omega)]

end Registry

end BoundedLookahead
