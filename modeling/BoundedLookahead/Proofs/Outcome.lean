import BoundedLookahead.Journal
import Mathlib.Data.List.Forall2

/-!
# Outcomes of computations

A computation that may fail succeeds when each of its steps does, and fails with
the cause of its first step that fails. A run in addition has notes and a state;
its result and its state are found step by step.
-/

namespace BoundedLookahead

section

variable {α β : Type} {x : Except AnalysisError α} {f : α → Except AnalysisError β}

/-- Two steps succeed when both do. -/
theorem bind_eq_ok {b : β} : (x >>= f) = .ok b ↔ ∃ a, x = .ok a ∧ f a = .ok b := by
  cases x with
  | error cause =>
    constructor
    · intro h
      cases h
    · rintro ⟨a, h, _⟩
      cases h
  | ok a =>
    constructor
    · exact fun h => ⟨a, rfl, h⟩
    · rintro ⟨b, h, hf⟩
      cases h
      exact hf

/-- Two steps fail when the first does, or the second after it. -/
theorem bind_eq_error {cause : AnalysisError} :
    (x >>= f) = .error cause ↔ x = .error cause ∨ ∃ a, x = .ok a ∧ f a = .error cause := by
  cases x with
  | error other =>
    constructor
    · intro h
      cases h
      exact .inl rfl
    · rintro (h | ⟨a, h, _⟩) <;> cases h
      rfl
  | ok a =>
    constructor
    · exact fun h => .inr ⟨a, rfl, h⟩
    · rintro (h | ⟨b, h, hf⟩) <;> cases h
      exact hf

/-- A step that succeeds hands on its value. -/
theorem ok_bind (a : α) (f : α → Except AnalysisError β) : (Except.ok a >>= f) = f a := rfl

/-- What an outcome leaves when its cause of failure is forgotten. -/
theorem toOption_eq_some {a : α} : x.toOption = some a ↔ x = .ok a := by
  cases x <;> simp [Except.toOption]

/-- A computation of which a value is left succeeds. -/
theorem exists_eq_ok_of_isSome (h : x.toOption.isSome = true) : ∃ a, x = .ok a := by
  obtain ⟨a, ha⟩ := Option.isSome_iff_exists.mp h
  exact ⟨a, toOption_eq_some.mp ha⟩

/-- The first computation of a list succeeds, and so do the others. -/
theorem mapM_cons_eq_ok {g : α → Except AnalysisError β} {input : α} {inputs : List α}
    {outputs : List β} : (input :: inputs).mapM g = .ok outputs ↔ ∃ first rest,
      g input = .ok first ∧ inputs.mapM g = .ok rest ∧ outputs = first :: rest := by
  rw [List.mapM_cons, bind_eq_ok]
  constructor
  · rintro ⟨first, hf, h⟩
    obtain ⟨rest, hr, he⟩ := bind_eq_ok.mp h
    cases he
    exact ⟨first, rest, hf, hr, rfl⟩
  · rintro ⟨first, rest, hf, hr, rfl⟩
    exact ⟨first, hf, bind_eq_ok.mpr ⟨rest, hr, rfl⟩⟩

/-- A list of computations succeeds when each of them does. -/
theorem mapM_eq_ok {g : α → Except AnalysisError β} {inputs : List α} {outputs : List β} :
    inputs.mapM g = .ok outputs ↔ List.Forall₂ (fun input output => g input = .ok output) inputs outputs := by
  induction inputs generalizing outputs with
  | nil =>
    rw [List.mapM_nil, List.forall₂_nil_left_iff]
    exact ⟨fun h => by cases h; rfl, fun h => by rw [h]; rfl⟩
  | cons input inputs ih =>
    rw [mapM_cons_eq_ok]
    constructor
    · rintro ⟨first, rest, hf, hr, rfl⟩
      exact .cons hf (ih.mp hr)
    · rintro (_ | ⟨hf, hr⟩)
      exact ⟨_, _, hf, ih.mpr hr, rfl⟩

/-- Each computation of a list that succeeds has its value among those of the list. -/
theorem exists_mem_of_mapM_eq_ok {g : α → Except AnalysisError β} {inputs : List α}
    {outputs : List β} (h : inputs.mapM g = .ok outputs) {input : α} (hm : input ∈ inputs) :
    ∃ output ∈ outputs, g input = .ok output := by
  have hall := mapM_eq_ok.mp h
  clear h
  induction hall with
  | nil => cases hm
  | cons first rest ih =>
    rcases List.mem_cons.mp hm with rfl | hm
    · exact ⟨_, List.mem_cons_self, first⟩
    · obtain ⟨output, ho, hg⟩ := ih hm
      exact ⟨output, List.mem_cons_of_mem _ ho, hg⟩

/-- Each value of a list of computations is that of one of them. -/
theorem exists_input_of_mapM_eq_ok {g : α → Except AnalysisError β} {inputs : List α}
    {outputs : List β} (h : inputs.mapM g = .ok outputs) {output : β} (hm : output ∈ outputs) :
    ∃ input ∈ inputs, g input = .ok output := by
  have hall := mapM_eq_ok.mp h
  clear h
  induction hall with
  | nil => cases hm
  | cons first rest ih =>
    rcases List.mem_cons.mp hm with rfl | hm
    · exact ⟨_, List.mem_cons_self, first⟩
    · obtain ⟨input, hi, hg⟩ := ih hm
      exact ⟨input, List.mem_cons_of_mem _ hi, hg⟩

/-- What can be read off the values of a list of computations as off their inputs is the same. -/
theorem map_eq_of_mapM_eq_ok {γ : Type} {g : α → Except AnalysisError β} {inputs : List α}
    {outputs : List β} (h : inputs.mapM g = .ok outputs) {f : α → γ} {f' : β → γ}
    (same : ∀ input output, g input = .ok output → f' output = f input) :
    outputs.map f' = inputs.map f := by
  have hall := mapM_eq_ok.mp h
  clear h
  induction hall with
  | nil => rfl
  | cons first _ ih => rw [List.map_cons, List.map_cons, same _ _ first, ih]

/-- A list of computations fails when one of them does. -/
theorem mapM_eq_error {g : α → Except AnalysisError β} {inputs : List α} {cause : AnalysisError}
    (h : inputs.mapM g = .error cause) : ∃ input ∈ inputs, g input = .error cause := by
  induction inputs with
  | nil => cases h
  | cons input inputs ih =>
    rw [List.mapM_cons, bind_eq_error] at h
    rcases h with h | ⟨output, _, h⟩
    · exact ⟨input, List.mem_cons_self, h⟩
    · rcases bind_eq_error.mp h with h | ⟨rest, _, h⟩
      · obtain ⟨other, hm, ho⟩ := ih h
        exact ⟨other, List.mem_cons_of_mem _ hm, ho⟩
      · cases h

/-- Only what the inputs of the list give matters. -/
theorem mapM_congr {g g' : α → Except AnalysisError β} {inputs : List α}
    (h : ∀ input ∈ inputs, g input = g' input) : inputs.mapM g = inputs.mapM g' := by
  induction inputs with
  | nil => rfl
  | cons input inputs ih =>
    rw [List.forall_mem_cons] at h
    rw [List.mapM_cons, List.mapM_cons, h.1, ih h.2]

/-- With one more computation at the end the others succeed as before. -/
theorem mapM_concat_eq_ok {g : α → Except AnalysisError β} {inputs : List α} {input : α}
    {outputs : List β} : (inputs ++ [input]).mapM g = .ok outputs ↔ ∃ rest last,
      inputs.mapM g = .ok rest ∧ g input = .ok last ∧ outputs = rest ++ [last] := by
  rw [List.mapM_append, bind_eq_ok]
  constructor
  · rintro ⟨rest, hr, h⟩
    obtain ⟨lasts, hl, h⟩ := bind_eq_ok.mp h
    cases h
    obtain ⟨last, none, hg, hn, rfl⟩ := mapM_cons_eq_ok.mp hl
    cases hn
    exact ⟨rest, last, hr, hg, rfl⟩
  · rintro ⟨rest, last, hr, hg, rfl⟩
    exact ⟨rest, hr, bind_eq_ok.mpr ⟨[last], mapM_cons_eq_ok.mpr ⟨last, [], hg, rfl, rfl⟩, rfl⟩⟩

/-- Computations that succeed in one order succeed in every order, with the same values. -/
theorem mapM_perm {g : α → Except AnalysisError β} {inputs inputs' : List α} {outputs : List β}
    (same : inputs.Perm inputs') (h : inputs.mapM g = .ok outputs) :
    ∃ outputs', inputs'.mapM g = .ok outputs' ∧ outputs.Perm outputs' := by
  induction same generalizing outputs with
  | nil => exact ⟨outputs, h, .refl _⟩
  | cons input _ ih =>
    obtain ⟨first, rest, hf, hr, rfl⟩ := mapM_cons_eq_ok.mp h
    obtain ⟨rest', hr', hp⟩ := ih hr
    exact ⟨_, mapM_cons_eq_ok.mpr ⟨first, rest', hf, hr', rfl⟩, hp.cons first⟩
  | swap input other inputs =>
    obtain ⟨first, rest, hf, hr, rfl⟩ := mapM_cons_eq_ok.mp h
    obtain ⟨second, rest', hs, hr', rfl⟩ := mapM_cons_eq_ok.mp hr
    have behind : (other :: inputs).mapM g = .ok (first :: rest') :=
      mapM_cons_eq_ok.mpr ⟨first, rest', hf, hr', rfl⟩
    exact ⟨_, mapM_cons_eq_ok.mpr ⟨second, _, hs, behind, rfl⟩, .swap second first rest'⟩
  | trans _ _ ih ih' =>
    obtain ⟨middle, hm, hp⟩ := ih h
    obtain ⟨last, hl, hq⟩ := ih' hm
    exact ⟨last, hl, hp.trans hq⟩

end

namespace Run

variable {σ τ α β : Type}

/-- The result of two steps. -/
theorem bind_result (run : Run σ α) (next : α → Run σ β) (state : σ) :
    ((run >>= next) state).result =
      ((run state).result >>= fun value => (next value (run state).state).result) := by
  change (Run.bind run next state).result = _
  unfold Run.bind
  rcases run state with ⟨notes, reached, cause | value⟩ <;> rfl

/-- The state after two steps. -/
theorem bind_state (run : Run σ α) (next : α → Run σ β) (state : σ) :
    ((run >>= next) state).state =
      match (run state).result with
      | .error _ => (run state).state
      | .ok value => (next value (run state).state).state := by
  change (Run.bind run next state).state = _
  unfold Run.bind
  rcases run state with ⟨notes, reached, cause | value⟩ <;> rfl

@[simp] theorem pure_result (value : α) (state : σ) :
    ((pure value : Run σ α) state).result = .ok value := rfl

@[simp] theorem pure_state (value : α) (state : σ) :
    ((pure value : Run σ α) state).state = state := rfl

@[simp] theorem ofExcept_result (outcome : Except AnalysisError α) (state : σ) :
    ((ofExcept outcome : Run σ α) state).result = outcome := by
  cases outcome <;> rfl

@[simp] theorem ofExcept_state (outcome : Except AnalysisError α) (state : σ) :
    ((ofExcept outcome : Run σ α) state).state = state := by
  cases outcome <;> rfl

@[simp] theorem note_result (note : Note) (state : σ) :
    ((Run.note note : Run σ Unit) state).result = .ok () := rfl

@[simp] theorem noteAll_result (notes : List Note) (state : σ) :
    ((Run.noteAll notes : Run σ Unit) state).result = .ok () := rfl

@[simp] theorem fail_result (cause : AnalysisError) (state : σ) :
    ((Run.fail cause : Run σ α) state).result = .error cause := rfl

@[simp] theorem get_result (state : σ) : ((Run.get : Run σ σ) state).result = .ok state := rfl

@[simp] theorem within_result (inner : τ) (run : Run τ α) (state : σ) :
    ((Run.within inner run : Run σ α) state).result = (run inner).result := rfl

end Run

end BoundedLookahead
