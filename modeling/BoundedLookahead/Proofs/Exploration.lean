import BoundedLookahead.Proofs.CallGraphs
import Mathlib.Data.List.Chain
import Mathlib.Data.List.Rotate
import Mathlib.Logic.Relation

/-!
# Depth-first search for cycles

The search for cycles is read as an exploration without fuel: for every name called
it closes a cycle, passes over a name it has entered before, or enters the name and
explores what that one calls. The names on the path are among the names entered, in
the order in which they were entered. So every cycle is a round trip, its names were
entered in their order, and the call that closes it is looked at once. A name is left
only when everything it calls has been left or closed a cycle.
-/

namespace BoundedLookahead

/-- A round trip along a relation comes to no member twice before it is back at the
first. -/
structure RoundTrip {α : Type} (step : α → α → Prop) (cycle : List α) : Prop where
  /-- No member comes twice. -/
  distinct : cycle.Nodup
  /-- Every member leads to the next. -/
  linked : cycle.IsChain step
  /-- There are members, and the last leads to the first. -/
  closed : ∃ first last, cycle.head? = some first ∧ cycle.getLast? = some last ∧ step last first

/-- The first member of a round trip leads to every member and every member to the last. -/
theorem RoundTrip.exists_ends {α : Type} {step : α → α → Prop} {cycle : List α}
    (h : RoundTrip step cycle) : ∃ first last, cycle.head? = some first ∧
      cycle.getLast? = some last ∧ step last first ∧ ∀ member ∈ cycle,
        Relation.ReflTransGen step first member ∧ Relation.ReflTransGen step member last := by
  obtain ⟨first, last, hf, hl, closed⟩ := h.closed
  refine ⟨first, last, hf, hl, closed, fun member hm => ?_⟩
  have way {head : α} {tail : List α} (linked : (head :: tail).IsChain step) {other : α}
      (he : (head :: tail).getLast? = some other) : Relation.ReflTransGen step head other :=
    List.relationReflTransGen_of_exists_isChain_cons tail linked
      (Option.some.inj ((List.getLast?_eq_some_getLast _).symm.trans he))
  obtain ⟨front, behind, rfl⟩ := List.mem_iff_append.mp hm
  obtain ⟨upto, from'⟩ := List.isChain_split.mp h.linked
  refine ⟨?_, way from' (by simpa using hl)⟩
  cases front with
  | nil =>
    obtain rfl : member = first := by simpa using hf
    exact .refl
  | cons head front =>
    obtain rfl : head = first := by simpa using hf
    rw [List.cons_append] at upto
    exact way upto (List.getLast?_concat (l := head :: front))

/-- A member of a round trip leads to itself. -/
theorem RoundTrip.transGen {α : Type} {step : α → α → Prop} {cycle : List α}
    (h : RoundTrip step cycle) {member : α} (hm : member ∈ cycle) :
    Relation.TransGen step member member := by
  obtain ⟨first, last, _, _, closed, between⟩ := h.exists_ends
  exact .trans_right (between member hm).2 (.head' closed (between member hm).1)

/-- A part of a list without repetition, in its order, is what its members filter from
the list. -/
theorem filter_mem_of_sublist {α : Type} [DecidableEq α] {part order : List α}
    (h : part.Sublist order) (distinct : order.Nodup) : order.filter (· ∈ part) = part := by
  induction h with
  | slnil => rfl
  | @cons part order a h ih =>
    rw [List.nodup_cons] at distinct
    have : a ∉ part := fun hm => distinct.1 (h.subset hm)
    rw [List.filter_cons_of_neg (by simpa using this)]
    exact ih distinct.2
  | @cons_cons part order a h ih =>
    rw [List.nodup_cons] at distinct
    rw [List.filter_cons_of_pos (by simp)]
    refine congrArg (a :: ·) ((List.filter_congr fun other ho => ?_).trans (ih distinct.2))
    have : other ≠ a := fun he => distinct.1 (he ▸ ho)
    simp [this]

/-- Parts of a list without repetition that have the same members, in its order, are
equal. -/
theorem eq_of_sublist_of_perm {α : Type} [DecidableEq α] {order left right : List α}
    (distinct : order.Nodup) (hl : left.Sublist order) (hr : right.Sublist order)
    (same : left.Perm right) : left = right := by
  rw [← filter_mem_of_sublist hl distinct, ← filter_mem_of_sublist hr distinct]
  exact List.filter_congr fun a _ => by simp [same.mem_iff]

namespace CycleSearch

open CallGraph

/-- Enter a name. -/
def enter (search : CycleSearch) (name : String) : CycleSearch :=
  { search with visited := name :: search.visited }

/-- Report a cycle. -/
def report (search : CycleSearch) (cycle : List String) : CycleSearch :=
  { search with cycles := search.cycles ++ [cycle] }

@[simp] theorem visited_enter (search : CycleSearch) (name : String) :
    (search.enter name).visited = name :: search.visited := rfl

@[simp] theorem cycles_enter (search : CycleSearch) (name : String) :
    (search.enter name).cycles = search.cycles := rfl

@[simp] theorem visited_report (search : CycleSearch) (cycle : List String) :
    (search.report cycle).visited = search.visited := rfl

@[simp] theorem cycles_report (search : CycleSearch) (cycle : List String) :
    (search.report cycle).cycles = search.cycles ++ [cycle] := rfl

/-- The exploration of the names called at the end of a path, from one state of the
search to another. The path starts with its last name. -/
inductive Explored (graph : List (String × List String)) :
    List String → List String → CycleSearch → CycleSearch → Prop
  /-- Nothing is left to explore. -/
  | done {path : List String} {search : CycleSearch} : Explored graph path [] search search
  /-- A call leads back into the path. -/
  | back {path front behind names : List String} {name : String} {search search' : CycleSearch}
    (on : path = front ++ name :: behind) (first : name ∉ front)
    (rest : Explored graph path names (search.report (name :: front.reverse)) search') :
    Explored graph path (name :: names) search search'
  /-- A name has been entered and left before. -/
  | seen {path names : List String} {name : String} {search search' : CycleSearch}
    (off : name ∉ path) (old : name ∈ search.visited)
    (rest : Explored graph path names search search') :
    Explored graph path (name :: names) search search'
  /-- A name is entered for the first time. -/
  | fresh {path names : List String} {name : String} {search left search' : CycleSearch}
    (off : name ∉ path) (new : name ∉ search.visited)
    (below : Explored graph (name :: path) (callees graph name) (search.enter name) left)
    (rest : Explored graph path names left search') :
    Explored graph path (name :: names) search search'

variable {graph : List (String × List String)}

/-- Exploring several names in turn, where the exploration of a name not on the path
is known. -/
theorem foldl_explored {fuel : Nat} {path names : List String} (search : CycleSearch)
    (deeper : ∀ name ∈ names, name ∉ path → ∀ search : CycleSearch,
      Explored graph (name :: path) (callees graph name) (search.enter name)
        (explore graph fuel path name search)) :
    Explored graph path names search (names.foldl (fun search name =>
      if path.contains name then
        { search with cycles := search.cycles ++ [name :: (path.takeWhile (· != name)).reverse] }
      else if search.visited.contains name then search
      else explore graph fuel path name search) search) := by
  induction names generalizing search with
  | nil => exact .done
  | cons name names ih =>
    rw [List.forall_mem_cons] at deeper
    rw [List.foldl_cons]
    by_cases on : name ∈ path
    · obtain ⟨front, behind, rfl, first⟩ := List.eq_append_cons_of_mem on
      have split : (front ++ name :: behind).takeWhile (· != name) = front := by
        rw [List.takeWhile_append_of_pos fun other hm => by
          simpa using fun he : other = name => first (he ▸ hm)]
        simp
      rw [if_pos (by simp), split]
      exact .back rfl first (ih (search.report (name :: front.reverse)) deeper.2)
    · rw [if_neg (by simpa using on)]
      by_cases old : name ∈ search.visited
      · rw [if_pos (by simpa using old)]
        exact .seen on old (ih search deeper.2)
      · rw [if_neg (by simpa using old)]
        exact .fresh on old (deeper.1 on search) (ih _ deeper.2)

/-- Exploring with enough fuel is an exploration: the path repeats no name, so it gets
no longer than the graph. -/
theorem explore_explored
    (closed : ∀ caller callee, Calls graph caller callee → callee ∈ graph.map Prod.fst)
    (fuel : Nat) {path : List String} {name : String} (search : CycleSearch)
    (distinct : (name :: path).Nodup) (listed : name :: path ⊆ graph.map Prod.fst)
    (enough : graph.length < path.length + fuel) :
    Explored graph (name :: path) (callees graph name) (search.enter name)
      (explore graph fuel path name search) := by
  have bound := distinct.length_le_of_subset listed
  rw [List.length_map, List.length_cons] at bound
  induction fuel generalizing path name search with
  | zero => omega
  | succ fuel ih =>
    refine foldl_explored (search.enter name) fun callee hc off search => ?_
    have distinct' : (callee :: name :: path).Nodup := List.nodup_cons.mpr ⟨off, distinct⟩
    have listed' : callee :: name :: path ⊆ graph.map Prod.fst :=
      List.cons_subset.mpr ⟨closed name callee hc, listed⟩
    have bound' := distinct'.length_le_of_subset listed'
    rw [List.length_map, List.length_cons] at bound'
    exact ih search distinct' listed' (by simp only [List.length_cons]; omega) bound'

/-- The whole search is an exploration of all names from the empty path. -/
theorem run_explored
    (closed : ∀ caller callee, Calls graph caller callee → callee ∈ graph.map Prod.fst) :
    Explored graph [] (graph.map Prod.fst) {} (run graph) := by
  have explored := @foldl_explored graph (graph.length + 1) [] (graph.map Prod.fst) {}
    fun name hm _ search => explore_explored closed _ search (by simp) (by simpa using hm) (by simp)
  rw [List.foldl_map] at explored
  exact explored

variable {path names : List String} {search search' : CycleSearch}

/-- Names that were entered stay entered, behind those entered later. -/
theorem Explored.visited_suffix (run : Explored graph path names search search') :
    search.visited <:+ search'.visited := by
  induction run with
  | done => exact List.suffix_refl _
  | back _ _ _ ih => exact ih
  | seen _ _ _ ih => exact ih
  | fresh _ _ _ _ ihb ihr => exact ((List.suffix_cons _ _).trans ihb).trans ihr

/-- Cycles that were reported stay reported, before those reported later. -/
theorem Explored.cycles_prefix (run : Explored graph path names search search') :
    search.cycles <+: search'.cycles := by
  induction run with
  | done => exact List.prefix_refl _
  | back _ _ _ ih => exact (List.prefix_append _ _).trans ih
  | seen _ _ _ ih => exact ih
  | fresh _ _ _ _ ihb ihr => exact ihb.trans ihr

/-- Every name that is explored has been entered at the end. -/
theorem Explored.mem_visited (run : Explored graph path names search search')
    (entered : path ⊆ search.visited) : ∀ name ∈ names, name ∈ search'.visited := by
  induction run with
  | done => simp
  | back on _ rest ih =>
    refine List.forall_mem_cons.mpr ⟨?_, ih entered⟩
    exact rest.visited_suffix.subset (entered (by simp [on]))
  | seen _ old rest ih =>
    exact List.forall_mem_cons.mpr ⟨rest.visited_suffix.subset old, ih entered⟩
  | fresh _ _ below rest _ ihr =>
    have grown := below.visited_suffix.subset
    refine List.forall_mem_cons.mpr ⟨rest.visited_suffix.subset (grown List.mem_cons_self), ?_⟩
    exact ihr fun name hm => grown (List.mem_cons_of_mem _ (entered hm))

/-- The cycle that a call back into a path closes ends with the last name of the path. -/
theorem getLast?_back (front behind : List String) (name : String) :
    (name :: front.reverse).getLast? = (front ++ name :: behind).head? := by
  rw [List.getLast?_eq_head?_reverse, List.reverse_cons, List.reverse_reverse]
  cases front <;> rfl

/-- What holds of a search on its path. -/
structure Tracks (graph : List (String × List String)) (path : List String)
    (search : CycleSearch) : Prop where
  /-- The names on the path were entered in their order. -/
  entered : path.Sublist search.visited
  /-- No name was entered twice. -/
  distinct : search.visited.Nodup
  /-- Every name on the path calls the next one. -/
  linked : path.IsChain fun callee caller => Calls graph caller callee
  /-- The reported cycles are round trips. -/
  roundTrips : ∀ cycle ∈ search.cycles, RoundTrip (Calls graph) cycle
  /-- The names of a reported cycle were entered in their order. -/
  ordered : ∀ cycle ∈ search.cycles, cycle.reverse.Sublist search.visited

/-- A call back into the path closes a round trip. -/
theorem Tracks.report {front behind : List String} {name : String}
    (h : Tracks graph (front ++ name :: behind) search)
    (called : ∀ caller ∈ (front ++ name :: behind).head?, Calls graph caller name) :
    Tracks graph (front ++ name :: behind) (search.report (name :: front.reverse)) := by
  have turned : (name :: front.reverse).reverse = front ++ [name] := by simp
  have part : front ++ [name] <+: front ++ name :: behind := ⟨behind, by simp⟩
  refine ⟨h.entered, h.distinct, h.linked, ?_, ?_⟩
  · rw [cycles_report, List.forall_mem_append, List.forall_mem_singleton]
    refine ⟨h.roundTrips, ?_, ?_, ?_⟩
    · rw [← List.nodup_reverse, turned]
      exact h.distinct.sublist (part.sublist.trans h.entered)
    · rw [← List.isChain_reverse, turned]
      exact h.linked.prefix part
    · have hl := List.getLast?_eq_some_getLast (List.cons_ne_nil name front.reverse)
      refine ⟨name, _, rfl, hl, called _ ?_⟩
      rw [Option.mem_def, ← getLast?_back, hl]
  · rw [cycles_report, List.forall_mem_append, List.forall_mem_singleton, turned]
    exact ⟨h.ordered, part.sublist.trans h.entered⟩

/-- Entering a name that the path calls makes the path longer. -/
theorem Tracks.enter {name : String} (h : Tracks graph path search) (new : name ∉ search.visited)
    (called : ∀ caller ∈ path.head?, Calls graph caller name) :
    Tracks graph (name :: path) (search.enter name) where
  entered := h.entered.cons_cons name
  distinct := List.nodup_cons.mpr ⟨new, h.distinct⟩
  linked := List.isChain_cons.mpr ⟨called, h.linked⟩
  roundTrips := h.roundTrips
  ordered cycle hm := (h.ordered cycle hm).cons name

/-- Leaving the last name of the path makes it shorter. -/
theorem Tracks.leave {name : String} (h : Tracks graph (name :: path) search) :
    Tracks graph path search where
  entered := (List.sublist_cons_self name path).trans h.entered
  distinct := h.distinct
  linked := h.linked.tail
  roundTrips := h.roundTrips
  ordered := h.ordered

/-- An exploration of names that the path calls keeps that. -/
theorem Explored.tracks (run : Explored graph path names search search')
    (h : Tracks graph path search)
    (called : ∀ name ∈ names, ∀ caller ∈ path.head?, Calls graph caller name) :
    Tracks graph path search' := by
  induction run with
  | done => exact h
  | back on first rest ih =>
    rw [List.forall_mem_cons] at called
    subst on
    exact ih (h.report called.1) called.2
  | seen off old rest ih => exact ih h (List.forall_mem_cons.mp called).2
  | fresh off new below rest ihb ihr =>
    rw [List.forall_mem_cons] at called
    refine ihr (ihb (h.enter new called.1) fun callee hc caller hr => ?_).leave called.2
    obtain rfl := Option.some.inj hr
    exact hc

/-- A cycle that an exploration reports ends where the path does or in a name entered
since. -/
theorem Explored.getLast?_of_mem_cycles (run : Explored graph path names search search') :
    ∀ cycle ∈ search'.cycles, cycle ∈ search.cycles ∨ cycle.getLast? = path.head? ∨
      ∃ name ∉ search.visited, cycle.getLast? = some name := by
  induction run with
  | done => exact fun cycle hm => .inl hm
  | @back path front behind names name search search' on first rest ih =>
    intro cycle hm
    rcases ih cycle hm with hm | hm
    · rw [cycles_report, List.mem_append, List.mem_singleton] at hm
      refine hm.imp_right fun he => .inl ?_
      rw [he, on]
      exact getLast?_back front behind name
    · exact .inr hm
  | seen off old rest ih => exact ih
  | @fresh path names name search left search' off new below rest ihb ihr =>
    intro cycle hm
    rcases ihr cycle hm with hm | hl | ⟨last, hl, hc⟩
    · rcases ihb cycle hm with hm | hl | ⟨last, hl, hc⟩
      · exact .inl hm
      · exact .inr (.inr ⟨name, new, hl⟩)
      · exact .inr (.inr ⟨last, fun hv => hl (List.mem_cons_of_mem _ hv), hc⟩)
    · exact .inr (.inl hl)
    · refine .inr (.inr ⟨last, fun hv => hl ?_, hc⟩)
      exact below.visited_suffix.subset (List.mem_cons_of_mem _ hv)

/-- No cycle is reported twice: its last call is looked at once. -/
theorem Explored.nodup_cycles (run : Explored graph path names search search')
    (once : ∀ name, (callees graph name).Nodup) (tracked : Tracks graph path search)
    (distinct : names.Nodup)
    (called : ∀ name ∈ names, ∀ caller ∈ path.head?, Calls graph caller name)
    (ahead : ∀ cycle ∈ search.cycles, cycle.getLast? = path.head? →
      ∀ name ∈ names, cycle.head? ≠ some name)
    (h : search.cycles.Nodup) : search'.cycles.Nodup := by
  induction run with
  | done => exact h
  | @back path front behind names name search search' on first rest ih =>
    rw [List.nodup_cons] at distinct
    rw [List.forall_mem_cons] at called
    have last : (name :: front.reverse).getLast? = path.head? :=
      on ▸ getLast?_back front behind name
    refine ih (on ▸ (on ▸ tracked).report (on ▸ called.1)) distinct.2 called.2 ?_ ?_
    · rw [cycles_report, List.forall_mem_append, List.forall_mem_singleton]
      refine ⟨fun cycle hm hl other ho => ahead cycle hm hl other (List.mem_cons_of_mem _ ho), ?_⟩
      rintro - other ho he
      exact distinct.1 (Option.some.inj he ▸ ho)
    · rw [cycles_report, List.nodup_append]
      refine ⟨h, by simp, fun cycle hm other ho he => ?_⟩
      rw [List.mem_singleton] at ho
      rw [he, ho] at hm
      exact ahead _ hm last name List.mem_cons_self rfl
  | seen off old rest ih =>
    refine ih tracked (List.nodup_cons.mp distinct).2 (List.forall_mem_cons.mp called).2 ?_ h
    exact fun cycle hm hl other ho => ahead cycle hm hl other (List.mem_cons_of_mem _ ho)
  | @fresh path names name search left search' off new below rest ihb ihr =>
    rw [List.nodup_cons] at distinct
    rw [List.forall_mem_cons] at called
    have entered := tracked.enter new called.1
    have below_called : ∀ callee ∈ callees graph name,
        ∀ caller ∈ (name :: path).head?, Calls graph caller callee := by
      intro callee hc caller hr
      obtain rfl := Option.some.inj hr
      exact hc
    refine ihr (below.tracks entered below_called).leave distinct.2 called.2 ?_ (ihb entered (once name)
      below_called ?_ h)
    · intro cycle hm hl other ho
      rcases below.getLast?_of_mem_cycles cycle hm with hm | hn | ⟨last, hv, hn⟩
      · exact ahead cycle hm hl other (List.mem_cons_of_mem _ ho)
      · exact absurd (List.mem_of_head? (hl ▸ hn)) off
      · exact absurd (List.mem_cons_of_mem _ (tracked.entered.subset (List.mem_of_head? (hl ▸ hn)))) hv
    · intro cycle hm hl
      have : name ∈ cycle.reverse := List.mem_reverse.mpr (List.mem_of_getLast? hl)
      exact absurd ((tracked.ordered cycle hm).subset this) new

/-- The call leads from the last name of one of the cycles to its first. -/
def Closes (cycles : List (List String)) (caller callee : String) : Prop :=
  ∃ cycle ∈ cycles, cycle.getLast? = some caller ∧ cycle.head? = some callee

/-- The steps that close none of the cycles. -/
def Unclosed (cycles : List (List String)) (step : String → String → Prop)
    (caller callee : String) : Prop :=
  step caller callee ∧ ¬Closes cycles caller callee

/-- A way either takes no step that closes a cycle or comes to one. -/
theorem transGen_unclosed_or {cycles : List (List String)} {step : String → String → Prop}
    {start goal : String} (way : Relation.TransGen step start goal) :
    Relation.TransGen (Unclosed cycles step) start goal ∨ ∃ caller callee,
      Closes cycles caller callee ∧ Relation.ReflTransGen step start caller ∧
        Relation.ReflTransGen step callee goal := by
  induction way with
  | @single goal first =>
    by_cases closes : Closes cycles start goal
    · exact .inr ⟨start, goal, closes, .refl, .refl⟩
    · exact .inl (.single ⟨first, closes⟩)
  | @tail caller callee way last ih =>
    by_cases closes : Closes cycles caller callee
    · exact .inr ⟨caller, callee, closes, way.to_reflTransGen, .refl⟩
    · rcases ih with ih | ⟨first, second, hc, before, after⟩
      · exact .inl (ih.tail ⟨last, closes⟩)
      · exact .inr ⟨first, second, hc, before, after.tail last⟩

/-- Every name that was left only leads on for finitely many calls that close none of the
reported cycles, and each call back into the path closes one of them. -/
theorem Explored.acc_of_visited (run : Explored graph path names search search')
    {cycles : List (List String)} (reported : search'.cycles ⊆ cycles)
    (entered : path ⊆ search.visited)
    (left : ∀ name ∈ search.visited, name ∉ path →
      Acc (fun callee caller => Unclosed cycles (Calls graph) caller callee) name) :
    (∀ name ∈ search'.visited, name ∉ path →
      Acc (fun callee caller => Unclosed cycles (Calls graph) caller callee) name) ∧
    ∀ name ∈ names, name ∈ path → ∀ caller ∈ path.head?, Closes cycles caller name := by
  induction run with
  | done => exact ⟨left, by simp⟩
  | @back path front behind names name search search' on first rest ih =>
    obtain ⟨all, closing⟩ := ih reported entered left
    refine ⟨all, List.forall_mem_cons.mpr ⟨fun _ caller hc => ?_, closing⟩⟩
    have made : name :: front.reverse ∈ search'.cycles :=
      rest.cycles_prefix.subset (List.mem_append_right _ (List.mem_singleton_self _))
    refine ⟨_, reported made, ?_, rfl⟩
    rw [getLast?_back front behind name, ← on]
    exact hc
  | seen off old rest ih =>
    obtain ⟨all, closing⟩ := ih reported entered left
    exact ⟨all, List.forall_mem_cons.mpr ⟨fun on => absurd on off, closing⟩⟩
  | @fresh path names name search between search' off new below rest ihb ihr =>
    have entered' : name :: path ⊆ (search.enter name).visited := List.cons_subset_cons name entered
    have reported' : between.cycles ⊆ cycles := fun _ hm => reported (rest.cycles_prefix.subset hm)
    obtain ⟨allb, closingb⟩ := ihb reported' entered' fun other hv ho =>
      left other ((List.mem_cons.mp hv).resolve_left fun he => ho (he ▸ List.mem_cons_self))
        fun hp => ho (List.mem_cons_of_mem _ hp)
    -- a call from here goes back into the path, and closes a cycle, or to a name that was left
    have settled : Acc (fun callee caller => Unclosed cycles (Calls graph) caller callee) name :=
      .intro name fun callee step => allb callee (below.mem_visited entered' callee step.1)
        fun on => step.2 (closingb callee step.1 on name rfl)
    obtain ⟨all, closing⟩ := ihr reported
      (fun other ho => below.visited_suffix.subset (List.mem_cons_of_mem _ (entered ho)))
      fun other hv ho => by
        by_cases he : other = name
        · rwa [he]
        · exact allb other hv (List.not_mem_cons_of_ne_of_not_mem he ho)
    exact ⟨all, List.forall_mem_cons.mpr ⟨fun on => absurd on off, closing⟩⟩

/-- What leads on for finitely many steps does not lead to itself. -/
theorem not_transGen_of_acc {α : Type} {step : α → α → Prop} {start : α}
    (h : Acc (fun next before => step before next) start) : ¬Relation.TransGen step start start := by
  induction h with
  | intro start _ ih =>
    intro loop
    obtain ⟨next, first, way⟩ := Relation.TransGen.head'_iff.mp loop
    exact ih next first (.tail' way first)

section

variable (closed : ∀ caller callee, Calls graph caller callee → callee ∈ graph.map Prod.fst)
  (once : ∀ name, (callees graph name).Nodup)

include closed

/-- The whole search tracks its empty path. -/
theorem tracks_run : Tracks graph [] (run graph) := by
  refine (run_explored closed).tracks ⟨?_, ?_, ?_, ?_, ?_⟩ ?_ <;> simp

/-- The reported cycles are round trips. -/
theorem roundTrip_of_mem_cycles : ∀ cycle ∈ (run graph).cycles, RoundTrip (Calls graph) cycle :=
  (tracks_run closed).roundTrips

/-- Without the calls that close the reported cycles, no name calls itself in one or more
calls. -/
theorem not_transGen_unclosed (name : String) :
    ¬Relation.TransGen (Unclosed (run graph).cycles (Calls graph)) name name := by
  intro loop
  have explored := run_explored closed
  obtain ⟨all, _⟩ := explored.acc_of_visited (List.Subset.refl _) (by simp) (by simp)
  obtain ⟨caller, _, last⟩ := Relation.TransGen.tail'_iff.mp loop
  have entered := explored.mem_visited (by simp) name (closed caller name last.1)
  exact not_transGen_of_acc (all name entered (by simp)) loop

/-- A name that calls itself in one or more calls does so by way of the call that closes a
reported cycle. -/
theorem exists_closing_call {name : String} (loop : Relation.TransGen (Calls graph) name name) :
    ∃ caller callee, Closes (run graph).cycles caller callee ∧
      Relation.ReflTransGen (Calls graph) name caller ∧
      Relation.ReflTransGen (Calls graph) callee name :=
  (transGen_unclosed_or loop).resolve_left (not_transGen_unclosed closed name)

/-- The search reports a cycle exactly when some name calls itself in one or more
calls. -/
theorem cycles_run_eq_nil_iff : (run graph).cycles = [] ↔
    ∀ name, ¬ Relation.TransGen (Calls graph) name name := by
  constructor
  · intro quiet name loop
    obtain ⟨caller, callee, ⟨cycle, hm, _⟩, _⟩ := exists_closing_call closed loop
    rw [quiet] at hm
    cases hm
  · intro free
    refine List.eq_nil_iff_forall_not_mem.mpr fun cycle hm => ?_
    have trip := roundTrip_of_mem_cycles closed cycle hm
    obtain ⟨first, last, hf, _⟩ := trip.closed
    exact free first (trip.transGen (List.mem_of_head? hf))

include once

/-- No reported cycle is another one begun elsewhere. -/
theorem pairwise_cycles_run (distinct : (graph.map Prod.fst).Nodup) :
    (run graph).cycles.Pairwise fun cycle other => ¬ cycle.IsRotated other := by
  have explored := run_explored closed
  have tracked := tracks_run closed
  have nodup : (run graph).cycles.Nodup :=
    explored.nodup_cycles once ⟨by simp, by simp, by simp, by simp, by simp⟩ distinct (by simp)
      (by simp) (by simp)
  refine List.Pairwise.imp_of_mem (fun {cycle other} hm ho hne rotated => hne ?_) nodup
  have same := eq_of_sublist_of_perm tracked.distinct (tracked.ordered cycle hm)
    (tracked.ordered other ho) rotated.reverse.perm
  exact List.reverse_injective same

end

end CycleSearch

end BoundedLookahead
