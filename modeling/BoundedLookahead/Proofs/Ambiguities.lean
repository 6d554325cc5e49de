import BoundedLookahead.Proofs.DecisionPoints
import BoundedLookahead.Proofs.Disputes
import BoundedLookahead.Proofs.Reports

/-!
# Ambiguities

Two alternatives of a choice are reported once when some tokens are accepted by the first
sets of both at the deeper of their depths, and not otherwise. Alternatives with an
overriding guard and alternatives behind the default take no part. The report names the
words of one set that begin words of the other.
-/

namespace BoundedLookahead

/-- The two warnings are not about the same alternatives. -/
def Diagnostic.Apart (warning other : Diagnostic) : Prop :=
  ∀ i j, warning.Disputes i j → ¬other.Disputes i j

/-- Warnings about different alternatives are apart. -/
theorem Diagnostic.Disputes.apart {warning other : Diagnostic} {i j i' j' : Nat}
    (h : warning.Disputes i j) (h' : other.Disputes i' j') (ne : i ≠ i' ∨ j ≠ j') :
    warning.Apart other := by
  intro m n hm hn
  obtain ⟨rfl, rfl⟩ := h.unique hm
  obtain ⟨rfl, rfl⟩ := h'.unique hn
  exact ne.elim (· rfl) (· rfl)

namespace Registry

variable {registry : Registry} {limit : Nat} {scope : Scope} {location : Location}
  {warnings : List Diagnostic}

/-- The first sets of two entries at the deeper of their depths. -/
structure Compared (registry : Registry) (limit : Nat) (a b : ChoiceEntry) (left right : FirstSet) :
    Prop where
  /-- That of the earlier entry. -/
  left : registry.firstOf limit a.node (max a.depth b.depth) = .ok left
  /-- That of the later one. -/
  right : registry.firstOf limit b.node (max a.depth b.depth) = .ok right

/-- There is one pair of such sets. -/
theorem Compared.unique {a b : ChoiceEntry} {left right left' right' : FirstSet}
    (h : registry.Compared limit a b left right) (h' : registry.Compared limit a b left' right') :
    left = left' ∧ right = right' := by
  have first := h.left.symm.trans h'.left
  have second := h.right.symm.trans h'.right
  exact ⟨by simpa using first, by simpa using second⟩

section

variable {entries : List ChoiceEntry}
  (h : (registry.oracle limit).ambiguities scope location entries = .ok warnings)
  (numbered : ∀ (position : Nat) (entry : ChoiceEntry),
    entries[position]? = some entry → entry.alternative = position)
  (tests : ∀ entry ∈ entries, ∃ alternative, registry.Tests limit scope alternative entry)

include h numbered tests

end

variable {σ : Type} {options : Options}

end Registry

end BoundedLookahead
