import BoundedLookahead.Proofs.ChoicePoints
import Std.Data.String.ToNat

/-!
# Disputes

A warning of an ambiguity names two alternatives. The numbers can be read off its
message, so a warning disputes one pair of alternatives only.
-/

namespace BoundedLookahead

/-- The warning says of the two alternatives that both can start with the same words. -/
def Diagnostic.Disputes (warning : Diagnostic) (i j : Nat) : Prop :=
  warning.kind = .ambiguity ∧ ∃ common, warning.message = ambiguityMessage i j common

/-- Digits end where something else begins. -/
theorem append_cons_inj_of_digits {front front' rest rest' : List Char} {mark : Char}
    (hf : ∀ c ∈ front, c.isDigit = true) (hf' : ∀ c ∈ front', c.isDigit = true)
    (hm : mark.isDigit = false) (h : front ++ mark :: rest = front' ++ mark :: rest') :
    front = front' ∧ rest = rest' := by
  have ends {digits : List Char} (hd : ∀ c ∈ digits, c.isDigit = true) (rest : List Char) :
      (digits ++ mark :: rest).takeWhile Char.isDigit = digits := by
    rw [List.takeWhile_append_of_pos hd, List.takeWhile_cons_of_neg (by simp [hm]), List.append_nil]
  have digits := congrArg (List.takeWhile Char.isDigit) h
  rw [ends hf, ends hf'] at digits
  subst digits
  exact ⟨rfl, (List.cons.inj (List.append_cancel_left h)).2⟩

/-- The numeral of a number has digits only. -/
theorem isDigit_of_mem_repr {n : Nat} : ∀ c ∈ n.repr.toList, c.isDigit = true := by
  intro c hc
  rw [Nat.toList_repr] at hc
  exact Nat.isDigit_of_mem_toDigits (by decide) (by decide) hc

/-- The message tells which alternatives it is about. -/
theorem ambiguityMessage_inj {i j i' j' : Nat} {common common' : WordSet}
    (h : ambiguityMessage i j common = ambiguityMessage i' j' common') : i = i' ∧ j = j' := by
  unfold ambiguityMessage at h
  have chars := congrArg String.toList h
  have between : " and ".toList = ' ' :: "and ".toList := by decide
  have after : ": both can start with ".toList = ':' :: " both can start with ".toList := by decide
  simp only [String.toList_append, toString, List.append_assoc, between, after,
    List.cons_append] at chars
  have first := append_cons_inj_of_digits isDigit_of_mem_repr isDigit_of_mem_repr (by decide)
    (List.append_cancel_left chars)
  have second := append_cons_inj_of_digits isDigit_of_mem_repr isDigit_of_mem_repr (by decide)
    (List.append_cancel_left first.2)
  have hi := Nat.repr_injective (String.toList_injective first.1)
  have hj := Nat.repr_injective (String.toList_injective second.1)
  omega

/-- A warning disputes one pair of alternatives. -/
theorem Diagnostic.Disputes.unique {warning : Diagnostic} {i j i' j' : Nat}
    (h : warning.Disputes i j) (h' : warning.Disputes i' j') : i = i' ∧ j = j' := by
  obtain ⟨_, common, hm⟩ := h
  obtain ⟨_, common', hm'⟩ := h'
  exact ambiguityMessage_inj (hm.symm.trans hm')

end BoundedLookahead
