import BoundedLookahead.AnalysisError

/-!
# Analysis options

The settings of an analysis run. They are checked before anything else happens:
a depth of 0 would make every decision blind, and a limit of 0 would refuse every
first set.
-/

namespace BoundedLookahead

/-- The settings of an analysis run. -/
structure Options where
  /-- The decision depth where no directive gives another one. -/
  lookahead : Nat := 1
  /-- Whether semantic predicates may steer decisions. -/
  allowPredicates : Bool := true
  /-- The production everything must be reachable from; the first one by default. -/
  start : Option String := none
  /-- The largest number of words a first set may hold. -/
  expansionLimit : Nat := 10000
deriving DecidableEq

namespace Options

/-- The first fault of the settings; the depth is looked at first. -/
def fault? (options : Options) : Option OptionFault :=
  if options.lookahead = 0 then some .zeroLookahead
  else if options.expansionLimit = 0 then some .zeroExpansionLimit
  else none

/-- Settings are accepted when both numbers are positive. -/
theorem fault?_eq_none_iff {options : Options} :
    options.fault? = none ↔ 0 < options.lookahead ∧ 0 < options.expansionLimit := by
  unfold fault?
  split
  · simp_all
  · split
    · simp_all
    · simp_all
      omega

/-- Refuse settings with a fault. -/
def check (options : Options) : Except AnalysisError Unit :=
  match options.fault? with
  | some fault => .error (.invalidOption fault)
  | none => .ok ()

/-- Settings pass the check when both numbers are positive. -/
theorem check_eq_ok_iff {options : Options} :
    options.check = .ok () ↔ 0 < options.lookahead ∧ 0 < options.expansionLimit := by
  rw [← fault?_eq_none_iff, check]
  cases options.fault? <;> simp

end Options

end BoundedLookahead
