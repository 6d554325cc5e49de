import BoundedLookahead.Options

/-!
# Reading options from a configuration

A configuration is a table of settings by key, in which every setting may be
missing and unknown keys are ignored, or a list of at most four settings in the
order depth, predicates, start, limit. A setting of the wrong type makes the
whole configuration unreadable; only the start production may be null.
-/

namespace BoundedLookahead

/-- A value in a configuration file. -/
inductive ConfigValue where
  /-- The absent value. -/
  | null
  /-- A truth value. -/
  | bool (value : Bool)
  /-- A number written as a plain whole number without a sign. -/
  | count (value : Nat)
  /-- Any other number. -/
  | number
  /-- A text. -/
  | text (value : String)
  /-- A list of values. -/
  | list (items : List ConfigValue)
  /-- A table of values by key. -/
  | table (entries : List (String × ConfigValue))
deriving Inhabited

namespace ConfigValue

/-- A count that fits a machine word. -/
def toCount? : ConfigValue → Option Nat
  | .count value => if value < 18446744073709551616 then some value else none
  | _ => none

/-- A truth value. -/
def toBool? : ConfigValue → Option Bool
  | .bool value => some value
  | _ => none

/-- A text, or null for none. -/
def toOptionalText? : ConfigValue → Option (Option String)
  | .null => some none
  | .text value => some (some value)
  | _ => none

end ConfigValue

namespace Options

/-- The value read by `read?` where there is one, or the default. -/
def setting? {α : Type} (read? : ConfigValue → Option α) (default : α) :
    Option ConfigValue → Option α
  | none => some default
  | some value => read? value

/-- The options with the given settings, each of which may be missing. -/
def ofSettings? (lookahead predicates start limit : Option ConfigValue) : Option Options := do
  let defaults : Options := {}
  let lookahead ← setting? ConfigValue.toCount? defaults.lookahead lookahead
  let allowPredicates ← setting? ConfigValue.toBool? defaults.allowPredicates predicates
  let start ← setting? ConfigValue.toOptionalText? defaults.start start
  let expansionLimit ← setting? ConfigValue.toCount? defaults.expansionLimit limit
  return { lookahead, allowPredicates, start, expansionLimit }

/-- The options a configuration describes, if it is readable. -/
def ofConfig? : ConfigValue → Option Options
  | .table entries =>
    ofSettings? (entries.lookup "lookahead") (entries.lookup "allow-semantic-lookahead")
      (entries.lookup "start-production") (entries.lookup "expansion-limit")
  | .list items =>
    if items.length ≤ 4 then ofSettings? items[0]? items[1]? items[2]? items[3]? else none
  | _ => none

end Options

end BoundedLookahead
