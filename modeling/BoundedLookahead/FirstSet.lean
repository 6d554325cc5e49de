import BoundedLookahead.Expansion
import Std.Data.ExtTreeSet

/-!
# Bounded first sets

A first set holds the words of bounded length with which an expansion can begin,
and a marker that says whether the expansion can also match nothing. Words
shorter than the bound are complete sentences. The words are kept in
lexicographic order, so every rendering of a set is determined by its members.
-/

namespace BoundedLookahead

/-- Lexicographic order. Tokens are compared in order only where they differ. -/
def Word.order : Word → Word → Ordering
  | [], [] => .eq
  | [], _ :: _ => .lt
  | _ :: _, [] => .gt
  | a :: v, b :: w => if a = b then Word.order v w else compare a b

/-- The order of words is that of lists. -/
theorem Word.order_eq_compare : Word.order = compare := by
  funext v w
  change Word.order v w = List.compareLex compare v w
  induction v generalizing w with
  | nil => cases w <;> rfl
  | cons a v ih =>
    cases w with
    | nil => rfl
    | cons b w =>
      rw [Word.order, List.compareLex_cons_cons, ← ih]
      split
      · next h => simp [h, Std.ReflCmp.compare_self]
      · next h =>
        have : compare a b ≠ .eq := fun hab => h (Std.LawfulEqCmp.eq_of_compare hab)
        cases hab : compare a b <;> simp_all

instance : Std.TransCmp Word.order := Word.order_eq_compare ▸ inferInstance

instance : Std.LawfulEqCmp Word.order := Word.order_eq_compare ▸ inferInstance

/-- A finite set of words in lexicographic order, equal when the members are. -/
abbrev WordSet := Std.ExtTreeSet Word Word.order

/-- The set of the given words. -/
def WordSet.ofList (words : List Word) : WordSet := Std.ExtTreeSet.ofList words Word.order

/-- The words an expansion can begin with, and whether it can match nothing. -/
structure FirstSet where
  /-- The words; a complete empty match is the marker's business. -/
  words : WordSet
  /-- Whether the expansion can match the empty word. -/
  nullable : Bool
deriving DecidableEq

/-- A word in brackets, its tokens apart by spaces. -/
def Word.text (word : Word) : String := "[" ++ " ".intercalate word ++ "]"

/-- Several words, apart by commas. -/
def WordSet.text (words : WordSet) : String := ", ".intercalate (words.toList.map Word.text)

/-- Every prefix of a word, the empty one and the word itself included. -/
def Word.prefixes : Word → List Word
  | [] => [[]]
  | kind :: word => [] :: (Word.prefixes word).map (kind :: ·)

namespace FirstSet

/-- The set that matches nothing at all. -/
def empty : FirstSet := ⟨∅, false⟩

/-- The set of an expansion that matches the empty word only. -/
def epsilon : FirstSet := ⟨∅, true⟩

/-- The set of a single token. -/
def token (kind : Token) : FirstSet := ⟨WordSet.ofList [[kind]], false⟩

/-- The set with the nonempty ones among the given words. -/
def ofWords (words : List Word) (nullable : Bool) : FirstSet :=
  ⟨WordSet.ofList (words.filter fun word => !word.isEmpty), nullable⟩

/-- How many words the set stores. -/
def size (set : FirstSet) : Nat := set.words.size

/-- No word and no empty match. -/
def isEmpty (set : FirstSet) : Bool := set.words.isEmpty && !set.nullable

/-- Membership of a complete match: the empty word is in the set when the set is
marked nullable. -/
def contains (set : FirstSet) (word : Word) : Bool :=
  if word.isEmpty then set.nullable else set.words.contains word

/-- What either set can begin with. -/
def union (a b : FirstSet) : FirstSet := ⟨a.words ∪ b.words, a.nullable || b.nullable⟩

/-- The words of the set cut at length `k`; the words themselves when none is longer. -/
def cut (set : FirstSet) (k : Nat) : WordSet :=
  if set.words.toList.all fun word => decide (word.length ≤ k) then set.words
  else WordSet.ofList (set.words.toList.map (List.take k))

/-- What the words of length `n` in `a` become when `b` comes after them, cut at
length `k`. Words that have reached the bound are not continued; the others are
continued by every word of `b`, and stand alone when `b` can match nothing. -/
def continued (a b : FirstSet) (k n : Nat) : List Word :=
  let heads := a.words.toList.filter fun word => word.length == n
  if k ≤ n then heads.map (List.take k)
  else
    let tails := (b.cut (k - n)).toList
    heads.flatMap fun word =>
      tails.map (fun tail => word ++ tail) ++ if b.nullable then [word] else []

/-- The first set of one expansion after the other, cut at length `k`. Where `a`
can match nothing, the words of `b` begin. -/
def concat (a b : FirstSet) (k : Nat) : FirstSet :=
  let lengths := (a.words.toList.map List.length).eraseDups
  ⟨WordSet.ofList (lengths.flatMap (a.continued b k)) ∪ if a.nullable then b.cut k else ∅,
    a.nullable && b.nullable⟩

/-- Every word cut at length `k`. -/
def truncate (set : FirstSet) (k : Nat) : FirstSet := ofWords (set.cut k).toList set.nullable

/-- Some word of the set is a prefix of the upcoming tokens. The empty marker
does not count: matching nothing is a decision's fallback, not a match. -/
def accepts (set : FirstSet) (upcoming : List Token) : Bool :=
  set.words.toList.any fun word => word.isPrefixOf upcoming

/-- The prefixes of words of `b` that are words of `a`. -/
def prefixesIn (a b : FirstSet) : List Word :=
  b.words.toList.flatMap fun word => (Word.prefixes word).filter a.words.contains

/-- The words that do not tell the two sets apart: each is in one of them and a
prefix of a word of the other. -/
def conflicts (a b : FirstSet) : WordSet :=
  WordSet.ofList (a.prefixesIn b ++ b.prefixesIn a)

/-- Some upcoming tokens fit both sets. -/
def overlaps (a b : FirstSet) : Bool := !(a.conflicts b).isEmpty

/-- Nothing that follows can change the set: it cannot match the empty word, and
every word has reached length `k`. -/
def saturated (set : FirstSet) (k : Nat) : Bool :=
  !set.nullable && set.words.toList.all fun word => decide (k ≤ word.length)

/-- The set in braces, with a final `ε` for an empty match. -/
def text (set : FirstSet) : String :=
  let words := set.words.toList.map Word.text
  "\x7b" ++ ", ".intercalate (words ++ if set.nullable then ["ε"] else []) ++ "\x7d"

end FirstSet

end BoundedLookahead
