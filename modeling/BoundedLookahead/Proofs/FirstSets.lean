import BoundedLookahead.FirstSet
import Mathlib.Data.List.Perm.Subperm

/-!
# Members of first sets

A word is a member of a first set when the set contains it, the empty word by the
marker and any other as a stored word. Union, concatenation and cutting are
described by their members, so that walks over trees can be followed word by word.
First sets are ordered by inclusion of words and markers, and the operations
respect this order.
-/

namespace BoundedLookahead

namespace WordSet

variable {words : List Word} {word : Word}

/-- The members of the set of a list are those of the list. -/
@[simp] theorem mem_ofList : word ∈ WordSet.ofList words ↔ word ∈ words := by
  rw [WordSet.ofList, Std.ExtTreeSet.mem_ofList, List.contains_iff_mem]

/-- The words of a set come without repetition. -/
theorem nodup_toList (set : WordSet) : set.toList.Nodup :=
  set.distinct_toList.imp fun {_ _} h he => h (by rw [he]; exact Std.ReflCmp.compare_self)

/-- A part of a set is no larger. -/
theorem size_le_of_subset {a b : WordSet} (h : ∀ word ∈ a, word ∈ b) : a.size ≤ b.size := by
  rw [← Std.ExtTreeSet.length_toList, ← Std.ExtTreeSet.length_toList]
  exact (nodup_toList a).length_le_of_subset fun word hm => by simpa using h word (by simpa using hm)

/-- A part of a set that is as large is the whole set. -/
theorem eq_of_subset_of_size {a b : WordSet} (h : ∀ word ∈ a, word ∈ b) (hs : b.size ≤ a.size) :
    a = b := by
  have sub : a.toList ⊆ b.toList := fun word hm => by simpa using h word (by simpa using hm)
  refine Std.ExtTreeSet.ext_toList (((nodup_toList a).subperm sub).perm_of_length_le ?_)
  rwa [Std.ExtTreeSet.length_toList, Std.ExtTreeSet.length_toList]

end WordSet

namespace FirstSet

variable {a b c d set : FirstSet} {word : Word} {k : Nat}

instance : Membership Word FirstSet := ⟨fun set word => set.contains word = true⟩

/-- The empty word is a member by the marker, any other word as a stored word. -/
theorem mem_iff : word ∈ set ↔ (word = [] ∧ set.nullable = true) ∨ (word ≠ [] ∧ word ∈ set.words) := by
  change set.contains word = true ↔ _
  unfold contains
  cases word with
  | nil => simp
  | cons kind rest => simp

/-- The empty word is a member of the nullable sets. -/
@[simp] theorem nil_mem : [] ∈ set ↔ set.nullable = true := by simp [mem_iff]

/-- A nonempty member is a stored word. -/
theorem mem_words (h : word ∈ set) (hne : word ≠ []) : word ∈ set.words := by
  rcases mem_iff.mp h with h | h
  · exact absurd h.1 hne
  · exact h.2

/-- Where the empty word is not stored, every stored word is a member. -/
theorem mem_of_mem_words (h : [] ∉ set.words) (hm : word ∈ set.words) : word ∈ set :=
  mem_iff.mpr (.inr ⟨ne_of_mem_of_not_mem hm h, hm⟩)

/-- Nothing is a member of the empty set. -/
@[simp] theorem not_mem_empty : word ∉ empty := by simp [mem_iff, empty]

/-- The empty word alone is a member of ε. -/
@[simp] theorem mem_epsilon : word ∈ epsilon ↔ word = [] := by simp [mem_iff, epsilon]

/-- A token is the only member of its set. -/
@[simp] theorem mem_token {kind : Token} : word ∈ token kind ↔ word = [kind] := by
  simp only [mem_iff, token, WordSet.mem_ofList, List.mem_singleton, Bool.false_eq_true, and_false,
    false_or]
  constructor
  · exact And.right
  · rintro rfl
    exact ⟨by simp, rfl⟩

/-- A union has the members of both sets. -/
@[simp] theorem mem_union : word ∈ a.union b ↔ word ∈ a ∨ word ∈ b := by
  simp only [mem_iff, union, Std.ExtTreeSet.mem_union_iff, Bool.or_eq_true]
  grind

/-- Cutting a set cuts its words. -/
@[simp] theorem mem_cut : word ∈ set.cut k ↔ ∃ whole ∈ set.words, whole.take k = word := by
  unfold cut
  split
  · next short =>
    simp only [List.all_eq_true, decide_eq_true_eq] at short
    constructor
    · intro hm
      exact ⟨word, hm, List.take_of_length_le (short word (by simpa using hm))⟩
    · rintro ⟨whole, hm, rfl⟩
      rwa [List.take_of_length_le (short whole (by simpa using hm))]
  · simp

/-- A truncated set has the nonempty words of the set, cut. -/
theorem mem_truncate_words :
    word ∈ (set.truncate k).words ↔ word ≠ [] ∧ ∃ whole ∈ set.words, whole.take k = word := by
  simp [truncate, ofWords, and_comm]

/-- What the words of length `n` become before another set. -/
theorem mem_continued {n : Nat} : word ∈ a.continued b k n ↔ ∃ head ∈ a.words, head.length = n ∧
    ((k ≤ n ∧ head.take k = word) ∨
      (n < k ∧ ((∃ tail ∈ b.words, head ++ tail.take (k - n) = word) ∨
        (b.nullable = true ∧ head = word)))) := by
  unfold continued
  dsimp only
  split
  · next hn =>
    simp only [List.mem_map, List.mem_filter, Std.ExtTreeSet.mem_toList, beq_iff_eq, and_assoc]
    simp [hn, Nat.not_lt.mpr hn]
  · next hn =>
    simp only [List.mem_flatMap, List.mem_filter, Std.ExtTreeSet.mem_toList, beq_iff_eq,
      List.mem_append, List.mem_map, mem_cut, hn, Nat.lt_of_not_le hn, false_and, false_or,
      true_and, and_assoc]
    grind

/-- The stored words of a concatenation: words that reach length `k` are cut, the
others are continued, and a nullable first set lets the second begin. -/
theorem mem_concat_words : word ∈ (a.concat b k).words ↔
    (∃ head ∈ a.words, k ≤ head.length ∧ head.take k = word) ∨
    (∃ head ∈ a.words, head.length < k ∧ ((∃ tail ∈ b.words, (head ++ tail).take k = word) ∨
      (b.nullable = true ∧ head = word))) ∨
    (a.nullable = true ∧ ∃ tail ∈ b.words, tail.take k = word) := by
  have hend : (word ∈ if a.nullable = true then b.cut k else ∅) ↔
      a.nullable = true ∧ ∃ tail ∈ b.words, tail.take k = word := by
    split <;> simp_all
  have hstart (head : Word) (hl : head.length < k) (tail : Word) :
      (head ++ tail).take k = head ++ tail.take (k - head.length) := by
    rw [List.take_append, List.take_of_length_le (Nat.le_of_lt hl)]
  simp only [concat, Std.ExtTreeSet.mem_union_iff, WordSet.mem_ofList, List.mem_flatMap,
    List.mem_eraseDups, List.mem_map, Std.ExtTreeSet.mem_toList, mem_continued, hend]
  constructor
  · rintro (⟨n, -, head, hm, rfl, hc⟩ | h)
    · rcases hc with ⟨hl, rfl⟩ | ⟨hl, hc⟩
      · exact .inl ⟨head, hm, hl, rfl⟩
      · refine .inr (.inl ⟨head, hm, hl, hc.imp_left ?_⟩)
        rintro ⟨tail, ht, rfl⟩
        exact ⟨tail, ht, hstart head hl tail⟩
    · exact .inr (.inr h)
  · rintro (⟨head, hm, hl, rfl⟩ | ⟨head, hm, hl, hc⟩ | h)
    · exact .inl ⟨_, ⟨head, hm, rfl⟩, head, hm, rfl, .inl ⟨hl, rfl⟩⟩
    · refine .inl ⟨_, ⟨head, hm, rfl⟩, head, hm, rfl, .inr ⟨hl, hc.imp_left ?_⟩⟩
      rintro ⟨tail, ht, rfl⟩
      exact ⟨tail, ht, (hstart head hl tail).symm⟩
    · exact .inr h

/-- No word of a concatenation is longer than its bound. -/
theorem length_le_of_mem_concat_words (h : word ∈ (a.concat b k).words) : word.length ≤ k := by
  rcases mem_concat_words.mp h with ⟨head, _, _, rfl⟩ | ⟨head, _, hl, ⟨tail, _, rfl⟩ | ⟨_, rfl⟩⟩ |
    ⟨_, tail, _, rfl⟩
  · exact List.length_take_le _ _
  · exact List.length_take_le _ _
  · exact Nat.le_of_lt hl
  · exact List.length_take_le _ _

/-- The stored words have between 1 and `k` tokens. -/
def Bounded (set : FirstSet) (k : Nat) : Prop := ∀ word ∈ set.words, word ≠ [] ∧ word.length ≤ k

/-- A bounded set does not store the empty word. -/
theorem Bounded.nil_not_mem (h : set.Bounded k) : [] ∉ set.words := fun hm => (h [] hm).1 rfl

/-- The stored words of a bounded set are its nonempty members. -/
theorem Bounded.mem (h : set.Bounded k) (hm : word ∈ set.words) : word ∈ set :=
  mem_of_mem_words h.nil_not_mem hm

/-- No member of a bounded set is longer than the bound. -/
theorem Bounded.length_le (h : set.Bounded k) (hm : word ∈ set) : word.length ≤ k := by
  rcases mem_iff.mp hm with ⟨rfl, _⟩ | ⟨_, hm⟩
  · exact Nat.zero_le k
  · exact (h word hm).2

theorem bounded_empty : empty.Bounded k := fun _ hm => absurd hm Std.ExtTreeSet.not_mem_empty

theorem bounded_epsilon : epsilon.Bounded k := fun _ hm => absurd hm Std.ExtTreeSet.not_mem_empty

theorem bounded_token (hk : 1 ≤ k) (kind : Token) : (token kind).Bounded k := by
  intro word hm
  obtain rfl : word = [kind] := by simpa [token] using hm
  exact ⟨by simp, by simpa using hk⟩

theorem Bounded.union (ha : a.Bounded k) (hb : b.Bounded k) : (a.union b).Bounded k := by
  intro word hm
  rcases Std.ExtTreeSet.mem_union_iff.mp hm with hm | hm
  · exact ha word hm
  · exact hb word hm

/-- Sets that do not store the empty word have bounded concatenations. -/
theorem bounded_concat (hk : 1 ≤ k) (ha : [] ∉ a.words) (hb : [] ∉ b.words) :
    (a.concat b k).Bounded k := by
  intro word hm
  have hne {whole : Word} (hw : whole ≠ []) : whole.take k ≠ [] := by
    rw [Ne, List.take_eq_nil_iff, not_or]
    exact ⟨by omega, hw⟩
  refine ⟨?_, length_le_of_mem_concat_words hm⟩
  rcases mem_concat_words.mp hm with ⟨head, hh, _, rfl⟩ |
    ⟨head, hh, hl, ⟨tail, _, rfl⟩ | ⟨_, rfl⟩⟩ | ⟨_, tail, ht, rfl⟩
  · exact hne (ne_of_mem_of_not_mem hh ha)
  · exact hne fun he => ne_of_mem_of_not_mem hh ha (List.append_eq_nil_iff.mp he).1
  · exact ne_of_mem_of_not_mem hh ha
  · exact hne (ne_of_mem_of_not_mem ht hb)

theorem Bounded.concat (hk : 1 ≤ k) (ha : a.Bounded k) (hb : b.Bounded k) :
    (a.concat b k).Bounded k :=
  bounded_concat hk ha.nil_not_mem hb.nil_not_mem

/-- The members of a concatenation of sets that do not store the empty word: a member
of the first that reaches length `k` is cut, a shorter one is continued by a member of
the second. -/
theorem mem_concat_iff (hk : 1 ≤ k) (ha : [] ∉ a.words) (hb : [] ∉ b.words) :
    word ∈ a.concat b k ↔ (∃ head ∈ a, k ≤ head.length ∧ head.take k = word) ∨
      ∃ head ∈ a, head.length < k ∧ ∃ tail ∈ b, (head ++ tail).take k = word := by
  have hc := bounded_concat hk ha hb
  constructor
  · intro h
    by_cases hne : word = []
    · subst hne
      have : a.nullable = true ∧ b.nullable = true := by simpa [concat] using h
      exact .inr ⟨[], nil_mem.mpr this.1, hk, [], nil_mem.mpr this.2, List.take_nil⟩
    rcases mem_concat_words.mp (mem_words h hne) with ⟨head, hm, hl, rfl⟩ |
      ⟨head, hm, hl, ⟨tail, ht, rfl⟩ | ⟨he, hw⟩⟩ | ⟨he, tail, hm, rfl⟩
    · exact .inl ⟨head, mem_of_mem_words ha hm, hl, rfl⟩
    · exact .inr ⟨head, mem_of_mem_words ha hm, hl, tail, mem_of_mem_words hb ht, rfl⟩
    · refine .inr ⟨head, mem_of_mem_words ha hm, hl, [], nil_mem.mpr he, ?_⟩
      rw [List.append_nil, List.take_of_length_le (Nat.le_of_lt hl), hw]
    · exact .inr ⟨[], nil_mem.mpr he, hk, tail, mem_of_mem_words hb hm, rfl⟩
  · rintro (⟨head, hm, hl, rfl⟩ | ⟨head, hm, hl, tail, ht, rfl⟩)
    · have hne : head ≠ [] := by
        rintro rfl
        rw [List.length_nil] at hl
        omega
      exact hc.mem (mem_concat_words.mpr (.inl ⟨head, mem_words hm hne, hl, rfl⟩))
    · rcases mem_iff.mp hm with ⟨rfl, hn⟩ | ⟨hne, hm⟩
      · rcases mem_iff.mp ht with ⟨rfl, hn'⟩ | ⟨_, ht⟩
        · rw [List.append_nil, List.take_nil, nil_mem]
          simp [concat, hn, hn']
        · exact hc.mem (mem_concat_words.mpr (.inr (.inr ⟨hn, tail, ht, rfl⟩)))
      · refine hc.mem (mem_concat_words.mpr (.inr (.inl ⟨head, hm, hl, ?_⟩)))
        rcases mem_iff.mp ht with ⟨rfl, hn⟩ | ⟨_, ht⟩
        · rw [List.append_nil, List.take_of_length_le (Nat.le_of_lt hl)]
          exact .inr ⟨hn, rfl⟩
        · exact .inl ⟨tail, ht, rfl⟩

/-- In bounded sets no member is cut: one that reaches length `k` stands alone. -/
theorem mem_concat (hk : 1 ≤ k) (ha : a.Bounded k) (hb : b.Bounded k) : word ∈ a.concat b k ↔
    (∃ head ∈ a, head.length = k ∧ head = word) ∨
    ∃ head ∈ a, head.length < k ∧ ∃ tail ∈ b, (head ++ tail).take k = word := by
  rw [mem_concat_iff hk ha.nil_not_mem hb.nil_not_mem]
  refine or_congr_left (exists_congr fun head => and_congr_right fun hm => ?_)
  have hl := ha.length_le hm
  rw [List.take_of_length_le hl, Nat.le_antisymm_iff, and_iff_right hl]

/-- Where the second set has a member, a concatenation has the joined words of both
sets, cut: only then does every word of the first go on. -/
theorem mem_concat_of_inhabited (hk : 1 ≤ k) (ha : [] ∉ a.words) (hb : [] ∉ b.words)
    (inhabited : ∃ tail, tail ∈ b) :
    word ∈ a.concat b k ↔ ∃ head ∈ a, ∃ tail ∈ b, (head ++ tail).take k = word := by
  rw [mem_concat_iff hk ha hb]
  constructor
  · rintro (⟨head, hm, hl, rfl⟩ | ⟨head, hm, -, tail, ht, rfl⟩)
    · obtain ⟨tail, ht⟩ := inhabited
      exact ⟨head, hm, tail, ht, List.take_append_of_le_length hl⟩
    · exact ⟨head, hm, tail, ht, rfl⟩
  · rintro ⟨head, hm, tail, ht, rfl⟩
    rcases Nat.lt_or_ge head.length k with hl | hl
    · exact .inr ⟨head, hm, hl, tail, ht, rfl⟩
    · exact .inl ⟨head, hm, hl, (List.take_append_of_le_length hl).symm⟩

/-- A bounded set is saturated when all its members have length `k`. -/
theorem saturated_iff (hk : 1 ≤ k) (h : set.Bounded k) :
    set.saturated k = true ↔ ∀ word ∈ set, k ≤ word.length := by
  simp only [saturated, Bool.and_eq_true, Bool.not_eq_true', List.all_eq_true,
    Std.ExtTreeSet.mem_toList, decide_eq_true_eq]
  constructor
  · rintro ⟨hn, hw⟩ word hm
    rcases mem_iff.mp hm with ⟨_, hm⟩ | ⟨_, hm⟩
    · rw [hn] at hm
      cases hm
    · exact hw word hm
  · intro hw
    refine ⟨Bool.eq_false_iff.mpr fun hn => ?_, fun word hm => hw word (h.mem hm)⟩
    have := hw [] (nil_mem.mpr hn)
    rw [List.length_nil] at this
    omega

/-- Inclusion of words and markers. -/
instance : LE FirstSet :=
  ⟨fun a b => (∀ word ∈ a.words, word ∈ b.words) ∧ (a.nullable = true → b.nullable = true)⟩

theorem le_refl (a : FirstSet) : a ≤ a := ⟨fun _ h => h, fun h => h⟩

theorem le_trans (hab : a ≤ b) (hbc : b ≤ c) : a ≤ c :=
  ⟨fun word h => hbc.1 word (hab.1 word h), fun h => hbc.2 (hab.2 h)⟩

/-- A set that does not store the empty word is part of another when its members are. -/
theorem le_of_mem (ha : [] ∉ a.words) (h : ∀ word ∈ a, word ∈ b) : a ≤ b := by
  refine ⟨fun word hm => ?_, fun hn => nil_mem.mp (h [] (nil_mem.mpr hn))⟩
  exact mem_words (h word (mem_of_mem_words ha hm)) (ne_of_mem_of_not_mem hm ha)

theorem empty_le (a : FirstSet) : empty ≤ a :=
  ⟨fun _ h => absurd h Std.ExtTreeSet.not_mem_empty, nofun⟩

theorem union_mono (hac : a ≤ c) (hbd : b ≤ d) : a.union b ≤ c.union d := by
  refine ⟨fun word h => ?_, fun h => ?_⟩
  · exact Std.ExtTreeSet.mem_union_iff.mpr
      ((Std.ExtTreeSet.mem_union_iff.mp h).imp (hac.1 word) (hbd.1 word))
  · rw [union, Bool.or_eq_true] at h ⊢
    exact h.imp hac.2 hbd.2

theorem concat_mono (hac : a ≤ c) (hbd : b ≤ d) : a.concat b k ≤ c.concat d k := by
  refine ⟨fun word h => mem_concat_words.mpr ?_, fun h => ?_⟩
  · rcases mem_concat_words.mp h with ⟨head, hm, h⟩ |
      ⟨head, hm, hl, ⟨tail, ht, h⟩ | ⟨hn, h⟩⟩ | ⟨hn, tail, ht, h⟩
    · exact .inl ⟨head, hac.1 head hm, h⟩
    · exact .inr (.inl ⟨head, hac.1 head hm, hl, .inl ⟨tail, hbd.1 tail ht, h⟩⟩)
    · exact .inr (.inl ⟨head, hac.1 head hm, hl, .inr ⟨hbd.2 hn, h⟩⟩)
    · exact .inr (.inr ⟨hac.2 hn, tail, hbd.1 tail ht, h⟩)
  · rw [concat, Bool.and_eq_true] at h ⊢
    exact h.imp hac.2 hbd.2

/-- The number of words, and one more for the marker. -/
def weight (set : FirstSet) : Nat := set.size + set.nullable.toNat

/-- The marker of a part counts no more. -/
theorem toNat_nullable_le (h : a ≤ b) : a.nullable.toNat ≤ b.nullable.toNat := by
  cases ha : a.nullable with
  | false => exact Nat.zero_le _
  | true => exact Nat.le_of_eq (by rw [h.2 ha])

/-- A part of a set weighs no more. -/
theorem weight_mono (h : a ≤ b) : a.weight ≤ b.weight := by
  exact Nat.add_le_add (WordSet.size_le_of_subset h.1) (toNat_nullable_le h)

/-- A part of a set that weighs as much is the whole set. -/
theorem eq_of_le_of_weight (h : a ≤ b) (hw : b.weight ≤ a.weight) : a = b := by
  have hs := WordSet.size_le_of_subset h.1
  have hn := toNat_nullable_le h
  simp only [weight, size] at hw
  have words := WordSet.eq_of_subset_of_size h.1 (by omega)
  have nullable : a.nullable = b.nullable := by
    refine Bool.eq_iff_iff.mpr ?_
    rw [← Bool.toNat_eq_one, ← Bool.toNat_eq_one]
    omega
  cases a
  cases b
  simp_all

/-- Sets that are part of each other are equal. -/
theorem le_antisymm (hab : a ≤ b) (hba : b ≤ a) : a = b := eq_of_le_of_weight hab (weight_mono hba)

/-- Words that have all reached the bound are not changed by what follows. -/
theorem concat_of_saturated (hs : a.saturated k = true) (hl : ∀ word ∈ a.words, word.length ≤ k) :
    a.concat b k = a := by
  simp only [saturated, Bool.and_eq_true, Bool.not_eq_true', List.all_eq_true,
    Std.ExtTreeSet.mem_toList, decide_eq_true_eq] at hs
  obtain ⟨unmarked, long⟩ := hs
  refine le_antisymm ⟨fun word hm => ?_, fun hn => ?_⟩ ⟨fun word hm => ?_, fun hn => ?_⟩
  · rcases mem_concat_words.mp hm with ⟨head, hh, _, rfl⟩ | ⟨head, hh, short, _⟩ | ⟨hn, _⟩
    · rwa [List.take_of_length_le (hl head hh)]
    · exact absurd (long head hh) (Nat.not_le.mpr short)
    · rw [unmarked] at hn
      cases hn
  · rw [concat, Bool.and_eq_true, unmarked] at hn
    cases hn.1
  · exact mem_concat_words.mpr (.inl ⟨word, hm, long word hm, List.take_of_length_le (hl word hm)⟩)
  · rw [unmarked] at hn
    cases hn

/-- Nor are they by any row of sets. -/
theorem foldl_concat_of_saturated {α : Type} (first : α → FirstSet) (units : List α)
    (hs : a.saturated k = true) (hl : ∀ word ∈ a.words, word.length ≤ k) :
    units.foldl (fun before unit => before.concat (first unit) k) a = a := by
  induction units with
  | nil => rfl
  | cons unit units ih => rw [List.foldl_cons, concat_of_saturated hs hl, ih]

end FirstSet

end BoundedLookahead
