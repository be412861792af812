import Mathlib.Data.List.Chain
import NameGlob.Proofs.Automaton.Compilation
import NameGlob.Proofs.Case.Folding
import NameGlob.Proofs.Interval.Canonical
import NameGlob.Proofs.Pattern.Characters

/-!
# The form of compiled patterns

A compiled pattern has one `*` where the pattern has several in a row, and one set for each bracket list, in the
order of the lists. A bracket list has members, so its set is not empty. The set is built by insertions, so its
intervals ascend; and as long as folding does not leave the words, they leave gaps.
-/

namespace NameGlob

open NameGlob.Interval

/-- The locale maps code points to words. The characters of a locale are words, so every locale does. -/
def Locale.LowersToWords (locale : Locale) : Prop :=
  ∀ c, Utf8.IsCodePoint c → Bounds.word.Holds (locale.lower c)

theorem Utf8.word_of_isCodePoint {c : CodePoint} (h : IsCodePoint c) : Bounds.word.Holds c := by
  obtain ⟨hmin, hmax⟩ := h
  exact ⟨Int.le_trans (by decide) hmin, Int.le_trans hmax (by decide)⟩

/-- A locale that lists characters leaves all others as they are. -/
theorem Locale.lowersToWords_ofPairs {lower upper : List (CodePoint × CodePoint)}
    (h : ∀ pair ∈ lower, Bounds.word.Holds pair.2) : (Locale.ofPairs lower upper).LowersToWords := by
  intro c hc
  show Bounds.word.Holds ((lower.lookup c).getD c)
  cases hlookup : lower.lookup c with
  | none => exact Utf8.word_of_isCodePoint hc
  | some d =>
    obtain ⟨front, back, rfl, -⟩ := List.lookup_eq_some_iff.mp hlookup
    exact h (c, d) (by simp)

theorem Utf8.word_of_mem_codePoints {c : CodePoint} {s : Bytes} (hmem : c ∈ codePoints s) :
    Bounds.word.Holds c := by
  by_cases hinvalid : c = invalid
  · subst hinvalid
    decide
  · exact word_of_isCodePoint (isCodePoint_of_mem_codePoints hmem hinvalid)

theorem Case.word_lower {c : CodePoint} (h : Bounds.word.Holds c) : Bounds.word.Holds (lower c) := by
  rcases lower_cases c with ⟨row, hrow, -, hlower⟩ | hnone
  · rw [← FoldRow.hasUpper_lowered] at hlower
    obtain ⟨hlo, hhi, -⟩ := FoldRow.hasUpper_iff.mp hlower
    obtain ⟨-, hmin, hmax⟩ := letterRows_bounds row hrow
    exact Utf8.word_of_isCodePoint ⟨Int.le_trans hmin hlo, Int.le_trans hhi hmax⟩
  · rwa [lower_of_not_hasUpper hnone]

/-- Folding does not leave the words: the locale is only asked about code points. -/
theorem CaseRule.word_fold {rule : CaseRule} {c : CodePoint} (hlocale : rule.locale.LowersToWords)
    (h : Bounds.word.Holds c) : Bounds.word.Holds (rule.fold c) := by
  unfold fold viaLocale
  split
  · exact h
  · split
    · exact Case.word_lower h
    · split
      · exact h
      · rename_i hrange
        split
        · rw [not_or, Int.not_lt, Int.not_lt] at hrange
          exact hlocale c hrange
        · exact Case.word_lower h

/-- The interval that a member adds to the set of its list. -/
def Member.interval (rule : CaseRule) : Member → Interval
  | .single c => .single (rule.fold c)
  | .range lo hi => ⟨lo, hi⟩

namespace CharSet

variable {rule : CaseRule} {members : List Member}

theorem addMember_eq (set : CharSet) (m : Member) : addMember rule set m = set.insert (m.interval rule) := by
  cases m <;> rfl

theorem ofMembers_append_singleton (m : Member) :
    ofMembers rule (members ++ [m]) = (ofMembers rule members).insert (m.interval rule) := by
  rw [ofMembers, List.foldl_append, ← ofMembers, List.foldl_cons, List.foldl_nil, addMember_eq]

theorem canonical_ofMembers (h : ∀ m ∈ members, (m.interval rule).Within .word) :
    (ofMembers rule members).Canonical := by
  induction members using List.reverseRecOn with
  | nil => exact IntervalSet.canonical_empty
  | append_singleton members m ih =>
    rw [List.forall_mem_append, List.forall_mem_singleton] at h
    rw [ofMembers_append_singleton]
    exact IntervalSet.canonical_insert (ih h.1) h.2

/-- A set with members holds the first character of each. -/
theorem nonempty_ofMembers (hproper : ∀ m ∈ members, m.Proper) (hne : members ≠ []) :
    (ofMembers rule members).nonempty = true := by
  obtain ⟨m, hm⟩ := List.exists_mem_of_ne_nil members hne
  have hadmits : m.Admits rule (m.interval rule).lo := by
    cases m with
    | single c => exact rfl
    | range lo hi => exact ⟨Int.le_refl lo, hproper _ hm⟩
  obtain ⟨i, hi, -⟩ := IntervalSet.contains_iff.mp ((contains_ofMembers_iff hproper).mpr ⟨m, hm, hadmits⟩)
  have hintervals : (ofMembers rule members).intervals ≠ [] := List.ne_nil_of_mem hi
  simpa [IntervalSet.nonempty] using hintervals

end CharSet

namespace Automaton

variable {rule : CaseRule} {e : Element} {elements : Array Element} {item : Item} {items : List Item} {set : CharSet}

/-- No two neighbouring elements are both that of `*`. -/
def StarsApart (elements : Array Element) : Prop :=
  elements.toList.IsChain fun e f => ¬(e = .anySequence ∧ f = .anySequence)

/-- The form of a compiled pattern. -/
structure WellFormed (a : Automaton) : Prop where
  starsApart : StarsApart a.elements
  /-- The bracket elements refer to the sets one after the other, and to all of them. -/
  numbered : a.Numbered
  nonempty : ∀ set ∈ a.sets, set.nonempty = true
  /-- The intervals of a set are not empty and ascend, so no two of them overlap. -/
  ascending : ∀ set ∈ a.sets, Ascending set.intervals

/-- The sets of an automaton are those of the bracket lists. -/
theorem mem_sets_ofItems_iff :
    set ∈ (ofItems rule items).sets ↔ ∃ members, .oneOf members ∈ items ∧ set = .ofMembers rule members := by
  induction items using List.reverseRecOn with
  | nil => simp [ofItems, empty]
  | append_singleton items item ih =>
    have hkept : ∀ b : Automaton, b.sets = (ofItems rule items).sets → (∀ members, item ≠ .oneOf members) →
        (set ∈ b.sets ↔ ∃ members, .oneOf members ∈ items ++ [item] ∧ set = .ofMembers rule members) := by
      intro b hsets hother
      simp only [hsets, ih, List.mem_append, List.mem_singleton, fun members => (hother members).symm, or_false]
    rw [ofItems_append_singleton]
    cases item with
    | literal c => exact hkept _ rfl fun _ => by simp
    | anyOne => exact hkept _ rfl fun _ => by simp
    | anySequence =>
      refine hkept _ ?_ fun _ => by simp
      rw [addItem]
      split <;> rfl
    | oneOf members =>
      simp only [addItem, Array.mem_push, ih, List.mem_append, List.mem_singleton, rule_ofItems]
      constructor
      · rintro (⟨others, hmem, rfl⟩ | rfl)
        · exact ⟨others, .inl hmem, rfl⟩
        · exact ⟨members, .inr rfl, rfl⟩
      · rintro ⟨others, hmem | heq, rfl⟩
        · exact .inl ⟨others, hmem, rfl⟩
        · obtain rfl := Item.oneOf.inj heq
          exact .inr rfl

theorem StarsApart.push (h : StarsApart elements) (he : e = .anySequence → elements.back? ≠ some .anySequence) :
    StarsApart (elements.push e) := by
  rw [StarsApart, Array.toList_push]
  refine List.IsChain.append h (List.isChain_singleton e) ?_
  intro last hlast f hf hstars
  obtain rfl : e = f := Option.some.inj hf
  obtain ⟨rfl, hstar⟩ := hstars
  rw [Array.getLast?_toList] at hlast
  exact he hstar hlast

/-- A `*` is only added behind an element that is none. -/
theorem starsApart_ofItems : StarsApart (ofItems rule items).elements := by
  induction items using List.reverseRecOn with
  | nil => exact .nil
  | append_singleton items item ih =>
    rw [ofItems_append_singleton]
    cases item with
    | literal c => exact ih.push (by simp)
    | anyOne => exact ih.push (by simp)
    | oneOf members => exact ih.push (by simp)
    | anySequence =>
      rw [addItem]
      split
      · exact ih
      · rename_i hlast
        exact ih.push fun _ => hlast

theorem wellFormed_ofItems (hproper : ∀ item ∈ items, item.Proper) : (ofItems rule items).WellFormed where
  starsApart := starsApart_ofItems
  numbered := numbered_ofItems
  nonempty set hset := by
    obtain ⟨members, hmem, rfl⟩ := mem_sets_ofItems_iff.mp hset
    obtain ⟨hne, hmembers⟩ := hproper _ hmem
    exact CharSet.nonempty_ofMembers hmembers hne
  ascending set hset := by
    obtain ⟨members, hmem, rfl⟩ := mem_sets_ofItems_iff.mp hset
    exact CharSet.ascending_ofMembers rule (hproper _ hmem).2

/-- The sets of the automaton of a pattern leave gaps, since the characters of a pattern and their folded forms are
words. -/
theorem canonical_of_mem_sets {pattern : Bytes} (h : Pattern.parse pattern = .ok items)
    (hlocale : rule.locale.LowersToWords) (hset : set ∈ (ofItems rule items).sets) : set.Canonical := by
  obtain ⟨members, hmem, rfl⟩ := mem_sets_ofItems_iff.mp hset
  refine CharSet.canonical_ofMembers fun m hm => ?_
  have hwords : ∀ c ∈ m.characters, Bounds.word.Holds c := by
    intro c hc
    have hitems : c ∈ items.flatMap Item.characters :=
      List.mem_flatMap.mpr ⟨_, hmem, List.mem_flatMap.mpr ⟨m, hm, hc⟩⟩
    exact Utf8.word_of_mem_codePoints (Pattern.characters_of_parse h hitems)
  rw [Interval.within_iff]
  cases m with
  | single c =>
    have hfold := CaseRule.word_fold hlocale (hwords c (List.mem_singleton_self c))
    exact ⟨hfold, hfold, Int.le_refl _⟩
  | range lo hi =>
    have hproper := (Pattern.proper_of_parse h _ hmem).2 _ hm
    exact ⟨hwords lo (by simp [Member.characters]), hwords hi (by simp [Member.characters]), hproper⟩

end Automaton

end NameGlob
