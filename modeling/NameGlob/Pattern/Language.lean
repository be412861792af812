import NameGlob.Case.Rule
import NameGlob.Pattern.Item

/-!
# The language of a pattern

A sequence of items accepts a text when the text can be cut into consecutive segments, one for each item,
so that each item takes its segment. This says what a pattern means without saying how a text is decided.

## Main definitions

- `Member.Admits` — a member of a bracket list admits a character
- `Item.Takes` — an item takes a segment of a text
- `Item.Accepts` — a sequence of items accepts a text
-/

namespace NameGlob

/-- A member of a bracket list admits a character: a single one its folded form, a range the characters
between its bounds as they are written. -/
def Member.Admits (rule : CaseRule) : Member → CodePoint → Prop
  | .single l, c => c = rule.fold l
  | .range lo hi, c => lo ≤ c ∧ c ≤ hi

/-- The character `c` is looked up in a bracket list in the form `x`: folded, or in the upper case form of
that when case is ignored. -/
def CaseRule.LookedUpAs (rule : CaseRule) (c x : CodePoint) : Prop :=
  x = rule.fold c ∨ (rule.ignoreCase = true ∧ x = rule.upper (rule.fold c))

namespace Item

/-- An item takes a segment of a text. -/
def Takes (rule : CaseRule) : Item → List CodePoint → Prop
  | .literal l, segment => ∃ c, segment = [c] ∧ rule.fold c = rule.fold l
  | .anyOne, segment => ∃ c, segment = [c]
  | .anySequence, _ => True
  | .oneOf members, segment =>
    ∃ c, segment = [c] ∧ ∃ x, rule.LookedUpAs c x ∧ ∃ m ∈ members, m.Admits rule x

/-- A sequence of items accepts a text when the text is made of segments that the items take. -/
inductive Accepts (rule : CaseRule) : List Item → List CodePoint → Prop
  | nil : Accepts rule [] []
  | cons {item : Item} {items : List Item} {segment rest : List CodePoint}
      (takes : item.Takes rule segment) (accepts : Accepts rule items rest) :
      Accepts rule (item :: items) (segment ++ rest)

variable {rule other : CaseRule}

@[simp] theorem accepts_nil_iff {text : List CodePoint} : Accepts rule [] text ↔ text = [] := by
  constructor
  · intro h
    cases h
    rfl
  · rintro rfl
    exact .nil

theorem accepts_cons_iff {item : Item} {items : List Item} {text : List CodePoint} :
    Accepts rule (item :: items) text ↔
      ∃ segment rest, text = segment ++ rest ∧ item.Takes rule segment ∧
        Accepts rule items rest := by
  constructor
  · intro h
    cases h with
    | cons takes accepts => exact ⟨_, _, rfl, takes, accepts⟩
  · rintro ⟨segment, rest, rfl, takes, accepts⟩
    exact .cons takes accepts

/-- A text of two sequences is a text of the first followed by a text of the second. -/
theorem accepts_append_iff {items others : List Item} {text : List CodePoint} :
    Accepts rule (items ++ others) text ↔
      ∃ front back, text = front ++ back ∧ Accepts rule items front ∧ Accepts rule others back := by
  induction items generalizing text with
  | nil =>
    constructor
    · intro h
      exact ⟨[], text, rfl, .nil, h⟩
    · rintro ⟨front, back, rfl, hfront, hback⟩
      obtain rfl := accepts_nil_iff.mp hfront
      exact hback
  | cons item items ih =>
    rw [List.cons_append, accepts_cons_iff]
    constructor
    · rintro ⟨segment, rest, rfl, takes, accepts⟩
      obtain ⟨front, back, rfl, hfront, hback⟩ := ih.mp accepts
      exact ⟨segment ++ front, back, by simp, .cons takes hfront, hback⟩
    · rintro ⟨front, back, rfl, hfront, hback⟩
      obtain ⟨segment, rest, rfl, takes, hrest⟩ := accepts_cons_iff.mp hfront
      exact ⟨segment, rest ++ back, by simp, takes, ih.mpr ⟨rest, back, rfl, hrest, hback⟩⟩

/-- What items accept under one rule they accept under another, when each of them takes the segments of
the text under the other rule too. -/
theorem Accepts.imp {items : List Item} {text : List CodePoint} (h : Accepts rule items text)
    (himp : ∀ item ∈ items, ∀ segment, segment ⊆ text → item.Takes rule segment →
      item.Takes other segment) : Accepts other items text := by
  induction h with
  | nil => exact .nil
  | @cons item items segment rest takes accepts ih =>
    rw [List.forall_mem_cons] at himp
    refine .cons (himp.1 segment (List.subset_append_left segment rest) takes) (ih ?_)
    exact fun item hitem segment' hsub =>
      himp.2 item hitem segment' (List.subset_append_of_subset_right segment hsub)

/-- What items accept is accepted too when each of them is replaced by one that takes the same segments and
maybe more. -/
theorem Accepts.map {f : Item → Item} {items : List Item} {text : List CodePoint}
    (h : Accepts rule items text)
    (hf : ∀ item ∈ items, ∀ segment, item.Takes rule segment → (f item).Takes other segment) :
    Accepts other (items.map f) text := by
  induction h with
  | nil => exact .nil
  | @cons item items segment rest takes accepts ih =>
    rw [List.forall_mem_cons] at hf
    exact .cons (hf.1 segment takes) (ih hf.2)

/-- A single item accepts the segments that it takes. -/
@[simp] theorem accepts_singleton_iff {item : Item} {text : List CodePoint} :
    Accepts rule [item] text ↔ item.Takes rule text := by
  simp [accepts_cons_iff]

/-- Literals accept the texts that have their folded characters. -/
theorem accepts_literals_iff {cs text : List CodePoint} :
    Accepts rule (cs.map .literal) text ↔ text.map rule.fold = cs.map rule.fold := by
  induction cs generalizing text with
  | nil => simp
  | cons c cs ih =>
    rw [List.map_cons, accepts_cons_iff, List.map_cons]
    constructor
    · rintro ⟨segment, rest, rfl, ⟨d, rfl, hfold⟩, haccepts⟩
      rw [List.cons_append, List.nil_append, List.map_cons, hfold, ih.mp haccepts]
    · intro h
      obtain ⟨d, rest, rfl, hfold, hrest⟩ := List.map_eq_cons_iff.mp h
      exact ⟨[d], rest, rfl, ⟨d, rfl, hfold⟩, ih.mpr hrest⟩

end Item

end NameGlob
