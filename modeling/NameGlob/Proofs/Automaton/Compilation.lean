import Mathlib.Data.List.Induction
import NameGlob.Automaton.Compile
import NameGlob.Pattern.Language
import NameGlob.Proofs.Automaton.Path
import NameGlob.Proofs.Interval.Insertion
import NameGlob.Proofs.Pattern.Reading

/-!
# Compilation of patterns

The set of a bracket list holds the characters that its members admit, and each item is compiled to an
element that takes the same segments. A `*` behind a `*` adds no element, since one of them takes any
segment already. So the paths of the automaton spell out the texts that the items accept.
-/

namespace NameGlob

open NameGlob.Interval

namespace CharSet

variable {rule : CaseRule} {members : List Member}

theorem ascending_ofMembers (rule : CaseRule) (h : ∀ m ∈ members, m.Proper) :
    Ascending (ofMembers rule members).intervals := by
  induction members using List.reverseRecOn with
  | nil => exact ascending_nil
  | append_singleton members m ih =>
    have hset := ih fun m' hm' => h m' (List.mem_append_left [m] hm')
    have hm := h m (by simp)
    rw [ofMembers, List.foldl_append]
    cases m with
    | single c => exact IntervalSet.ascending_insert hset (Int.le_refl (rule.fold c))
    | range lo hi => exact IntervalSet.ascending_insert hset hm

/-- The set of a bracket list holds what its members admit. -/
theorem contains_ofMembers_iff {x : CodePoint} (h : ∀ m ∈ members, m.Proper) :
    (ofMembers rule members).contains x = true ↔ ∃ m ∈ members, m.Admits rule x := by
  induction members using List.reverseRecOn with
  | nil => simp [ofMembers]
  | append_singleton members m ih =>
    have hmembers : ∀ m' ∈ members, m'.Proper := fun m' hm' => h m' (List.mem_append_left [m] hm')
    have hset := ascending_ofMembers rule hmembers
    have hstep : (addMember rule (ofMembers rule members) m).contains x = true ↔
        (ofMembers rule members).contains x = true ∨ m.Admits rule x := by
      cases m with
      | single c =>
        rw [addMember, IntervalSet.insertValue, IntervalSet.contains_insert_iff hset,
          Interval.contains_single]
        rfl
      | range lo hi =>
        rw [addMember, IntervalSet.contains_insert_iff hset, Interval.contains_iff]
        rfl
    rw [ofMembers, List.foldl_append]
    refine hstep.trans ?_
    rw [ih hmembers]
    simp [or_and_right, exists_or]

end CharSet

namespace Automaton

variable {a : Automaton} {rule : CaseRule} {item : Item} {items : List Item}
  {text : List CodePoint}

/-- The index of a bracket element. -/
def bracketIndex? : Element → Option Nat
  | .bracket index => some index
  | _ => none

/-- The bracket elements refer to the sets one after the other. -/
def Numbered (a : Automaton) : Prop :=
  a.elements.toList.filterMap bracketIndex? = List.range a.sets.size

theorem Numbered.lt_sets_size (h : a.Numbered) {p index : Nat}
    (hp : a.elements[p]? = some (.bracket index)) : index < a.sets.size := by
  have hmem : Element.bracket index ∈ a.elements.toList :=
    Array.mem_toList_iff.mpr (Array.mem_of_getElem? hp)
  have hindex : index ∈ a.elements.toList.filterMap bracketIndex? :=
    List.mem_filterMap.mpr ⟨_, hmem, rfl⟩
  rwa [h, List.mem_range] at hindex

@[simp] theorem rule_addItem : (a.addItem item).rule = a.rule := by
  cases item with
  | anySequence =>
    rw [addItem]
    split <;> rfl
  | _ => rfl

theorem Numbered.addItem (h : a.Numbered) : (a.addItem item).Numbered := by
  unfold Numbered at h ⊢
  cases item with
  | anySequence =>
    rw [Automaton.addItem]
    split
    · exact h
    · simp [push, bracketIndex?, h]
  | oneOf members => simp [Automaton.addItem, bracketIndex?, h, List.range_succ]
  | _ => simp [Automaton.addItem, push, bracketIndex?, h]

theorem ofItems_append_singleton :
    ofItems rule (items ++ [item]) = (ofItems rule items).addItem item := by
  simp [ofItems]

@[simp] theorem rule_ofItems : (ofItems rule items).rule = rule := by
  induction items using List.reverseRecOn with
  | nil => rfl
  | append_singleton items item ih => rw [ofItems_append_singleton, rule_addItem, ih]

theorem numbered_ofItems : (ofItems rule items).Numbered := by
  induction items using List.reverseRecOn with
  | nil => rfl
  | append_singleton items item ih =>
    rw [ofItems_append_singleton]
    exact ih.addItem

theorem extends_push (a : Automaton) (e : Element) : a.Extends (a.push e) e :=
  ⟨rfl, rfl, fun _ _ _ _ => rfl⟩

/-- The set of a bracket list is put behind the others, so the earlier ones keep their indices. -/
theorem extends_addItem_oneOf (h : a.Numbered) (members : List Member) :
    a.Extends (a.addItem (.oneOf members)) (.bracket a.sets.size) where
  rule := rfl
  elements := rfl
  admits p e hp c := by
    cases e with
    | bracket index =>
      have hlt := h.lt_sets_size hp
      simp [addItem, admits, Array.getElem?_push, Nat.ne_of_lt hlt]
    | _ => rfl

theorem covers_iff_of_ne {e : Element} (hne : e ≠ .anySequence) {segment : List CodePoint} :
    a.Covers e segment ↔ ∃ c, segment = [c] ∧ a.admits e (a.rule.fold c) = true := by
  simp [Covers, hne]

theorem covers_addItem_oneOf {members : List Member} (hproper : ∀ m ∈ members, m.Proper)
    {segment : List CodePoint} :
    (a.addItem (.oneOf members)).Covers (.bracket a.sets.size) segment ↔
      (Item.oneOf members).Takes a.rule segment := by
  rw [covers_iff_of_ne (by simp), Item.Takes]
  refine exists_congr fun c => and_congr_right fun _ => ?_
  have hset : (a.addItem (.oneOf members)).admits (.bracket a.sets.size) (a.rule.fold c) =
      holds a.rule (.ofMembers a.rule members) (a.rule.fold c) := by
    simp [addItem, admits]
  rw [rule_addItem, hset, holds]
  simp only [Bool.or_eq_true, Bool.and_eq_true, CharSet.contains_ofMembers_iff hproper,
    CaseRule.LookedUpAs]
  constructor
  · rintro (hlower | ⟨hignore, hupper⟩)
    · exact ⟨_, .inl rfl, hlower⟩
    · exact ⟨_, .inr ⟨hignore, rfl⟩, hupper⟩
  · rintro ⟨x, rfl | ⟨hignore, rfl⟩, hadmits⟩
    · exact .inl hadmits
    · exact .inr ⟨hignore, hadmits⟩

/-- One more item takes one more segment. -/
theorem acceptsFrom_addItem_iff (h : a.Numbered) (hproper : item.Proper) :
    (a.addItem item).AcceptsFrom 0 text ↔
      ∃ front back, text = front ++ back ∧ a.AcceptsFrom 0 front ∧ item.Takes a.rule back := by
  have hpush : ∀ e, (∀ back, (a.push e).Covers e back ↔ item.Takes a.rule back) →
      ((a.push e).AcceptsFrom 0 text ↔
        ∃ front back, text = front ++ back ∧ a.AcceptsFrom 0 front ∧ item.Takes a.rule back) := by
    intro e hcovers
    simp only [(extends_push a e).acceptsFrom_iff (Nat.zero_le _), hcovers]
  cases item with
  | literal c =>
    refine hpush _ fun back => ?_
    rw [covers_iff_of_ne (by simp), Item.Takes]
    exact exists_congr fun x => and_congr_right fun _ => beq_iff_eq.trans eq_comm
  | anyOne =>
    refine hpush _ fun back => ?_
    rw [covers_iff_of_ne (by simp), Item.Takes]
    simp [admits]
  | oneOf members =>
    simp only [(extends_addItem_oneOf h members).acceptsFrom_iff (Nat.zero_le _),
      covers_addItem_oneOf hproper.2]
  | anySequence =>
    rw [addItem]
    split
    · -- the last element is a `*` already, which takes the further segment as well
      rename_i hlast
      obtain ⟨elements, helements⟩ := Array.back?_eq_some_iff.mp hlast
      have hextends : ({ a with elements := elements } : Automaton).Extends a .anySequence :=
        ⟨rfl, helements, fun _ _ _ _ => rfl⟩
      constructor
      · intro haccepts
        exact ⟨text, [], by simp, haccepts, trivial⟩
      · rintro ⟨front, back, rfl, haccepts, -⟩
        rw [hextends.acceptsFrom_iff (Nat.zero_le _)] at haccepts ⊢
        obtain ⟨front, middle, rfl, hfront, -⟩ := haccepts
        exact ⟨front, middle ++ back, by simp, hfront, .inl rfl⟩
    · exact hpush _ fun back => ⟨fun _ => trivial, fun _ => .inl rfl⟩

/-- The automaton of a sequence of items accepts what the items accept. -/
theorem acceptsFrom_ofItems_iff (hproper : ∀ item ∈ items, item.Proper) :
    (ofItems rule items).AcceptsFrom 0 text ↔ Item.Accepts rule items text := by
  induction items using List.reverseRecOn generalizing text with
  | nil =>
    rw [Item.accepts_nil_iff]
    exact acceptsFrom_size_iff (a := empty rule)
  | append_singleton items item ih =>
    have hitems : ∀ item ∈ items, item.Proper :=
      fun item hitem => hproper item (List.mem_append_left _ hitem)
    rw [ofItems_append_singleton, acceptsFrom_addItem_iff numbered_ofItems (hproper item (by simp)),
      Item.accepts_append_iff]
    simp only [ih hitems, rule_ofItems, Item.accepts_singleton_iff]

theorem compile_eq_ok {pattern : Bytes} {items : List Item} (h : Pattern.parse pattern = .ok items)
    (options : Options) (locale : Locale) :
    compile pattern options locale = .ok (ofItems (.of options locale) items) := by
  rw [compile, h]

end Automaton

end NameGlob
