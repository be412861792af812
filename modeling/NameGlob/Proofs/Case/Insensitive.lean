import Mathlib.Data.List.Forall2
import NameGlob.Proofs.Automaton.Matching
import NameGlob.Proofs.Case.Folding

/-!
# Matching regardless of case

A rule that folds by the case table accepts a text exactly when the same items, read to the letter,
accept a text that differs from it in case only. For a range, the two forms in which a character is
looked up are all the characters that fold alike.
-/

namespace NameGlob

/-- Two texts differ in the case of their characters at most. -/
def SameButCase (text other : List CodePoint) : Prop :=
  List.Forall₂ (fun c d => Case.lower d = Case.lower c) text other

namespace SameButCase

variable {text other front back : List CodePoint} {c d : CodePoint}

theorem singleton_iff : SameButCase [c] other ↔ ∃ d, other = [d] ∧ Case.lower d = Case.lower c := by
  constructor
  · intro h
    obtain ⟨d, rest, hd, hrest, rfl⟩ := List.forall₂_cons_left_iff.mp h
    obtain rfl := List.forall₂_nil_left_iff.mp hrest
    exact ⟨d, rfl, hd⟩
  · rintro ⟨d, rfl, hd⟩
    exact .cons hd .nil

theorem singleton_right_iff :
    SameButCase text [d] ↔ ∃ c, Case.lower d = Case.lower c ∧ text = [c] := by
  constructor
  · intro h
    obtain ⟨c, rest, hc, hrest, rfl⟩ := List.forall₂_cons_right_iff.mp h
    obtain rfl := List.forall₂_nil_right_iff.mp hrest
    exact ⟨c, hc, rfl⟩
  · rintro ⟨c, hc, rfl⟩
    exact .cons hc .nil

theorem refl (text : List CodePoint) : SameButCase text text :=
  List.forall₂_refl text

theorem append_iff :
    SameButCase text (front ++ back) ↔
      ∃ front' back', text = front' ++ back' ∧ SameButCase front' front ∧ SameButCase back' back := by
  constructor
  · intro h
    exact ⟨_, _, (List.take_append_drop front.length text).symm,
      List.forall₂_take_append text front back h, List.forall₂_drop_append text front back h⟩
  · rintro ⟨front', back', rfl, hfront, hback⟩
    exact List.rel_append hfront hback

end SameButCase

namespace CaseRule

variable {rule exact : CaseRule} {c x : CodePoint}

theorem lookedUpAs_iff_of_not_ignoreCase (h : exact.ignoreCase = false) :
    exact.LookedUpAs c x ↔ x = c := by
  simp [LookedUpAs, h]

/-- A rule that folds by the case table looks a character up in all the forms that fold alike, and in no
other. -/
theorem ByTable.lookedUpAs_iff (h : rule.ByTable) :
    rule.LookedUpAs c x ↔ Case.lower x = Case.lower c := by
  rw [LookedUpAs, h.upper_eq_upper, h.fold_eq_lower]
  constructor
  · rintro (rfl | ⟨-, rfl⟩)
    · exact Case.lower_lower c
    · rw [Case.lower_upper, Case.lower_lower]
  · intro hx
    rcases Case.eq_or_eq_upper_of_lower_eq hx with heq | heq
    · exact .inl heq
    · exact .inr ⟨h.1, heq⟩

/-- A member of a bracket list admits a form of a character exactly when it admits, read to the letter,
a character that folds alike. -/
theorem ByTable.admits_iff (h : rule.ByTable) (hexact : exact.ignoreCase = false) {m : Member} :
    (∃ x, rule.LookedUpAs c x ∧ m.Admits rule x) ↔
      ∃ d, Case.lower d = Case.lower c ∧ m.Admits exact d := by
  simp only [h.lookedUpAs_iff]
  cases m with
  | range lo hi => rfl
  | single l =>
    simp only [Member.Admits, h.fold_eq_lower, CaseRule.fold_of_not_ignoreCase hexact]
    constructor
    · rintro ⟨x, hx, rfl⟩
      rw [Case.lower_lower] at hx
      exact ⟨l, hx, rfl⟩
    · rintro ⟨d, hd, rfl⟩
      exact ⟨Case.lower d, by rw [Case.lower_lower, hd], rfl⟩

end CaseRule

namespace Item

variable {rule exact : CaseRule} {item : Item} {items : List Item} {text segment : List CodePoint}

theorem takes_byTable_iff (h : rule.ByTable) (hexact : exact.ignoreCase = false) :
    item.Takes rule segment ↔ ∃ cased, SameButCase segment cased ∧ item.Takes exact cased := by
  have hone : ∀ (P Q : CodePoint → Prop),
      (∀ c, P c ↔ ∃ d, Case.lower d = Case.lower c ∧ Q d) →
      ((∃ c, segment = [c] ∧ P c) ↔
        ∃ cased, SameButCase segment cased ∧ ∃ d, cased = [d] ∧ Q d) := by
    intro P Q hPQ
    constructor
    · rintro ⟨c, rfl, hP⟩
      obtain ⟨d, hd, hQ⟩ := (hPQ c).mp hP
      exact ⟨[d], SameButCase.singleton_iff.mpr ⟨d, rfl, hd⟩, d, rfl, hQ⟩
    · rintro ⟨_, hsame, d, rfl, hQ⟩
      obtain ⟨c, hc, rfl⟩ := SameButCase.singleton_right_iff.mp hsame
      exact ⟨c, rfl, (hPQ c).mpr ⟨d, hc, hQ⟩⟩
  cases item with
  | literal l =>
    refine hone _ _ fun c => ?_
    simp only [h.fold_eq_lower, CaseRule.fold_of_not_ignoreCase hexact]
    constructor
    · intro hc
      exact ⟨l, hc.symm, rfl⟩
    · rintro ⟨d, hd, rfl⟩
      exact hd.symm
  | anyOne =>
    have hany := hone (fun _ => True) (fun _ => True) fun c => by simp
    simpa [Takes] using hany
  | anySequence => exact ⟨fun _ => ⟨segment, .refl segment, trivial⟩, fun _ => trivial⟩
  | oneOf members =>
    refine hone _ _ fun c => ?_
    simp only [CaseRule.lookedUpAs_iff_of_not_ignoreCase hexact, exists_eq_left]
    constructor
    · rintro ⟨x, hx, m, hm, hadmits⟩
      obtain ⟨d, hd, hadmits⟩ := (h.admits_iff hexact).mp ⟨x, hx, hadmits⟩
      exact ⟨d, hd, m, hm, hadmits⟩
    · rintro ⟨d, hd, m, hm, hadmits⟩
      obtain ⟨x, hx, hadmits⟩ := (h.admits_iff hexact).mpr ⟨d, hd, hadmits⟩
      exact ⟨x, hx, m, hm, hadmits⟩

/-- Items accept a text exactly when they accept, read to the letter, a text that differs from it in case
only. -/
theorem accepts_byTable_iff (h : rule.ByTable) (hexact : exact.ignoreCase = false) :
    Accepts rule items text ↔ ∃ cased, SameButCase text cased ∧ Accepts exact items cased := by
  induction items generalizing text with
  | nil => simp [SameButCase]
  | cons item items ih =>
    simp only [accepts_cons_iff, ih, takes_byTable_iff h hexact]
    constructor
    · rintro ⟨segment, rest, rfl, ⟨cased, hsame, htakes⟩, cased', hsame', haccepts⟩
      exact ⟨cased ++ cased', SameButCase.append_iff.mpr ⟨segment, rest, rfl, hsame, hsame'⟩,
        cased, cased', rfl, htakes, haccepts⟩
    · rintro ⟨_, hsame, cased, cased', rfl, htakes, haccepts⟩
      obtain ⟨segment, rest, rfl, hsegment, hrest⟩ := SameButCase.append_iff.mp hsame
      exact ⟨segment, rest, rfl, ⟨cased, hsegment, htakes⟩, cased', hrest, haccepts⟩

end Item

namespace Automaton

variable {pattern : Bytes} {items : List Item} {options exact : Options} {locale other : Locale}

/-- When case is ignored, without a locale or with one that knows the letters of ASCII only, a compiled
pattern accepts a text exactly when the pattern compiled to heed case accepts characters that differ from
those of the text in case only. -/
theorem compile_ignoring_case_iff (h : Pattern.parse pattern = .ok items)
    (hignore : options.ignoreCase = true)
    (hmaps : options.cultureInvariant = true ∨ locale = .classic)
    (hexact : exact.ignoreCase = false) :
    ∃ a b, compile pattern options locale = .ok a ∧ compile pattern exact other = .ok b ∧
      ∀ text : Bytes, a.accepts text = true ↔
        ∃ cased, List.Forall₂ (fun c d => Case.lower d = Case.lower c) (Utf8.codePoints text) cased ∧
          (b.runOn cased .fresh).1 = true := by
  refine ⟨_, _, compile_eq_ok h options locale, compile_eq_ok h exact other, fun text => ?_⟩
  have htable : (CaseRule.of options locale).ByTable := ⟨hignore, hmaps⟩
  have hletter : (CaseRule.of exact other).ignoreCase = false := hexact
  simp only [runOn_ofItems_iff h Scratch.balanced_fresh]
  exact (runOn_ofItems_iff h Scratch.balanced_fresh).trans (Item.accepts_byTable_iff htable hletter)

/-- The pattern `[X-b]k`, whose range ends in the middle of the lower case letters. -/
theorem compile_ignoring_case_iff_straddling :
    Pattern.parse (Bytes.ascii "[X-b]k") = .ok [.oneOf [.range 0x58 0x62], .literal 0x6B] ∧
      ∃ a b, compile (Bytes.ascii "[X-b]k") (.ofFlags true true) .classic = .ok a ∧
        compile (Bytes.ascii "[X-b]k") .none .classic = .ok b ∧
        ∀ text : Bytes, a.accepts text = true ↔
          ∃ cased, List.Forall₂ (fun c d => Case.lower d = Case.lower c) (Utf8.codePoints text) cased ∧
            (b.runOn cased .fresh).1 = true :=
  have h : Pattern.parse (Bytes.ascii "[X-b]k") =
      .ok [.oneOf [.range 0x58 0x62], .literal 0x6B] := by decide +kernel
  ⟨h, compile_ignoring_case_iff h (by decide) (.inl (by decide)) (by decide)⟩

end Automaton

end NameGlob
