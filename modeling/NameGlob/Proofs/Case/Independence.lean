import NameGlob.Proofs.Automaton.Verdict
import NameGlob.Proofs.Case.Folding

/-!
# What matching does not depend on

Of the options, two flags reach the case rule and the other bits reach nothing. Of the locale, nothing is seen
when case is heeded or when the rule folds by the case table. Rules that see characters alike give the same
verdicts.
-/

namespace NameGlob

namespace CaseRule

variable {rule other : CaseRule}

/-- Two rules fold characters alike and look them up in bracket lists in the same forms. -/
structure Alike (rule other : CaseRule) : Prop where
  ignoreCase : rule.ignoreCase = other.ignoreCase
  fold : rule.fold = other.fold
  upper : rule.upper = other.upper

namespace Alike

theorem symm (h : rule.Alike other) : other.Alike rule :=
  ⟨h.ignoreCase.symm, h.fold.symm, h.upper.symm⟩

theorem of_not_ignoreCase (h : rule.ignoreCase = false) (h' : other.ignoreCase = false) :
    rule.Alike other where
  ignoreCase := h.trans h'.symm
  fold := by
    funext c
    rw [fold_of_not_ignoreCase h, fold_of_not_ignoreCase h']
  upper := by
    funext c
    simp [CaseRule.upper, h, h']

theorem of_byTable (h : rule.ByTable) (h' : other.ByTable) : rule.Alike other where
  ignoreCase := h.1.trans h'.1.symm
  fold := by
    funext c
    rw [h.fold_eq_lower, h'.fold_eq_lower]
  upper := by
    funext c
    rw [h.upper_eq_upper, h'.upper_eq_upper]

theorem lookedUpAs_iff (h : rule.Alike other) {c x : CodePoint} :
    rule.LookedUpAs c x ↔ other.LookedUpAs c x := by
  unfold LookedUpAs
  rw [h.ignoreCase, h.fold, h.upper]

theorem admits_iff (h : rule.Alike other) {m : Member} {x : CodePoint} :
    m.Admits rule x ↔ m.Admits other x := by
  cases m with
  | single l =>
    unfold Member.Admits
    rw [h.fold]
  | range lo hi => exact Iff.rfl

end Alike

end CaseRule

namespace Item

variable {rule other : CaseRule} {item : Item} {items : List Item} {text segment : List CodePoint}

theorem Takes.alike (h : rule.Alike other) (htakes : item.Takes rule segment) :
    item.Takes other segment := by
  cases item with
  | literal l =>
    obtain ⟨c, rfl, hc⟩ := htakes
    exact ⟨c, rfl, by rwa [← h.fold]⟩
  | anyOne => exact htakes
  | anySequence => trivial
  | oneOf members =>
    obtain ⟨c, rfl, x, hx, m, hm, hadmits⟩ := htakes
    exact ⟨c, rfl, x, h.lookedUpAs_iff.mp hx, m, hm, h.admits_iff.mp hadmits⟩

theorem Accepts.alike (h : rule.Alike other) : Accepts rule items text ↔ Accepts other items text := by
  constructor
  · intro haccepts
    exact haccepts.imp fun _ _ _ _ => Takes.alike h
  · intro haccepts
    exact haccepts.imp fun _ _ _ _ => Takes.alike h.symm

end Item

namespace Automaton

variable {o₁ o₂ : Options} {l₁ l₂ : Locale}

theorem verdict_eq_of_alike (h : (CaseRule.of o₁ l₁).Alike (.of o₂ l₂)) (pattern text : Bytes) :
    verdict pattern o₁ l₁ text = verdict pattern o₂ l₂ text :=
  verdict_eq_of_accepts_iff fun _ _ _ => Item.Accepts.alike h

/-- Two choices of options and locale give the same verdicts when neither ignores case, when both ignore
it without a locale, when both ignore it without a locale or with the classic one, and when they share the
locale and the two flags that steer matching. -/
theorem verdict_independent
    (h : (o₁.ignoreCase = false ∧ o₂.ignoreCase = false) ∨
      ((o₁.ignoreCase = true ∧ o₁.cultureInvariant = true) ∧
        (o₂.ignoreCase = true ∧ o₂.cultureInvariant = true)) ∨
      ((o₁.ignoreCase = true ∧ o₂.ignoreCase = true) ∧
        (o₁.cultureInvariant = true ∨ l₁ = .classic) ∧
        (o₂.cultureInvariant = true ∨ l₂ = .classic)) ∨
      (l₁ = l₂ ∧ o₁.ignoreCase = o₂.ignoreCase ∧ o₁.cultureInvariant = o₂.cultureInvariant))
    (pattern text : Bytes) : verdict pattern o₁ l₁ text = verdict pattern o₂ l₂ text := by
  refine verdict_eq_of_alike ?_ pattern text
  rcases h with ⟨h₁, h₂⟩ | ⟨h₁, h₂⟩ | ⟨⟨h₁, h₂⟩, hmaps₁, hmaps₂⟩ | ⟨rfl, hignore, hinvariant⟩
  · exact .of_not_ignoreCase h₁ h₂
  · exact .of_byTable ⟨h₁.1, .inl h₁.2⟩ ⟨h₂.1, .inl h₂.2⟩
  · exact .of_byTable ⟨h₁, hmaps₁⟩ ⟨h₂, hmaps₂⟩
  · have hrule : CaseRule.of o₁ l₁ = .of o₂ l₁ := by
      unfold CaseRule.of
      rw [hignore, hinvariant]
    rw [hrule]
    exact ⟨rfl, rfl, rfl⟩

/-- A locale with a dotless `ı` is not asked when case does not depend on it, so the pattern `[H-J]?`
accepts the same texts as in the classic locale. -/
theorem verdict_independent_dotless :
    (Options.ofFlags true true).ignoreCase = true ∧ (Options.ofFlags true false).ignoreCase = true ∧
      ∀ text, verdict (Bytes.ascii "[H-J]?") (.ofFlags true true)
          (.ofPairs [(0x49, 0x131)] [(0x131, 0x49)]) text =
        verdict (Bytes.ascii "[H-J]?") (.ofFlags true false) .classic text :=
  ⟨by decide, by decide, fun text => verdict_independent
    (.inr (.inr (.inl ⟨⟨by decide, by decide⟩, .inl (by decide), .inr rfl⟩))) _ text⟩

end Automaton

end NameGlob
