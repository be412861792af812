import NameGlob.Glob
import NameGlob.Proofs.Automaton.Matching

/-!
# Verdicts

A pattern and a text have a verdict: the syntax error of the pattern, or whether the pattern accepts the
text. It is the verdict of an automaton that was compiled for the purpose and runs with fresh scratch space,
and so what every other way to match is measured by.
-/

namespace NameGlob.Automaton

variable {pattern text : Bytes} {items : List Item} {rule : CaseRule} {options other : Options}
  {locale locale' : Locale}

/-- The syntax error of a pattern, or whether its automaton accepts the text. -/
def verdict (pattern : Bytes) (options : Options) (locale : Locale) (text : Bytes) :
    Except SyntaxError Bool :=
  (compile pattern options locale).map (·.accepts text)

theorem accepts_ofItems_iff (h : Pattern.parse pattern = .ok items) :
    (ofItems rule items).accepts text = true ↔ Item.Accepts rule items (Utf8.codePoints text) :=
  runOn_ofItems_iff h Scratch.balanced_fresh

theorem verdict_of_parse_ok (h : Pattern.parse pattern = .ok items) :
    verdict pattern options locale text = .ok ((ofItems (.of options locale) items).accepts text) := by
  rw [verdict, compile_eq_ok h]
  rfl

theorem verdict_of_parse_error {e : SyntaxError} (h : Pattern.parse pattern = .error e) :
    verdict pattern options locale text = .error e := by
  rw [verdict, compile, h]
  rfl

/-- Two case rules under which the items accept the same texts give the same verdict. A syntax error does
not depend on the rule at all. -/
theorem verdict_eq_of_accepts_iff
    (h : ∀ items, Pattern.parse pattern = .ok items → ∀ cs,
      (Item.Accepts (.of options locale) items cs ↔ Item.Accepts (.of other locale') items cs)) :
    verdict pattern options locale text = verdict pattern other locale' text := by
  cases hparse : Pattern.parse pattern with
  | error e => rw [verdict_of_parse_error hparse, verdict_of_parse_error hparse]
  | ok items =>
    have hiff : (ofItems (.of options locale) items).accepts text =
        (ofItems (.of other locale') items).accepts text := by
      rw [Bool.eq_iff_iff, accepts_ofItems_iff hparse, accepts_ofItems_iff hparse]
      exact h items hparse (Utf8.codePoints text)
    rw [verdict_of_parse_ok hparse, verdict_of_parse_ok hparse, hiff]

theorem parse_star : Pattern.parse Glob.star = .ok [.anySequence] := by decide +kernel

theorem verdict_star (options : Options) (locale : Locale) (text : Bytes) :
    verdict Glob.star options locale text = .ok true := by
  have haccepts : (ofItems (.of options locale) [.anySequence]).accepts text = true := by
    rw [accepts_ofItems_iff parse_star, Item.accepts_singleton_iff]
    trivial
  rw [verdict_of_parse_ok parse_star, haccepts]

end NameGlob.Automaton
