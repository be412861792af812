import NameGlob.Options
import NameGlob.Case.Locale

/-!
# Case rules

A case rule says how a pattern treats the case of letters. When case is ignored, every character of
the pattern and of a text is folded to lower case first. A rule that depends on the culture asks its
locale first, and falls back on `Case.lower` and `Case.upper` for letters that the locale leaves as
they are.
-/

namespace NameGlob

structure CaseRule where
  ignoreCase : Bool
  /-- The locale is not asked. -/
  invariant : Bool
  /-- The locale to ask first. -/
  locale : Locale

namespace CaseRule

def of (options : Options) (locale : Locale) : CaseRule :=
  ⟨options.ignoreCase, options.cultureInvariant, locale⟩

/-- Asks the map of a locale, and takes `fallback` where the map leaves a code point as it is. Values
outside the range of Unicode are left alone. -/
def viaLocale (map fallback : CodePoint → CodePoint) (c : CodePoint) : CodePoint :=
  if c < 0 ∨ Utf8.maxCodePoint < c then c
  else if map c ≠ c then map c
  else fallback c

/-- The form of a character in which it is compared: lower case when case is ignored. -/
def fold (rule : CaseRule) (c : CodePoint) : CodePoint :=
  if !rule.ignoreCase then c
  else if rule.invariant then Case.lower c
  else viaLocale rule.locale.lower Case.lower c

/-- The upper case form of a character when case is ignored, and the character itself otherwise. -/
def upper (rule : CaseRule) (c : CodePoint) : CodePoint :=
  if !rule.ignoreCase then c
  else if rule.invariant then Case.upper c
  else viaLocale rule.locale.upper Case.upper c

@[simp] theorem fold_of_not_ignoreCase {rule : CaseRule} (h : rule.ignoreCase = false)
    (c : CodePoint) : rule.fold c = c := by
  simp [fold, h]

end CaseRule

end NameGlob
