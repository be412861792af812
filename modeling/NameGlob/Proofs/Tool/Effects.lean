import NameGlob.Proofs.Tool.ConfigLines
import NameGlob.Proofs.Tool.Operands

/-!
# What directives do to the settings

A flag is set when a directive sets it, in whichever order the directives stand. Patterns and operands are kept in
their order, and of the characters that escaping leaves as they are those that were given last.
-/

namespace NameGlob.Tool

namespace Settings

/-- Tells whether a flag is set. -/
def has (s : Settings) : Flag → Bool
  | .count => s.count
  | .cultureInvariant => s.cultureInvariant
  | .decompress => s.decompress
  | .dos => s.dos
  | .escape => s.escape
  | .hasWildcards => s.hasWildcards
  | .ignoreCase => s.ignoreCase
  | .invertMatch => s.invertMatch
  | .regex => s.regex
  | .unescape => s.unescape
  | .wql => s.wql

end Settings

namespace Directive

/-- Tells whether a directive sets a flag. Characters for escaping set the flag to escape. -/
def sets (flag : Flag) : Directive → Bool
  | .set other => other = flag
  | .keep _ => Flag.escape = flag
  | _ => false

/-- The pattern that a directive adds in a role. -/
def pattern? (role : Role) : Directive → Option Bytes
  | .pattern other value => if other = role then some value else none
  | _ => none

/-- The characters that a directive tells to leave as they are. -/
def kept? : Directive → Option Bytes
  | .keep chars => some chars
  | _ => none

/-- The directive changes the settings, or adds an operand. -/
def IsOwn : Directive → Prop
  | .set _ | .keep _ | .pattern _ _ | .operand _ => True
  | _ => False

end Directive

/-- The settings `after` are the settings `before` with what the directives ask for. -/
structure Settings.Extends (before : Settings) (asked : List Directive) (after : Settings) : Prop where
  flags : ∀ flag, after.has flag = (before.has flag || asked.any (·.sets flag))
  includes : after.includes = before.includes ++ asked.filterMap (·.pattern? .including)
  excludes : after.excludes = before.excludes ++ asked.filterMap (·.pattern? .excluding)
  operands : after.operands = before.operands ++ asked.filterMap Directive.operand?
  keptChars : after.keptChars = (asked.filterMap Directive.kept?).getLast?.getD before.keptChars

section Effects

variable {before middle after : Settings} {d : Directive} {ds es : List Directive}

namespace Settings.Extends

theorem refl (s : Settings) : Extends s [] s := by
  constructor <;> simp

theorem trans (h : Extends before ds middle) (h' : Extends middle es after) : Extends before (ds ++ es) after where
  flags flag := by rw [h'.flags, h.flags, List.any_append, Bool.or_assoc]
  includes := by rw [h'.includes, h.includes, List.filterMap_append, List.append_assoc]
  excludes := by rw [h'.excludes, h.excludes, List.filterMap_append, List.append_assoc]
  operands := by rw [h'.operands, h.operands, List.filterMap_append, List.append_assoc]
  keptChars := by
    rw [h'.keptChars, h.keptChars, List.filterMap_append, List.getLast?_append]
    cases (es.filterMap Directive.kept?).getLast? <;> rfl

end Settings.Extends

theorem Settings.has_set (s : Settings) (flag other : Flag) :
    (s.set flag).has other = (s.has other || flag = other) := by
  cases flag <;> cases other <;> simp [Settings.set, Settings.has]

theorem Settings.extends_set (s : Settings) (flag : Flag) : Extends s [.set flag] (s.set flag) := by
  constructor
  · intro other
    rw [has_set]
    simp [Directive.sets]
  all_goals cases flag <;> simp [Settings.set, Directive.pattern?, Directive.operand?, Directive.kept?]

theorem Settings.extends_keep (s : Settings) (chars : Bytes) :
    Extends s [.keep chars] { s with escape := true, keptChars := chars } := by
  constructor
  · intro flag
    cases flag <;> simp [has, Directive.sets]
  all_goals simp [Directive.pattern?, Directive.operand?, Directive.kept?]

theorem Settings.extends_pattern (s : Settings) (role : Role) (value : Bytes) :
    Extends s [.pattern role value] (s.addPattern value role) := by
  constructor
  · intro flag
    cases role <;> cases flag <;> simp [addPattern, has, Directive.sets]
  all_goals cases role <;> simp [addPattern, Directive.pattern?, Directive.operand?, Directive.kept?]

theorem Settings.extends_operand (s : Settings) (value : Bytes) :
    Extends s [.operand value] { s with operands := s.operands ++ [value] } := by
  constructor
  · intro flag
    cases flag <;> simp [has, Directive.sets]
  all_goals simp [Directive.pattern?, Directive.operand?, Directive.kept?]

/-- A directive that reads no file and ends no run changes the settings by what it asks for, and nothing else. -/
theorem Session.exists_performOne_of_isOwn (h : d.IsOwn) (env : Environment) (inConfig : Bool)
    (loadConfig : Bytes → Session → Except Outcome Session) (s : Session) :
    ∃ settings, performOne env inConfig loadConfig s d = .ok { s with settings := settings } ∧
      Settings.Extends s.settings [d] settings := by
  cases d with
  | set flag => exact ⟨_, rfl, s.settings.extends_set flag⟩
  | keep chars => exact ⟨_, rfl, s.settings.extends_keep chars⟩
  | pattern role value => exact ⟨_, rfl, s.settings.extends_pattern role value⟩
  | operand value => exact ⟨_, rfl, s.settings.extends_operand value⟩
  | config | help | version | misuse => exact h.elim

/-- Changes of the settings leave what they ask for. -/
theorem Settings.extends_foldl_apply (h : ∀ d ∈ ds, d.IsChange) (s : Settings) :
    Extends s ds (ds.foldl Directive.apply s) := by
  induction ds generalizing s with
  | nil => exact .refl s
  | cons d ds ih =>
    rw [List.forall_mem_cons] at h
    have hfirst : Extends s [d] (d.apply s) := by
      cases h.1 with
      | set flag => exact s.extends_set flag
      | keep chars => exact s.extends_keep chars
      | pattern role value => exact s.extends_pattern role value
    exact hfirst.trans (ih h.2 _)

end Effects

end NameGlob.Tool
