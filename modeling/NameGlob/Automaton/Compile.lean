import NameGlob.Automaton.Basic
import NameGlob.Pattern.Reading

/-!
# Compiling patterns

The characters of a pattern are folded once, when it is compiled; only ranges are kept as they are
written. Neighbouring `*` make one element.
-/

namespace NameGlob

/-- Adds a member of a bracket list: a single character in its folded form, a range as written. -/
def CharSet.addMember (rule : CaseRule) (set : CharSet) : Member → CharSet
  | .single c => set.insertValue (rule.fold c)
  | .range lo hi => set.insert ⟨lo, hi⟩

/-- The set of the members of a bracket list. -/
def CharSet.ofMembers (rule : CaseRule) (members : List Member) : CharSet :=
  members.foldl (CharSet.addMember rule) ∅

namespace Automaton

def empty (rule : CaseRule) : Automaton := ⟨rule, #[], #[]⟩

def push (a : Automaton) (element : Element) : Automaton :=
  { a with elements := a.elements.push element }

def addItem (a : Automaton) : Item → Automaton
  | .literal c => a.push (.literal (a.rule.fold c))
  | .anyOne => a.push .anyOne
  | .anySequence => if a.elements.back? = some .anySequence then a else a.push .anySequence
  | .oneOf members =>
    { a with
      elements := a.elements.push (.bracket a.sets.size)
      sets := a.sets.push (.ofMembers a.rule members) }

def ofItems (rule : CaseRule) (items : List Item) : Automaton :=
  items.foldl addItem (empty rule)

/-- The automaton of a pattern under these options and this locale, or the syntax error of the
pattern. -/
def compile (pattern : Bytes) (options : Options) (locale : Locale) :
    Except SyntaxError Automaton :=
  match Pattern.parse pattern with
  | .ok items => .ok (ofItems (.of options locale) items)
  | .error e => .error e

end Automaton

end NameGlob
