import NameGlob.Case.Rule
import NameGlob.Interval.Set

/-!
# Automata

A pattern is compiled to a row of elements. A position `p` stands before element `p`; an element that
takes one character leads from its position to the next one, and the element of `*` stays where it is
with any character and moves on with none. The position behind the last element accepts.
-/

namespace NameGlob

/-- A set of characters. -/
abbrev CharSet := IntervalSet Bounds.word

/-- An element of a compiled pattern. -/
inductive Element where
  /-- Takes the characters whose folded form is `c`. -/
  | literal (c : CodePoint)
  | anyOne
  | anySequence
  /-- Takes one character out of the set with this index. -/
  | bracket (index : Nat)
  deriving Repr, DecidableEq

structure Automaton where
  rule : CaseRule
  elements : Array Element
  /-- The sets to which bracket elements refer. -/
  sets : Array CharSet

namespace Automaton

def size (a : Automaton) : Nat :=
  a.elements.size

/-- Tells whether a set holds the folded character `c`, or its upper case form when case is ignored. -/
def holds (rule : CaseRule) (set : CharSet) (c : CodePoint) : Bool :=
  set.contains c || (rule.ignoreCase && set.contains (rule.upper c))

/-- Tells whether an element takes the folded character `c` and moves on to the next position. -/
def admits (a : Automaton) (element : Element) (c : CodePoint) : Bool :=
  match element with
  | .literal l => l == c
  | .anyOne => true
  | .anySequence => false
  | .bracket index => (a.sets[index]?).any (holds a.rule · c)

end Automaton

end NameGlob
