import NameGlob.Pattern.Item
import NameGlob.Pattern.Symbol
import NameGlob.Pattern.SyntaxError

/-!
# Reading patterns

A pattern is read from left to right. Outside bracket lists a plain `*`, `?` or `[` is special and
every other symbol is a literal. The first symbol of a bracket list is a member, whatever it is; the
first plain `]` behind it closes the list. In a closed list a plain `-` between two members makes a
range. The first fault ends the reading, and what was read before it is kept.
-/

namespace NameGlob

/-- What ends the reading of a pattern early. -/
inductive Fault where
  /-- The bracket list that begins at `offset` is not closed. -/
  | unclosedList (offset : Nat)
  /-- The range that begins at `offset` ends below its beginning. The members `before` it belong to
  the same bracket list. -/
  | invertedRange (offset : Nat) (before : List Member)
  deriving Repr, DecidableEq

/-- The result of reading a pattern: the items up to its end, or up to a fault. -/
structure Reading where
  items : List Item
  fault : Option Fault
  deriving Repr, DecidableEq

/-- A bracket list that is still open. -/
structure OpenList where
  /-- The byte offset of its `[`. -/
  offset : Nat
  /-- The symbols read since, the latest first. -/
  symbols : List Symbol
  deriving Repr, DecidableEq

/-- The members of a bracket list, up to a range that ends below its beginning, if there is one. -/
structure MemberReading where
  members : List Member
  /-- The byte offset of the inverted range behind them. -/
  inverted : Option Nat
  deriving Repr, DecidableEq

namespace Fault

def cause : Fault → SyntaxError.Cause
  | unclosedList _ => .unclosedList
  | invertedRange _ _ => .invertedRange

/-- The byte offset that a syntax error reports. -/
def offset : Fault → Nat
  | unclosedList offset => offset
  | invertedRange offset _ => offset

/-- The steps made between the last whole item and the fault. -/
def events : Fault → List Event
  | unclosedList _ => []
  | invertedRange _ before => .listStart :: before.map Member.event

end Fault

/-- Puts a member in front of a reading. -/
def MemberReading.cons (m : Member) (r : MemberReading) : MemberReading :=
  { r with members := m :: r.members }

namespace Reading

/-- Nothing is read, and nothing is left. -/
def done : Reading := ⟨[], none⟩

/-- The reading ends in a fault. -/
def fail (fault : Fault) : Reading := ⟨[], some fault⟩

/-- Puts an item in front of a reading. -/
def cons (item : Item) (r : Reading) : Reading :=
  { r with items := item :: r.items }

/-- The steps that a reading makes. -/
def events (r : Reading) : List Event :=
  r.items.flatMap Item.events ++ (r.fault.map Fault.events).getD []

end Reading

namespace Pattern

/-- Reads the symbols of a closed bracket list as members. -/
def readMembers : List Symbol → MemberReading
  | [] => ⟨[], none⟩
  | lo :: dash :: hi :: rest =>
    if dash.isPlain 0x2D then
      if hi.char < lo.char then ⟨[], some lo.offset⟩
      else (readMembers rest).cons (.range lo.char hi.char)
    else (readMembers (dash :: hi :: rest)).cons (.single lo.char)
  | s :: rest => (readMembers rest).cons (.single s.char)

/-- The item that a symbol outside bracket lists makes, unless it opens one. -/
def itemOf (s : Symbol) : Item :=
  if s.isPlain 0x2A then .anySequence
  else if s.isPlain 0x3F then .anyOne
  else .literal s.char

/-- Reads symbols as items, inside the bracket list `list?` if one is open. -/
def readSymbols (list? : Option OpenList) (symbols : List Symbol) : Reading :=
  match list?, symbols with
  | none, [] => .done
  | some list, [] => .fail (.unclosedList list.offset)
  | none, s :: rest =>
    if s.isPlain 0x5B then readSymbols (some ⟨s.offset, []⟩) rest
    else (readSymbols none rest).cons (itemOf s)
  | some list, s :: rest =>
    if s.isPlain 0x5D && !list.symbols.isEmpty then
      let r := readMembers list.symbols.reverse
      match r.inverted with
      | some offset => .fail (.invertedRange offset r.members)
      | none => (readSymbols none rest).cons (.oneOf r.members)
    else readSymbols (some { list with symbols := s :: list.symbols }) rest
termination_by structural symbols

def read (pattern : Bytes) : Reading :=
  readSymbols none (Symbol.ofPattern pattern)

/-- The items of a pattern, or its syntax error. -/
def parse (pattern : Bytes) : Except SyntaxError (List Item) :=
  let r := read pattern
  match r.fault with
  | none => .ok r.items
  | some fault => .error ⟨fault.cause, pattern, fault.offset⟩

/-- The flat account of reading a pattern. It lacks its end when the pattern has a fault. -/
def trace (pattern : Bytes) (options : Options) : List Event :=
  let r := read pattern
  .start pattern options :: r.events ++ (if r.fault.isNone then [.finish] else [])

end Pattern

end NameGlob
