import NameGlob.Automaton.Basic
import NameGlob.Automaton.Scratch

/-!
# Running an automaton on a text

The frontier of the positions that the text read so far may have reached is carried from character to
character. A position of `*` leads on without a character, so positions are added to the frontier while
it is processed; each position is added at most once for each character, so this ends. The text is
accepted when the accepting position is reached behind its last character.

## Main definitions

- `Automaton.visit` — follows the element at one position
- `Automaton.step?` — processes one position of the frontier
- `Automaton.drain` — follows the elements at all positions of the frontier
- `Automaton.runWith` — decides a text with given scratch space
- `Automaton.accepts` — decides a text
-/

namespace NameGlob

namespace Automaton

/-- Follows the element at position `p` after `pos` characters. The next character is `c?`, in folded
form, or there is none. -/
def visit (a : Automaton) (pos : Nat) (c? : Option CodePoint) (p : Nat) (s : Scratch) : Scratch :=
  match a.elements[p]? with
  | none => s
  | some .anySequence =>
    let s := { s with current := s.current.add (p + 1) pos a.size }
    if c?.isSome then { s with next := s.next.add p (pos + 1) a.size } else s
  | some element =>
    if c?.any (a.admits element) then { s with next := s.next.add (p + 1) (pos + 1) a.size } else s

theorem visit_measure_le (a : Automaton) (pos : Nat) (c? : Option CodePoint) (p : Nat) (s : Scratch) :
    (a.visit pos c? p s).current.measure pos ≤ s.current.measure pos := by
  unfold visit
  split
  · exact Nat.le_refl _
  · dsimp only
    split
    · exact s.current.add_measure_le (p + 1) pos a.size
    · exact s.current.add_measure_le (p + 1) pos a.size
  · split
    · exact Nat.le_refl _
    · exact Nat.le_refl _

/-- Takes a position off the frontier and follows the element there, if a position is left. -/
@[inline] def step? (a : Automaton) (pos : Nat) (c? : Option CodePoint) (s : Scratch) :
    Option Scratch :=
  match s.current.stack with
  | [] => none
  | p :: rest => some (a.visit pos c? p { s with current := { s.current with stack := rest } })

theorem step?_measure_lt {a : Automaton} {pos : Nat} {c? : Option CodePoint} {s s' : Scratch}
    (h : a.step? pos c? s = some s') : s'.current.measure pos < s.current.measure pos := by
  unfold step? at h
  split at h
  · simp at h
  · rename_i p rest hstack
    obtain rfl := Option.some.inj h
    have hvisit := a.visit_measure_le pos c? p { s with current := { s.current with stack := rest } }
    simp only [Frontier.measure, Frontier.unreached, hstack, List.length_cons] at *
    omega

/-- Follows the elements at all positions that are to be processed, and at those that are added on
the way. -/
def drain (a : Automaton) (pos : Nat) (c? : Option CodePoint) (s : Scratch) : Scratch :=
  match _step : a.step? pos c? s with
  | none => s
  | some s' => drain a pos c? s'
termination_by s.current.measure pos
decreasing_by exact step?_measure_lt _step

/-- Reads the characters of a text, of which `pos` were read before. Tells whether the accepting
position is reached behind the last one, and gives the scratch space back. -/
def read (a : Automaton) (pos : Nat) (text : List CodePoint) (s : Scratch) : Bool × Scratch :=
  match text with
  | [] =>
    let s := a.drain pos none s
    (s.current.reached a.size pos, s)
  | c :: rest =>
    if s.current.stack.isEmpty then (false, s)
    else a.read (pos + 1) rest (a.drain pos (some (a.rule.fold c)) s).swap

/-- Decides a text with scratch space that earlier matches may have used. -/
def runWith (a : Automaton) (text : Bytes) (s : Scratch) : Bool × Scratch :=
  let s := s.reset a.size
  a.read 0 (Utf8.codePoints text) { s with current := s.current.add 0 0 a.size }

def accepts (a : Automaton) (text : Bytes) : Bool :=
  (a.runWith text .fresh).1

end Automaton

end NameGlob
