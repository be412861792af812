import NameGlob.Interval.Basic

/-!
# Sets of integers as lists of intervals

An `IntervalSet b` holds integers within the bounds `b` as ascending intervals. Insertion merges
the new interval with all intervals that it overlaps or adjoins, so the intervals stay disjoint
with a gap between any two neighbours.
-/

namespace NameGlob

/-- A set of integers within the bounds `b`, kept as ascending intervals. -/
structure IntervalSet (b : Bounds) where
  /-- The intervals in ascending order. -/
  intervals : List Interval := []
  deriving Repr, DecidableEq

namespace IntervalSet

variable {b : Bounds}

def empty : IntervalSet b := {}

instance : EmptyCollection (IntervalSet b) := ⟨empty⟩

/-- Grows `grown` by the intervals at the front that overlap `reach`, and gives back the result with
the intervals that follow them. -/
def absorb (reach grown : Interval) : List Interval → Interval × List Interval
  | [] => (grown, [])
  | i :: rest => if reach.before i then (grown, i :: rest) else absorb reach (grown.hull i) rest

/-- Puts `new` between the intervals that end before `reach` and those that begin after it, merged
with the intervals that overlap `reach`. Gives back the merged interval and the whole list. -/
def place (reach new : Interval) : List Interval → Interval × List Interval
  | [] => (new, [new])
  | i :: rest =>
    if i.before reach then
      let (merged, placed) := place reach new rest
      (merged, i :: placed)
    else
      let (merged, after) := absorb reach new (i :: rest)
      (merged, merged :: after)

/-- Adds the values of `new`. Gives back the interval of the result that includes `new`, and the
result. -/
def insertAt (set : IntervalSet b) (new : Interval) : Interval × IntervalSet b :=
  let (merged, placed) := place (b.widen new) new set.intervals
  (merged, ⟨placed⟩)

def insert (set : IntervalSet b) (new : Interval) : IntervalSet b :=
  (set.insertAt new).2

def insertValue (set : IntervalSet b) (v : Int) : IntervalSet b :=
  set.insert (.single v)

/-- The interval around `v`, when `v` is in the set. -/
def find? (set : IntervalSet b) (v : Int) : Option Interval :=
  set.intervals.find? (·.contains v)

def contains (set : IntervalSet b) (v : Int) : Bool :=
  (set.find? v).isSome

def nonempty (set : IntervalSet b) : Bool :=
  !set.intervals.isEmpty

def least? (set : IntervalSet b) : Option Int :=
  set.intervals.head?.map (·.lo)

def greatest? (set : IntervalSet b) : Option Int :=
  set.intervals.getLast?.map (·.hi)

theorem contains_iff {set : IntervalSet b} {v : Int} :
    set.contains v = true ↔ ∃ i ∈ set.intervals, i.lo ≤ v ∧ v ≤ i.hi := by
  simp [contains, find?, List.find?_isSome, Interval.contains_iff]

@[simp] theorem contains_empty {v : Int} : (∅ : IntervalSet b).contains v = false := rfl

end IntervalSet

end NameGlob
