/-!
# Closed intervals of integers
-/

namespace NameGlob

/-- The least and the greatest value of a bounded integer type. -/
structure Bounds where
  min : Int
  max : Int
  deriving Repr, DecidableEq

namespace Bounds

/-- The values of a signed 32-bit word, which hold every code point. -/
def word : Bounds := ⟨-2147483648, 2147483647⟩

def byte : Bounds := ⟨0, 255⟩

end Bounds

/-- The integers from `lo` to `hi`, both included. -/
structure Interval where
  lo : Int
  hi : Int
  deriving Repr, DecidableEq, Inhabited

namespace Interval

def single (v : Int) : Interval := ⟨v, v⟩

def contains (i : Interval) (v : Int) : Bool :=
  i.lo ≤ v && v ≤ i.hi

def before (i j : Interval) : Bool :=
  i.hi < j.lo

/-- The smallest interval that includes both. -/
def hull (i j : Interval) : Interval :=
  ⟨if j.lo < i.lo then j.lo else i.lo, if i.hi < j.hi then j.hi else i.hi⟩

theorem contains_iff {i : Interval} {v : Int} : i.contains v = true ↔ i.lo ≤ v ∧ v ≤ i.hi := by
  simp [contains]

@[simp] theorem contains_single {v w : Int} : (single v).contains w = true ↔ w = v := by
  simp only [contains_iff, single]
  omega

end Interval

/-- The interval grown by one value on either side, as far as the bounds allow. Intervals that
overlap the result are those that overlap or adjoin the interval itself. -/
def Bounds.widen (b : Bounds) (i : Interval) : Interval :=
  ⟨if b.min < i.lo then i.lo - 1 else i.lo, if i.hi < b.max then i.hi + 1 else i.hi⟩

end NameGlob
