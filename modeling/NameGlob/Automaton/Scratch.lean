/-!
# Scratch space

While a text is read, a frontier holds the positions that the automaton may have reached. Each position
carries a stamp: the number of characters that had been read when the position was last added. A
position whose stamp is current is not added again. Scratch space outlives the text for which it was
used and serves automata of any size, so it is cleared before each text.
-/

namespace NameGlob

/-- The positions that are reached at some point of a text. -/
structure Frontier where
  /-- For each position, how many characters had been read when it was last added. -/
  stamps : Array (Option Nat) := #[]
  /-- The positions that are still to be processed, without the accepting one. -/
  stack : List Nat := []
  deriving Repr

namespace Frontier

/-- Tells whether position `p` was added after `pos` characters. -/
def reached (f : Frontier) (p pos : Nat) : Bool :=
  f.stamps[p]? == some (some pos)

/-- Adds position `p` after `pos` characters, unless it was added then before. The accepting position
`size` is stamped, but it needs no processing. -/
def add (f : Frontier) (p pos size : Nat) : Frontier :=
  if h : p < f.stamps.size then
    if f.stamps[p] = some pos then f
    else ⟨f.stamps.set p (some pos), if p < size then p :: f.stack else f.stack⟩
  else f

/-- Makes room for the stamps of the positions up to `size`. -/
def grow (f : Frontier) (size : Nat) : Frontier :=
  { f with stamps := f.stamps ++ Array.replicate (size + 1 - f.stamps.size) none }

/-- Forgets the stamps of the positions up to `size`, and what is still to be processed. -/
def clear (f : Frontier) (size : Nat) : Frontier :=
  ⟨Array.replicate (min (size + 1) f.stamps.size) none
    ++ f.stamps.extract (size + 1) f.stamps.size, []⟩

/-- The number of positions that are not stamped with `pos`. -/
def unreached (f : Frontier) (pos : Nat) : Nat :=
  f.stamps.countP (· != some pos)

/-- Bounds the steps that processing a frontier takes: a position that is not reached yet may be added
and then taken, a position that is reached may only be taken. -/
def measure (f : Frontier) (pos : Nat) : Nat :=
  2 * f.unreached pos + f.stack.length

/-- Adding a position either stamps one more position, or leaves what is to be processed as it is. -/
theorem add_measure_le (f : Frontier) (p pos size : Nat) :
    (f.add p pos size).measure pos ≤ f.measure pos := by
  unfold add
  split
  · rename_i h
    split
    · exact Nat.le_refl _
    · rename_i hne
      have hset : (f.stamps.set p (some pos) h).countP (· != some pos) =
          f.stamps.countP (· != some pos) - (if (f.stamps[p] != some pos) = true then 1 else 0)
            + (if (some pos != some pos) = true then 1 else 0) :=
        Array.countP_set h
      have hpos : 0 < f.stamps.countP (· != some pos) :=
        Array.countP_pos_iff.mpr ⟨f.stamps[p], Array.getElem_mem h, by simpa using hne⟩
      simp only [measure, unreached]
      rw [hset]
      simp only [bne_self_eq_false, Bool.false_eq_true, if_false, Nat.add_zero]
      have hone : (if (f.stamps[p] != some pos) = true then 1 else 0) = 1 := by simpa using hne
      rw [hone]
      split
      · simp only [List.length_cons]
        omega
      · omega
  · exact Nat.le_refl _

end Frontier

structure Scratch where
  /-- The positions reached before the character that is read. -/
  current : Frontier := {}
  /-- The positions reached after it. -/
  next : Frontier := {}
  deriving Repr

namespace Scratch

def fresh : Scratch := {}

/-- Makes room for an automaton of `size` elements. -/
def reserve (s : Scratch) (size : Nat) : Scratch :=
  if s.current.stamps.size ≤ size then ⟨s.current.grow size, s.next.grow size⟩ else s

def sizedFor (size : Nat) : Scratch :=
  fresh.reserve size

/-- Makes room for an automaton of `size` elements and forgets all that was reached. -/
def reset (s : Scratch) (size : Nat) : Scratch :=
  let s := s.reserve size
  ⟨s.current.clear size, s.next.clear size⟩

/-- Goes on to the next character. -/
def swap (s : Scratch) : Scratch := ⟨s.next, s.current⟩

end Scratch

end NameGlob
