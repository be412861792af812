import Mathlib.Data.List.Nodup
import Mathlib.Data.List.Perm.Subperm
import Mathlib.Data.List.ProdSigma
import NameGlob.Proofs.Glob.Agreement

/-!
# The work of a match

A match goes on in small moves: a character is begun, a position is taken off the stack and followed, or the
frontiers change places. Positions are pushed on the stack from which others are taken, so the height of that stack
does not bound the work. But a position that is pushed gets the stamp of the point of the text for which it is
pushed, and it is not pushed while it bears that stamp. So each position is pushed at most once for each point of
the text, and no more positions can be taken than were pushed.

## Main definitions

- `Moment` — a match between two moves, with a record of the positions that were pushed
- `Automaton.advance?` — the next move
- `Automaton.Reaches` — what is reached after a number of moves
- `Frontier.Recorded` — what a frontier pushes goes to the record
- `Moment.Accounted` — the invariant: the stacks and the record agree with the stamps
-/

namespace NameGlob

/-- What a stack holds on top of what it held before. -/
def gained (before after : List Nat) : List Nat :=
  after.take (after.length - before.length)

theorem gained_append {before after : List Nat} (h : before <:+ after) : gained before after ++ before = after := by
  obtain ⟨new, rfl⟩ := h
  simp [gained]

namespace Frontier

variable {f f' : Frontier} {p q pos size : Nat} {added : Nat → Prop}

theorem suffix_stack_add (f : Frontier) (p pos size : Nat) : f.stack <:+ (f.add p pos size).stack := by
  unfold add
  split
  · split
    · exact List.suffix_rfl
    · dsimp only
      split
      · exact List.suffix_cons p f.stack
      · exact List.suffix_rfl
  · exact List.suffix_rfl

/-- What a frontier pushes for a point of the text goes from `record` to `record'`. -/
structure Recorded (record record' : List (Nat × Nat)) (f f' : Frontier) (pos size : Nat) : Prop where
  once : record'.Nodup
  stamped : ∀ q, (pos, q) ∈ record' → f'.reached q pos = true
  origin : ∀ k q, (k, q) ∈ record' → (k, q) ∈ record ∨ k = pos ∧ q < size ∧ q ∈ f'.stack ∧ q ∉ f.stack
  balance : record'.length + f.stack.length = record.length + f'.stack.length

/-- What is pushed goes to the record. A position that is recorded bears its stamp, so it is not pushed again. -/
theorem Grows.recorded (h : f.Grows f' pos size added) (hsuffix : f.stack <:+ f'.stack) {record : List (Nat × Nat)}
    (honce : record.Nodup) (hstamped : ∀ q, (pos, q) ∈ record → f.reached q pos = true) :
    Recorded record (record ++ (gained f.stack f'.stack).map (pos, ·)) f f' pos size := by
  have hstack := gained_append hsuffix
  have hnodup : (gained f.stack f'.stack ++ f.stack).Nodup := hstack.symm ▸ h.valid.nodup
  obtain ⟨hgained, -, hapart⟩ := List.nodup_append.mp hnodup
  have hnew : ∀ q ∈ gained f.stack f'.stack, q ∈ f'.stack ∧ q ∉ f.stack := by
    intro q hq
    exact ⟨hstack ▸ List.mem_append_left _ hq, fun hold => hapart q hq q hold rfl⟩
  constructor
  case once =>
    refine List.nodup_append.mpr ⟨honce, hgained.map fun _ _ h => (Prod.mk.inj h).2, ?_⟩
    rintro entry hentry _ hpushed rfl
    obtain ⟨q, hq, rfl⟩ := List.mem_map.mp hpushed
    obtain ⟨hmem, hout⟩ := hnew q hq
    -- it was pushed because it did not bear the stamp yet, which the record says it did
    obtain ⟨-, -, hfresh⟩ := ((h.pending_iff q).mp hmem).resolve_left hout
    exact Bool.noConfusion ((hstamped q hentry).symm.trans hfresh)
  case stamped =>
    intro q hmem
    rcases List.mem_append.mp hmem with hold | hpushed
    · exact (h.reached_iff q).mpr (.inl (hstamped q hold))
    · obtain ⟨r, hr, hpair⟩ := List.mem_map.mp hpushed
      obtain ⟨-, rfl⟩ := Prod.mk.inj hpair
      exact (h.valid.pending r (hnew r hr).1).2
  case origin =>
    intro k q hmem
    rcases List.mem_append.mp hmem with hold | hpushed
    · exact .inl hold
    · obtain ⟨r, hr, hpair⟩ := List.mem_map.mp hpushed
      obtain ⟨rfl, rfl⟩ := Prod.mk.inj hpair
      exact .inr ⟨rfl, (h.valid.pending r (hnew r hr).1).1, hnew r hr⟩
  case balance =>
    rw [List.length_append, List.length_map, Nat.add_assoc, ← List.length_append, hstack]

theorem Valid.length_stack_le (h : f.Valid pos size) : f.stack.length ≤ size := by
  have hsub : f.stack ⊆ List.range size := fun p hp => List.mem_range.mpr (h.pending p hp).1
  simpa using (h.nodup.subperm hsub).length_le

end Frontier

/-- A match between two of its moves. -/
structure Moment where
  /-- The number of characters behind which the frontier stands. -/
  pos : Nat
  /-- The character with which positions are followed, in folded form, when it was begun. -/
  reading : Option CodePoint
  /-- The characters that were not begun. -/
  rest : List CodePoint
  scratch : Scratch
  /-- The number of positions that were taken off a stack. -/
  taken : Nat
  /-- The positions that were pushed on a stack, each behind the point of the text for which it was pushed. -/
  pushed : List (Nat × Nat)

namespace Moment

/-- A position is taken and followed. What this pushes on the two stacks is recorded. -/
def take (m : Moment) (after : Scratch) : Moment :=
  { m with
    scratch := after
    taken := m.taken + 1
    pushed := m.pushed ++ (gained m.scratch.current.stack.tail after.current.stack).map (m.pos, ·) ++
      (gained m.scratch.next.stack after.next.stack).map (m.pos + 1, ·) }

/-- The last point of the text for which positions may have been pushed. -/
def front (m : Moment) : Nat :=
  m.pos + m.reading.toList.length

end Moment

namespace Automaton

/-- The first moment of a match. -/
def begin (a : Automaton) (text : List CodePoint) (s : Scratch) : Moment :=
  let cleared := s.reset a.size
  let current := cleared.current.add 0 0 a.size
  { pos := 0
    reading := none
    rest := text
    scratch := { cleared with current := current }
    taken := 0
    pushed := (gained cleared.current.stack current.stack).map (0, ·) }

/-- The next move of a match, if it is not at its end. A character is begun while a position is left. Positions are
taken while there are any, and then the frontiers change places. -/
def advance? (a : Automaton) (m : Moment) : Option Moment :=
  match m.reading, m.rest with
  | some c, _ =>
    match a.step? m.pos (some c) m.scratch with
    | some s => some (m.take s)
    | none => some { m with pos := m.pos + 1, reading := none, scratch := m.scratch.swap }
  | none, c :: rest =>
    if m.scratch.current.stack.isEmpty then none
    else some { m with reading := some (a.rule.fold c), rest := rest }
  | none, [] => (a.step? m.pos none m.scratch).map m.take

/-- The moment `m'` is reached from `m` in `k` moves. -/
inductive Reaches (a : Automaton) (m : Moment) : Nat → Moment → Prop
  | refl : Reaches a m 0 m
  | move {k : Nat} {m' m'' : Moment} (h : Reaches a m k m') (hnext : a.advance? m' = some m'') :
      Reaches a m (k + 1) m''

/-- The answer at the end of a match: all characters were read, and the accepting position is reached. -/
def answer (a : Automaton) (m : Moment) : Bool :=
  m.rest.isEmpty && m.scratch.current.reached a.size m.pos

/-- What the rest of a match gives. -/
def result (a : Automaton) (m : Moment) : Bool × Scratch :=
  match m.reading with
  | none => a.read m.pos m.rest m.scratch
  | some c => a.read (m.pos + 1) m.rest (a.drain m.pos (some c) m.scratch).swap

variable {a : Automaton} {m m' : Moment} {k n pos p : Nat} {c? : Option CodePoint} {text : List CodePoint}
  {s s' : Scratch}

/-- The moves: a character is begun, a position is taken, or the frontiers change places. -/
theorem advance?_cases (h : a.advance? m = some m') :
    (∃ c rest, m.reading = none ∧ m.rest = c :: rest ∧ m.scratch.current.stack ≠ [] ∧
      m' = { m with reading := some (a.rule.fold c), rest := rest }) ∨
    (∃ s, (m.reading = none → m.rest = []) ∧ a.step? m.pos m.reading m.scratch = some s ∧ m' = m.take s) ∨
    ∃ c, m.reading = some c ∧ a.step? m.pos (some c) m.scratch = none ∧
      m' = { m with pos := m.pos + 1, reading := none, scratch := m.scratch.swap } := by
  rw [advance?] at h
  split at h
  · rename_i c hreading
    split at h
    · rename_i s hstep
      exact .inr (.inl ⟨s, by simp [hreading], by rw [hreading, hstep], (Option.some.inj h).symm⟩)
    · rename_i hstep
      exact .inr (.inr ⟨c, hreading, hstep, (Option.some.inj h).symm⟩)
  · rename_i c rest hreading hrest
    split at h
    · cases h
    · rename_i hpending
      exact .inl ⟨c, rest, hreading, hrest, by simpa using hpending, (Option.some.inj h).symm⟩
  · rename_i hreading hrest
    obtain ⟨s, hstep, rfl⟩ := Option.map_eq_some_iff.mp h
    exact .inr (.inl ⟨s, fun _ => hrest, by rw [hreading, hstep], rfl⟩)

theorem stack_of_step?_eq_none (h : a.step? pos c? s = none) : s.current.stack = [] := by
  unfold step? at h
  split at h
  · assumption
  · cases h

theorem suffix_stack_visit (a : Automaton) (pos : Nat) (c? : Option CodePoint) (p : Nat) (s : Scratch) :
    s.current.stack <:+ (a.visit pos c? p s).current.stack ∧ s.next.stack <:+ (a.visit pos c? p s).next.stack := by
  unfold visit
  split
  · exact ⟨List.suffix_rfl, List.suffix_rfl⟩
  · dsimp only
    split
    · exact ⟨Frontier.suffix_stack_add _ _ _ _, Frontier.suffix_stack_add _ _ _ _⟩
    · exact ⟨Frontier.suffix_stack_add _ _ _ _, List.suffix_rfl⟩
  · split
    · exact ⟨List.suffix_rfl, Frontier.suffix_stack_add _ _ _ _⟩
    · exact ⟨List.suffix_rfl, List.suffix_rfl⟩

/-- Without a character nothing is pushed on the next stack. -/
theorem next_visit_none (a : Automaton) (pos p : Nat) (s : Scratch) : (a.visit pos none p s).next = s.next := by
  unfold visit
  split
  · rfl
  · rfl
  · rfl

/-- What a step does: the top of the stack is taken, and each frontier gains what is reached from there. -/
theorem grows_step? (hcurrent : s.current.Valid pos a.size) (hnext : s.next.Valid (pos + 1) a.size)
    (h : a.step? pos c? s = some s') :
    ∃ p rest, s.current.stack = p :: rest ∧
      (rest <:+ s'.current.stack ∧
        (Frontier.mk s.current.stamps rest).Grows s'.current pos a.size (a.Skips p)) ∧
      s.next.stack <:+ s'.next.stack ∧
        s.next.Grows s'.next (pos + 1) a.size (fun q => ∃ c ∈ c?, a.Takes c p q) ∧
      (c? = none → s'.next = s.next) := by
  unfold step? at h
  split at h
  · cases h
  · rename_i p rest hstack
    obtain rfl := Option.some.inj h
    let popped : Scratch := { s with current := { s.current with stack := rest } }
    obtain ⟨hgrows, hgrows'⟩ := @grows_visit a pos p c? popped (hcurrent.pop hstack) hnext
    obtain ⟨hsuffix, hsuffix'⟩ := a.suffix_stack_visit pos c? p popped
    refine ⟨p, rest, hstack, ⟨hsuffix, hgrows⟩, hsuffix', hgrows', ?_⟩
    rintro rfl
    exact a.next_visit_none pos p popped

end Automaton

/-- At this moment of a match with a text of `n` characters, the stacks and the record of what was pushed agree with
the stamps. -/
structure Moment.Accounted (a : Automaton) (n : Nat) (m : Moment) : Prop where
  current : m.scratch.current.Valid m.pos a.size
  next : m.scratch.next.Valid (m.pos + 1) a.size
  /-- Each character was begun or not. -/
  whole : m.front + m.rest.length = n
  once : m.pushed.Nodup
  /-- Positions before elements were pushed, for points of the text that were met. -/
  within : ∀ k p, (k, p) ∈ m.pushed → k ≤ m.front ∧ p < a.size
  stamped : ∀ p, (m.pos, p) ∈ m.pushed → m.scratch.current.reached p m.pos = true
  next_stamped : ∀ p, (m.pos + 1, p) ∈ m.pushed → m.scratch.next.reached p (m.pos + 1) = true
  /-- What was pushed was taken, or still is on a stack. -/
  balance : m.pushed.length = m.taken + m.scratch.current.stack.length + m.scratch.next.stack.length

namespace Moment

variable {a : Automaton} {m m' : Moment} {k n p : Nat} {text : List CodePoint} {s : Scratch}

theorem front_of_none (h : m.reading = none) : m.front = m.pos := by
  simp [front, h]

theorem front_of_some {c : CodePoint} (h : m.reading = some c) : m.front = m.pos + 1 := by
  simp [front, h]

namespace Accounted

theorem begin (hs : s.Balanced) (text : List CodePoint) : (a.begin text s).Accounted a text.length := by
  obtain ⟨hcurrent, hnext⟩ := hs.idle_reset a.size
  have hgrows := hcurrent.valid.grows_add (Nat.zero_le a.size)
  have hsuffix := Frontier.suffix_stack_add (s.reset a.size).current 0 0 a.size
  have hpushed := hgrows.recorded hsuffix List.nodup_nil fun q hmem => absurd hmem List.not_mem_nil
  constructor
  case current => exact hgrows.valid
  case next => exact (hnext.mono (Nat.zero_le 1)).valid
  case whole => exact Nat.zero_add _
  case once => exact hpushed.once
  case within =>
    intro k q hmem
    obtain ⟨rfl, hlt, -⟩ := (hpushed.origin k q hmem).resolve_left List.not_mem_nil
    exact ⟨Nat.zero_le _, hlt⟩
  case stamped => exact hpushed.stamped
  case next_stamped =>
    intro q hmem
    obtain ⟨hpos, -⟩ := (hpushed.origin 1 q hmem).resolve_left List.not_mem_nil
    exact absurd hpos Nat.one_ne_zero
  case balance =>
    have hbalance := hpushed.balance
    have hnil : (s.reset a.size).current.stack.length = 0 := by rw [hcurrent.stack_nil, List.length_nil]
    have hnil' : (s.reset a.size).next.stack.length = 0 := by rw [hnext.stack_nil, List.length_nil]
    simp only [Automaton.begin, List.nil_append, List.length_nil] at hbalance ⊢
    omega

/-- The record is kept when a position is taken and followed. -/
theorem take (h : m.Accounted a n) (hstep : a.step? m.pos m.reading m.scratch = some s) :
    (m.take s).Accounted a n := by
  obtain ⟨p, rest, hstack, ⟨hsuffix, hcurrent⟩, hsuffix', hnext, hnone⟩ :=
    Automaton.grows_step? h.current h.next hstep
  -- the two stacks are recorded one after the other, for two points of the text
  have hpushed : Frontier.Recorded m.pushed (m.pushed ++ (gained rest s.current.stack).map (m.pos, ·))
      ⟨m.scratch.current.stamps, rest⟩ s.current m.pos a.size := hcurrent.recorded hsuffix h.once h.stamped
  have hstamped : ∀ q, (m.pos + 1, q) ∈ m.pushed ++ (gained rest s.current.stack).map (m.pos, ·) →
      m.scratch.next.reached q (m.pos + 1) = true := by
    intro q hmem
    rcases hpushed.origin _ q hmem with hold | ⟨hpos, -⟩
    · exact h.next_stamped q hold
    · exact absurd hpos (Nat.succ_ne_self _)
  have hpushed' := hnext.recorded hsuffix' hpushed.once hstamped
  have hrecord : (m.take s).pushed = m.pushed ++ (gained rest s.current.stack).map (m.pos, ·) ++
      (gained m.scratch.next.stack s.next.stack).map (m.pos + 1, ·) := by
    rw [Moment.take, hstack, List.tail_cons]
  constructor
  case current => exact hcurrent.valid
  case next => exact hnext.valid
  case whole => exact h.whole
  case once =>
    rw [hrecord]
    exact hpushed'.once
  case within =>
    intro k q hmem
    rw [hrecord] at hmem
    rcases hpushed'.origin k q hmem with hmem | ⟨rfl, hlt, hin, hout⟩
    · rcases hpushed.origin k q hmem with hold | ⟨rfl, hlt, -⟩
      · exact h.within k q hold
      · exact ⟨Nat.le_add_right _ _, hlt⟩
    · refine ⟨?_, hlt⟩
      cases hreading : m.reading with
      | none =>
        rw [hnone hreading] at hin
        exact absurd hin hout
      | some c => exact Nat.le_of_eq (front_of_some hreading).symm
  case stamped =>
    intro q hmem
    rw [hrecord] at hmem
    rcases hpushed'.origin m.pos q hmem with hmem | ⟨hpos, -⟩
    · exact hpushed.stamped q hmem
    · exact absurd hpos (Nat.ne_of_lt (Nat.lt_succ_self _))
  case next_stamped =>
    intro q hmem
    rw [hrecord] at hmem
    exact hpushed'.stamped q hmem
  case balance =>
    have hbalance := h.balance
    have hcurrent' : _ + rest.length = m.pushed.length + s.current.stack.length := hpushed.balance
    have hnext' := hpushed'.balance
    rw [hstack, List.length_cons] at hbalance
    rw [hrecord]
    show _ = m.taken + 1 + s.current.stack.length + s.next.stack.length
    omega

/-- The frontiers change places when nothing is left to be followed with the character. -/
theorem swap (h : m.Accounted a n) {c : CodePoint} (hreading : m.reading = some c)
    (hstack : m.scratch.current.stack = []) :
    ({ m with pos := m.pos + 1, reading := none, scratch := m.scratch.swap } : Moment).Accounted a n where
  current := h.next
  next := ((h.current.idle_succ hstack).mono (Nat.le_succ _)).valid
  whole := by
    have hwhole := h.whole
    rwa [front_of_some hreading] at hwhole
  once := h.once
  within k p hmem := by
    have hwithin := h.within k p hmem
    rwa [front_of_some hreading] at hwithin
  stamped := h.next_stamped
  next_stamped p hmem := by
    -- nothing was pushed for the point behind the one that is reached now
    have hwithin := (h.within _ p hmem).1
    rw [front_of_some hreading] at hwithin
    exact absurd hwithin (Nat.not_succ_le_self _)
  balance := by
    show m.pushed.length = m.taken + m.scratch.next.stack.length + m.scratch.current.stack.length
    rw [h.balance, Nat.add_right_comm]

/-- Nothing is pushed when a character is begun. -/
theorem read (h : m.Accounted a n) {c : CodePoint} {rest : List CodePoint} (hreading : m.reading = none)
    (hrest : m.rest = c :: rest) (folded : CodePoint) :
    ({ m with reading := some folded, rest := rest } : Moment).Accounted a n where
  current := h.current
  next := h.next
  whole := by
    have hwhole := h.whole
    rw [front_of_none hreading, hrest, List.length_cons] at hwhole
    show m.pos + 1 + rest.length = n
    omega
  once := h.once
  within k p hmem := by
    obtain ⟨hle, hlt⟩ := h.within k p hmem
    rw [front_of_none hreading] at hle
    exact ⟨Nat.le_succ_of_le hle, hlt⟩
  stamped := h.stamped
  next_stamped := h.next_stamped
  balance := h.balance

/-- Every move keeps the record. -/
theorem advance (h : m.Accounted a n) (hnext : a.advance? m = some m') : m'.Accounted a n := by
  rcases Automaton.advance?_cases hnext with ⟨c, rest, hreading, hrest, -, rfl⟩ | ⟨s, -, hstep, rfl⟩ |
    ⟨c, hreading, hstep, rfl⟩
  · exact h.read hreading hrest (a.rule.fold c)
  · exact h.take hstep
  · exact h.swap hreading (Automaton.stack_of_step?_eq_none hstep)

theorem reaches (h : m.Accounted a n) (hreaches : a.Reaches m k m') : m'.Accounted a n := by
  induction hreaches with
  | refl => exact h
  | move _ hnext ih => exact ih.advance hnext

/-- Each position is pushed at most once for each point of the text, and what was taken was pushed before. -/
theorem taken_le (h : m.Accounted a n) : m.taken ≤ a.size * (n + 1) := by
  have hpoints : m.pushed ⊆ List.range (n + 1) ×ˢ List.range a.size := by
    rintro ⟨k, p⟩ hmem
    obtain ⟨hle, hlt⟩ := h.within k p hmem
    have hwhole := h.whole
    simp only [List.mem_product, List.mem_range]
    omega
  have hlength := (h.once.subperm hpoints).length_le
  rw [List.length_product, List.length_range, List.length_range] at hlength
  have hbalance := h.balance
  rw [Nat.mul_comm]
  omega

end Accounted

/-- The number of moves: each position that is taken is one, and each character is begun and ended. -/
theorem moves_eq (hreaches : a.Reaches m k m') :
    m'.taken + m'.pos + m'.front = m.taken + m.pos + m.front + k := by
  induction hreaches with
  | refl => rfl
  | @move k m' m'' _ hnext ih =>
    rcases Automaton.advance?_cases hnext with ⟨c, rest, hreading, -, -, rfl⟩ | ⟨s, -, -, rfl⟩ | ⟨c, hreading, -, rfl⟩
    · rw [front_of_none hreading] at ih
      show m'.taken + m'.pos + (m'.pos + 1) = _
      omega
    · show m'.taken + 1 + m'.pos + m'.front = _
      omega
    · rw [front_of_some hreading] at ih
      show m'.taken + (m'.pos + 1) + (m'.pos + 1) = _
      omega

end Moment

namespace Automaton

variable {a : Automaton} {m m' : Moment} {k n : Nat} {text : List CodePoint} {s : Scratch}

/-- Every move keeps what the rest of the match gives. -/
theorem result_advance (hnext : a.advance? m = some m') : a.result m' = a.result m := by
  rcases advance?_cases hnext with ⟨c, rest, hreading, hrest, hpending, rfl⟩ | ⟨s, hrest, hstep, rfl⟩ |
    ⟨c, hreading, hstep, rfl⟩
  · have hleft : ¬ m.scratch.current.stack.isEmpty := by simpa using hpending
    rw [result, result, hreading, hrest]
    dsimp only
    rw [Automaton.read, if_neg hleft]
  · cases hreading : m.reading with
    | none =>
      rw [hreading] at hstep
      rw [result, result, Moment.take, hreading, hrest hreading]
      dsimp only
      rw [Automaton.read, Automaton.read, drain.eq_def a m.pos none m.scratch, hstep]
    | some c =>
      rw [hreading] at hstep
      rw [result, result, Moment.take, hreading]
      dsimp only
      rw [drain.eq_def a m.pos (some c) m.scratch, hstep]
  · rw [result, result, hreading]
    dsimp only
    rw [drain.eq_def a m.pos (some c) m.scratch, hstep]

theorem result_reaches (hreaches : a.Reaches m k m') : a.result m' = a.result m := by
  induction hreaches with
  | refl => rfl
  | move _ hnext ih => rw [result_advance hnext, ih]

/-- At the end of a match nothing is left to do. -/
theorem result_of_end (h : a.advance? m = none) : a.result m = (a.answer m, m.scratch) := by
  rw [advance?] at h
  split at h
  · split at h
    · cases h
    · cases h
  · rename_i c rest hreading hrest
    split at h
    · rename_i hempty
      rw [result, hreading, hrest]
      dsimp only
      rw [Automaton.read, if_pos hempty, answer, hrest]
      rfl
    · cases h
  · rename_i hreading hrest
    have hstep := Option.map_eq_none_iff.mp h
    rw [result, hreading, hrest]
    dsimp only
    rw [Automaton.read, drain.eq_def a m.pos none m.scratch, hstep, answer, hrest]
    rfl

/-- A match has no more moves than positions may be pushed and characters be begun and ended. -/
theorem moves_le (hs : s.Balanced) (hreaches : a.Reaches (a.begin text s) k m) :
    k ≤ a.size * (text.length + 1) + 2 * text.length := by
  have haccounted := (Moment.Accounted.begin hs text).reaches hreaches
  have htaken := haccounted.taken_le
  have hwhole := haccounted.whole
  have hmoves : m.taken + m.pos + m.front = 0 + k := Moment.moves_eq hreaches
  have hfront : m.pos ≤ m.front := Nat.le_add_right _ _
  omega

/-- A match comes to its end: it cannot go on for longer than its bound. -/
theorem exists_end (hs : s.Balanced) (text : List CodePoint) :
    ∃ k m, a.Reaches (a.begin text s) k m ∧ a.advance? m = none := by
  by_contra hendless
  -- then there would be a moment after any number of moves, also after more than the bound
  have hall : ∀ k, ∃ m, a.Reaches (a.begin text s) k m := by
    intro k
    induction k with
    | zero => exact ⟨_, .refl⟩
    | succ k ih =>
      obtain ⟨m, hreaches⟩ := ih
      cases hnext : a.advance? m with
      | none => exact absurd ⟨k, m, hreaches, hnext⟩ hendless
      | some m' => exact ⟨m', hreaches.move hnext⟩
  obtain ⟨m, hreaches⟩ := hall (a.size * (text.length + 1) + 2 * text.length + 1)
  exact Nat.not_succ_le_self _ (moves_le hs hreaches)

/-- A match does bounded work, whatever its scratch space was used for. At every moment the positions on each of the
two stacks are different positions before elements, so there are at most as many as elements. For each point of the
text each position is pushed at most once, and what is taken was pushed. So the number of positions that are taken,
and the number of all moves, are bounded. The match comes to its end, and gives its answer and the scratch space that
it leaves. -/
theorem runWith_bounded (hs : s.Left) (a : Automaton) (text : Bytes) :
    let n := (Utf8.codePoints text).length
    let start := a.begin (Utf8.codePoints text) s
    (∀ k m, a.Reaches start k m →
      (∀ f ∈ [m.scratch.current, m.scratch.next],
        f.stack.Nodup ∧ (∀ p ∈ f.stack, p < a.size) ∧ f.stack.length ≤ a.size) ∧
      m.pushed.Nodup ∧ (∀ i p, (i, p) ∈ m.pushed → i ≤ n ∧ p < a.size) ∧
      m.pushed.length = m.taken + m.scratch.current.stack.length + m.scratch.next.stack.length ∧
      m.taken ≤ a.size * (n + 1) ∧ k ≤ a.size * (n + 1) + 2 * n) ∧
    ∃ k m, a.Reaches start k m ∧ a.advance? m = none ∧ a.runWith text s = (a.answer m, m.scratch) := by
  intro n start
  have hbegin := Moment.Accounted.begin (a := a) hs.balanced (Utf8.codePoints text)
  constructor
  · intro k m hreaches
    have h := hbegin.reaches hreaches
    refine ⟨?_, h.once, fun i p hmem => ?_, h.balance, h.taken_le, moves_le hs.balanced hreaches⟩
    · rw [List.forall_mem_cons, List.forall_mem_singleton]
      exact ⟨⟨h.current.nodup, fun p hp => (h.current.pending p hp).1, h.current.length_stack_le⟩,
        h.next.nodup, fun p hp => (h.next.pending p hp).1, h.next.length_stack_le⟩
    · obtain ⟨hle, hlt⟩ := h.within i p hmem
      exact ⟨Nat.le_trans hle (Nat.le.intro h.whole), hlt⟩
  · obtain ⟨k, m, hreaches, hend⟩ := exists_end (a := a) hs.balanced (Utf8.codePoints text)
    refine ⟨k, m, hreaches, hend, ?_⟩
    rw [← result_of_end hend, result_reaches hreaches]
    rfl

/-- Many ways lead through this text, and the scratch space was used for a longer pattern before. -/
theorem runWith_bounded_stars :
    let text := Bytes.ascii "aaaaaab"
    ∃ a before, compile (Bytes.ascii "*a*a*a*b") .none .classic = .ok a ∧
      compile (Bytes.ascii "*a*b*c*d*e*f*") .none .classic = .ok before ∧
      let s := (before.runWith (Bytes.ascii "abcdef") .fresh).2
      s.Left ∧ ∃ k m, a.Reaches (a.begin (Utf8.codePoints text) s) k m ∧ a.advance? m = none ∧
        m.taken ≤ 8 * (7 + 1) ∧ k ≤ 8 * (7 + 1) + 2 * 7 ∧ a.answer m = true := by
  intro text
  let star : Item := .anySequence
  let short : List Item := [star, .literal 0x61, star, .literal 0x61, star, .literal 0x61, star, .literal 0x62]
  let long : List Item := [star, .literal 0x61, star, .literal 0x62, star, .literal 0x63, star, .literal 0x64, star,
    .literal 0x65, star, .literal 0x66, star]
  have hshort : Pattern.parse (Bytes.ascii "*a*a*a*b") = .ok short := by decide +kernel
  have hlong : Pattern.parse (Bytes.ascii "*a*b*c*d*e*f*") = .ok long := by decide +kernel
  obtain ⟨a, ha⟩ : ∃ a, a = ofItems (.of .none .classic) short := ⟨_, rfl⟩
  have hsize : a.size = 8 := by
    rw [ha]
    decide +kernel
  have hlength : (Utf8.codePoints text).length = 7 := by decide +kernel
  have haccepts : a.accepts text = true := by
    rw [ha]
    decide +kernel
  have hmade : compile (Bytes.ascii "*a*a*a*b") .none .classic = .ok a := ha ▸ compile_eq_ok hshort .none .classic
  refine ⟨a, _, hmade, compile_eq_ok hlong .none .classic, ?_⟩
  intro s
  have hs : s.Left := .matched .fresh _ _
  obtain ⟨hmoments, k, m, hreaches, hend, hrun⟩ := runWith_bounded hs a text
  obtain ⟨-, -, -, -, htaken, hmoves⟩ := hmoments k m hreaches
  rw [hsize, hlength] at htaken hmoves
  refine ⟨hs, k, m, hreaches, hend, htaken, hmoves, ?_⟩
  have hanswer : a.answer m = (a.runWith text s).1 := by rw [hrun]
  rw [hanswer, runWith_eq_accepts hs.balanced, haccepts]

end Automaton

end NameGlob
