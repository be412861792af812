import NameGlob.Proofs.Interval.Insertion

/-!
# Canonical sets of intervals

A set that is built by insertions within its bounds stays within them, and between any two of its
neighbouring intervals a value is missing. Widening an interval by its neighbours finds all intervals that
adjoin it; only at a bound there is no neighbour, and no interval beyond it that could adjoin.

## Main definitions

- `Bounds.Holds` — a value lies within bounds
- `Interval.Within` — an interval is not empty and lies within bounds
- `IntervalSet.Canonical` — the intervals of a set lie within its bounds and leave gaps
- `Insertion` — an interval or a single value that is added
- `IntervalSet.insertAll` — carries out insertions one after the other
-/

namespace NameGlob

/-- The value lies within the bounds. -/
def Bounds.Holds (b : Bounds) (v : Int) : Prop :=
  b.min ≤ v ∧ v ≤ b.max

instance (b : Bounds) (v : Int) : Decidable (b.Holds v) :=
  inferInstanceAs (Decidable (_ ∧ _))

/-- The interval is not empty and lies within the bounds. -/
structure Interval.Within (b : Bounds) (i : Interval) : Prop where
  min_le : b.min ≤ i.lo
  lo_le_hi : i.lo ≤ i.hi
  le_max : i.hi ≤ b.max

instance (b : Bounds) (i : Interval) : Decidable (i.Within b) :=
  decidable_of_iff (b.min ≤ i.lo ∧ i.lo ≤ i.hi ∧ i.hi ≤ b.max)
    ⟨fun ⟨hmin, hlo, hmax⟩ => ⟨hmin, hlo, hmax⟩, fun ⟨hmin, hlo, hmax⟩ => ⟨hmin, hlo, hmax⟩⟩

theorem Interval.within_iff {b : Bounds} {i : Interval} : i.Within b ↔ b.Holds i.lo ∧ b.Holds i.hi ∧ i.lo ≤ i.hi := by
  constructor
  · rintro ⟨hmin, hle, hmax⟩
    exact ⟨⟨hmin, Int.le_trans hle hmax⟩, ⟨Int.le_trans hmin hle, hmax⟩, hle⟩
  · rintro ⟨⟨hmin, -⟩, ⟨-, hmax⟩, hle⟩
    exact ⟨hmin, hle, hmax⟩

/-- A step that adds to a set. -/
inductive Insertion where
  | interval (i : Interval)
  | value (v : Int)
  deriving Repr, DecidableEq

/-- The values that an insertion adds. -/
def Insertion.added : Insertion → Interval
  | .interval i => i
  | .value v => .single v

namespace IntervalSet

open NameGlob.Interval

variable {b : Bounds} {set : IntervalSet b} {new i : Interval} {v : Int}

/-- The intervals lie within the bounds, and each ends before the value in front of the next one. -/
structure Canonical (set : IntervalSet b) : Prop where
  within : ∀ i ∈ set.intervals, i.Within b
  gaps : set.intervals.Pairwise fun i j => i.hi + 1 < j.lo

/-- Carries out an insertion. -/
def apply (set : IntervalSet b) : Insertion → IntervalSet b
  | .interval i => set.insert i
  | .value v => set.insertValue v

/-- Carries out insertions one after the other. -/
def insertAll (set : IntervalSet b) (insertions : List Insertion) : IntervalSet b :=
  insertions.foldl apply set

/-- The set that begins with an interval, if one is given. -/
def starting (start : Option Interval) : IntervalSet b :=
  start.elim ∅ (insert ∅)

theorem canonical_empty : (∅ : IntervalSet b).Canonical :=
  ⟨fun _ hi => absurd hi List.not_mem_nil, .nil⟩

theorem Canonical.ascending (h : set.Canonical) : Ascending set.intervals where
  nonempty i hi := (h.within i hi).lo_le_hi
  before := h.gaps.imp fun hgap => by omega

/-- Widening stays within the bounds. -/
theorem within_widen (h : new.Within b) : (b.widen new).Within b := by
  obtain ⟨hmin, hlo, hmax⟩ := h
  unfold Bounds.widen
  constructor
  · dsimp only
    split <;> omega
  · dsimp only
    split <;> split <;> omega
  · dsimp only
    split <;> omega

/-- What ends before the widened interval ends before the value in front of the interval. -/
theorem hi_add_one_lt_of_lt_widen (hi : i.Within b) (h : i.hi < (b.widen new).lo) :
    i.hi + 1 < new.lo := by
  obtain ⟨hmin, hlo, -⟩ := hi
  unfold Bounds.widen at h
  dsimp only at h
  split at h <;> omega

theorem hi_add_one_lt_of_widen_lt (hi : i.Within b) (h : (b.widen new).hi < i.lo) :
    new.hi + 1 < i.lo := by
  obtain ⟨-, hlo, hmax⟩ := hi
  unfold Bounds.widen at h
  dsimp only at h
  split at h <;> omega

/-- The merged interval stays within the bounds. -/
theorem within_hullAll {met : List Interval} (hnew : new.Within b) (hmet : ∀ i ∈ met, i.Within b) :
    (new.hullAll met).Within b := by
  have hmin := @lt_hullAll_lo_iff new met (b.min - 1)
  have hmax := @hullAll_hi_lt_iff new met (b.max + 1)
  have hlo := @lt_hullAll_lo_iff new met new.lo
  have hhi := @hullAll_hi_lt_iff new met new.hi
  have hmins : ∀ i ∈ met, b.min - 1 < i.lo := fun i hi => Int.sub_one_lt_iff.mpr (hmet i hi).min_le
  have hmaxs : ∀ i ∈ met, i.hi < b.max + 1 := fun i hi => Int.lt_add_one_iff.mpr (hmet i hi).le_max
  have := hnew.min_le
  have := hnew.lo_le_hi
  have := hnew.le_max
  constructor
  · have := hmin.mpr ⟨by omega, hmins⟩
    omega
  · omega
  · have := hmax.mpr ⟨by omega, hmaxs⟩
    omega

/-- An insertion keeps a set canonical. -/
theorem canonical_insert (h : set.Canonical) (hnew : new.Within b) : (set.insert new).Canonical := by
  obtain ⟨front, met, behind, hsplit, hinsert, hfront, -, hbehind⟩ := insertAt_split new h.ascending
  have hwithin := h.within
  have hgaps := h.gaps
  rw [hsplit] at hwithin hgaps
  rw [List.append_assoc, List.pairwise_append, List.pairwise_append] at hgaps
  obtain ⟨hff, ⟨-, hbb, hmb⟩, hfmb⟩ := hgaps
  simp only [insert, hinsert]
  constructor
  · intro i hi
    rcases List.mem_append.mp hi with hi | hi
    · exact hwithin i (by simp [hi])
    · rcases List.mem_cons.mp hi with rfl | hi
      · exact within_hullAll hnew fun j hj => hwithin j (by simp [hj])
      · exact hwithin i (by simp [hi])
  · rw [List.pairwise_append, List.pairwise_cons]
    refine ⟨hff, ⟨?_, hbb⟩, ?_⟩
    · intro j hj
      have hnewj : new.hi + 1 < j.lo :=
        hi_add_one_lt_of_widen_lt (hwithin j (by simp [hj])) (hbehind j hj)
      have hall := @hullAll_hi_lt_iff new met (j.lo - 1)
      have hmet : ∀ k ∈ met, k.hi < j.lo - 1 := fun k hk => by
        have := hmb k hk j hj
        omega
      have := hall.mpr ⟨by omega, hmet⟩
      omega
    · intro i hi j hj
      rcases List.mem_cons.mp hj with rfl | hj
      · have hinew : i.hi + 1 < new.lo :=
          hi_add_one_lt_of_lt_widen (hwithin i (by simp [hi])) (hfront i hi)
        rw [lt_hullAll_lo_iff]
        exact ⟨hinew, fun k hk => hfmb i hi k (by simp [hk])⟩
      · exact hfmb i hi j (by simp [hj])

/-- The interval that an insertion gives back is one of the result, and it includes what was inserted. -/
theorem insertAt_includes (new : Interval) (h : Ascending set.intervals) :
    (set.insertAt new).1 ∈ (set.insert new).intervals ∧
      (set.insertAt new).1.lo ≤ new.lo ∧ new.hi ≤ (set.insertAt new).1.hi := by
  obtain ⟨front, met, behind, -, hinsert, -⟩ := insertAt_split new h
  have hlo := @lt_hullAll_lo_iff new met new.lo
  have hhi := @hullAll_hi_lt_iff new met new.hi
  simp only [insert, hinsert]
  refine ⟨by simp, ?_, ?_⟩
  · omega
  · omega

/-- Two intervals that ascend have no value in common. -/
theorem eq_of_ascending {intervals : List Interval} {j : Interval} (h : Ascending intervals)
    (hi : i ∈ intervals) (hj : j ∈ intervals) (hiv : i.lo ≤ v ∧ v ≤ i.hi) (hjv : j.lo ≤ v ∧ v ≤ j.hi) :
    i = j := by
  induction intervals with
  | nil => simp at hi
  | cons k rest ih =>
    rcases List.mem_cons.mp hi with rfl | hirest
    · rcases List.mem_cons.mp hj with rfl | hjrest
      · rfl
      · have := h.head_lt j hjrest
        omega
    · rcases List.mem_cons.mp hj with rfl | hjrest
      · have := h.head_lt i hirest
        omega
      · exact ih h.tail hirest hjrest

/-- A search finds the one interval around a value. -/
theorem find?_eq_some_iff (h : Ascending set.intervals) :
    set.find? v = some i ↔ i ∈ set.intervals ∧ i.lo ≤ v ∧ v ≤ i.hi := by
  have hsound : ∀ j, set.find? v = some j → j ∈ set.intervals ∧ j.lo ≤ v ∧ v ≤ j.hi := by
    intro j hfind
    have hj := List.find?_some (p := fun k : Interval => k.contains v) hfind
    exact ⟨List.mem_of_find?_eq_some hfind, Interval.contains_iff.mp hj⟩
  constructor
  · exact hsound i
  · rintro ⟨hi, hv⟩
    have hcontains : set.contains v = true := contains_iff.mpr ⟨i, hi, hv⟩
    obtain ⟨j, hfind⟩ := Option.isSome_iff_exists.mp hcontains
    obtain ⟨hj, hjv⟩ := hsound j hfind
    rw [hfind, eq_of_ascending h hi hj hv hjv]

/-- The ends of a set that is not empty are its least and its greatest member. -/
theorem exists_ends (h : Ascending set.intervals) (hne : set.nonempty = true) :
    ∃ lo hi, set.least? = some lo ∧ set.greatest? = some hi ∧ set.contains lo = true ∧
      set.contains hi = true ∧ ∀ v, set.contains v = true → lo ≤ v ∧ v ≤ hi := by
  have hintervals : set.intervals ≠ [] := by simpa [nonempty] using hne
  obtain ⟨first, rest, hfirst⟩ := List.exists_cons_of_ne_nil hintervals
  obtain ⟨front, last, hlast⟩ := (List.eq_nil_or_concat set.intervals).resolve_left hintervals
  have hfirstmem : first ∈ set.intervals := by simp [hfirst]
  have hlastmem : last ∈ set.intervals := by simp [hlast]
  have hbefore := h.before
  have hbelow : ∀ i ∈ set.intervals, first.lo ≤ i.lo := by
    rw [hfirst] at hbefore
    rw [hfirst, List.forall_mem_cons]
    refine ⟨Int.le_refl _, fun i hi => ?_⟩
    have := (List.pairwise_cons.mp hbefore).1 i hi
    have := h.nonempty first hfirstmem
    omega
  have habove : ∀ i ∈ set.intervals, i.hi ≤ last.hi := by
    rw [hlast, List.concat_eq_append] at hbefore
    rw [hlast, List.concat_eq_append, List.forall_mem_append, List.forall_mem_singleton]
    refine ⟨fun i hi => ?_, Int.le_refl _⟩
    have := (List.pairwise_append.mp hbefore).2.2 i hi last (List.mem_singleton_self last)
    have := h.nonempty last hlastmem
    omega
  refine ⟨first.lo, last.hi, by simp [least?, hfirst], by simp [greatest?, hlast], ?_, ?_, ?_⟩
  · exact contains_iff.mpr ⟨first, hfirstmem, Int.le_refl _, h.nonempty first hfirstmem⟩
  · exact contains_iff.mpr ⟨last, hlastmem, h.nonempty last hlastmem, Int.le_refl _⟩
  · intro v hv
    obtain ⟨i, hi, hlo, hhi⟩ := contains_iff.mp hv
    exact ⟨Int.le_trans (hbelow i hi) hlo, Int.le_trans hhi (habove i hi)⟩

theorem apply_eq_insert (a : Insertion) : set.apply a = set.insert a.added := by
  cases a <;> rfl

theorem canonical_insertAll {insertions : List Insertion} (h : set.Canonical)
    (hwithin : ∀ a ∈ insertions, a.added.Within b) : (set.insertAll insertions).Canonical := by
  induction insertions generalizing set with
  | nil => exact h
  | cons a rest ih =>
    rw [List.forall_mem_cons] at hwithin
    rw [insertAll, List.foldl_cons, apply_eq_insert]
    exact ih (canonical_insert h hwithin.1) hwithin.2

theorem contains_insertAll_iff {insertions : List Insertion} (h : set.Canonical)
    (hwithin : ∀ a ∈ insertions, a.added.Within b) :
    (set.insertAll insertions).contains v = true ↔
      set.contains v = true ∨ ∃ a ∈ insertions, a.added.contains v = true := by
  induction insertions generalizing set with
  | nil => simp [insertAll]
  | cons a rest ih =>
    rw [List.forall_mem_cons] at hwithin
    rw [insertAll, List.foldl_cons, apply_eq_insert]
    refine (ih (canonical_insert h hwithin.1) hwithin.2).trans ?_
    rw [contains_insert_iff h.ascending]
    simp only [List.mem_cons, exists_eq_or_imp, or_assoc]

theorem canonical_starting {start : Option Interval} (h : ∀ i ∈ start, i.Within b) :
    (starting start : IntervalSet b).Canonical := by
  cases start with
  | none => exact canonical_empty
  | some i => exact canonical_insert canonical_empty (h i rfl)

theorem contains_starting_iff {start : Option Interval} :
    (starting start : IntervalSet b).contains v = true ↔ ∃ i ∈ start, i.contains v = true := by
  cases start with
  | none => simp [starting]
  | some i => simp [starting, contains_insert_iff (canonical_empty (b := b)).ascending]

/-- Insertions of intervals and values within the bounds, into a set that is empty or begins with an
interval. The set is canonical and holds what was inserted, and nothing else; a search finds the one
interval around a value; a further insertion gives back an interval of the grown set that includes what
it added; the ends are the least and the greatest member; and what an insertion computes stays within
the bounds. -/
theorem insertAll_exact {start : Option Interval} {insertions : List Insertion}
    (hstart : ∀ i ∈ start, i.Within b) (hwithin : ∀ a ∈ insertions, a.added.Within b)
    (hset : (starting start).insertAll insertions = set) :
    set.Canonical ∧
      (∀ v, set.contains v = true ↔
        (∃ i ∈ start, i.contains v = true) ∨ ∃ a ∈ insertions, a.added.contains v = true) ∧
      (∀ v i, set.find? v = some i ↔ i ∈ set.intervals ∧ i.lo ≤ v ∧ v ≤ i.hi) ∧
      (∀ a : Insertion, (set.insertAt a.added).1 ∈ (set.apply a).intervals ∧
        (set.insertAt a.added).1.lo ≤ a.added.lo ∧ a.added.hi ≤ (set.insertAt a.added).1.hi) ∧
      (set.nonempty = true →
        ∃ lo hi, set.least? = some lo ∧ set.greatest? = some hi ∧ set.contains lo = true ∧
          set.contains hi = true ∧ ∀ v, set.contains v = true → lo ≤ v ∧ v ≤ hi) ∧
      ∀ i : Interval, i.Within b → (b.widen i).Within b := by
  subst hset
  have hbegin := canonical_starting hstart
  have hset := canonical_insertAll hbegin hwithin
  refine ⟨hset, fun v => ?_, fun v i => find?_eq_some_iff hset.ascending, fun a => ?_,
    exists_ends hset.ascending, fun i => within_widen⟩
  · rw [contains_insertAll_iff hbegin hwithin, contains_starting_iff]
  · rw [apply_eq_insert]
    exact insertAt_includes a.added hset.ascending

/-- Bytes up to both bounds; the last value closes the gap between its neighbours. -/
theorem insertAll_exact_byte :
    (∀ i ∈ some (Interval.mk 0 3), i.Within .byte) ∧
      (∀ a ∈ [Insertion.interval ⟨5, 8⟩, .interval ⟨250, 255⟩, .value 4], a.added.Within .byte) ∧
      (starting (some ⟨0, 3⟩)).insertAll [.interval ⟨5, 8⟩, .interval ⟨250, 255⟩, .value 4] =
        (⟨[⟨0, 8⟩, ⟨250, 255⟩]⟩ : IntervalSet .byte) ∧
      (⟨[⟨0, 8⟩, ⟨250, 255⟩]⟩ : IntervalSet .byte).Canonical :=
  have hstart : ∀ i ∈ some (Interval.mk 0 3), i.Within .byte := by decide
  have hwithin : ∀ a ∈ [Insertion.interval ⟨5, 8⟩, .interval ⟨250, 255⟩, .value 4],
      a.added.Within .byte := by decide
  have hset : (starting (some ⟨0, 3⟩)).insertAll [.interval ⟨5, 8⟩, .interval ⟨250, 255⟩, .value 4] =
      (⟨[⟨0, 8⟩, ⟨250, 255⟩]⟩ : IntervalSet .byte) := by decide
  ⟨hstart, hwithin, hset, (insertAll_exact hstart hwithin hset).1⟩

end IntervalSet

end NameGlob
