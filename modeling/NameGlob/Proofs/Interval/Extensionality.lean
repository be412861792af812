import Mathlib.Data.List.Pairwise
import Mathlib.Data.List.Sort
import NameGlob.Proofs.Interval.Canonical

/-!
# Sets of intervals are determined by their values

The intervals of a canonical set are the maximal runs of its values: all that lies within one is in the set, and
neither of its two neighbours is. So a canonical set holds the only list of intervals for its values, and what
insertions leave depends on the values that they add, not on how these are cut into intervals nor on the order
in which they come.
-/

namespace NameGlob.IntervalSet

open NameGlob.Interval

variable {b : Bounds} {set other : IntervalSet b} {i j : Interval}

/-- The interval is not empty, all its values are in the set, and the values beside it are not. -/
structure IsRun (set : IntervalSet b) (i : Interval) : Prop where
  lo_le_hi : i.lo ≤ i.hi
  inside : ∀ v, i.lo ≤ v → v ≤ i.hi → set.contains v = true
  below : ¬ set.contains (i.lo - 1) = true
  above : ¬ set.contains (i.hi + 1) = true

/-- Runs of the same values are maximal in either set. -/
theorem IsRun.congr (h : ∀ v, set.contains v = true ↔ other.contains v = true) (hi : set.IsRun i) :
    other.IsRun i where
  lo_le_hi := hi.lo_le_hi
  inside v hlo hhi := (h v).mp (hi.inside v hlo hhi)
  below hv := hi.below ((h _).mpr hv)
  above hv := hi.above ((h _).mpr hv)

/-- Between any two intervals of a canonical set a value is missing. -/
theorem Canonical.apart (h : set.Canonical) (hi : i ∈ set.intervals) (hj : j ∈ set.intervals) (hne : i ≠ j) :
    i.hi + 1 < j.lo ∨ j.hi + 1 < i.lo := by
  have : Std.Symm fun i j : Interval => i.hi + 1 < j.lo ∨ j.hi + 1 < i.lo := ⟨fun _ _ => Or.symm⟩
  have hapart : set.intervals.Pairwise fun i j => i.hi + 1 < j.lo ∨ j.hi + 1 < i.lo := h.gaps.imp Or.inl
  exact hapart.forall hi hj hne

/-- A value beside an interval of a canonical set would lie in another one that is not apart from it. -/
theorem Canonical.not_contains_beside (h : set.Canonical) (hi : i ∈ set.intervals) {v : Int}
    (hv : v = i.lo - 1 ∨ v = i.hi + 1) : ¬ set.contains v = true := by
  intro hcontains
  obtain ⟨j, hj, hjlo, hjhi⟩ := contains_iff.mp hcontains
  have hle := (h.within i hi).lo_le_hi
  have hne : i ≠ j := by
    rintro rfl
    omega
  have := h.apart hi hj hne
  omega

theorem Canonical.isRun (h : set.Canonical) (hi : i ∈ set.intervals) : set.IsRun i where
  lo_le_hi := (h.within i hi).lo_le_hi
  inside _ hlo hhi := contains_iff.mpr ⟨i, hi, hlo, hhi⟩
  below := h.not_contains_beside hi (.inl rfl)
  above := h.not_contains_beside hi (.inr rfl)

/-- Two maximal runs with a value in common are equal. -/
theorem IsRun.eq_of_le {v : Int} (hi : set.IsRun i) (hj : set.IsRun j) (hiv : i.lo ≤ v ∧ v ≤ i.hi)
    (hjv : j.lo ≤ v ∧ v ≤ j.hi) : i = j := by
  have hlo : i.lo = j.lo := by
    rcases Int.lt_trichotomy i.lo j.lo with hlt | heq | hgt
    · exact absurd (hi.inside (j.lo - 1) (by omega) (by omega)) hj.below
    · exact heq
    · exact absurd (hj.inside (i.lo - 1) (by omega) (by omega)) hi.below
  have hhi : i.hi = j.hi := by
    rcases Int.lt_trichotomy i.hi j.hi with hlt | heq | hgt
    · exact absurd (hj.inside (i.hi + 1) (by omega) (by omega)) hi.above
    · exact heq
    · exact absurd (hi.inside (j.hi + 1) (by omega) (by omega)) hj.above
  cases i
  cases j
  exact congrArg₂ Interval.mk hlo hhi

/-- The intervals of a canonical set are its maximal runs. -/
theorem Canonical.mem_iff (h : set.Canonical) : i ∈ set.intervals ↔ set.IsRun i := by
  refine ⟨h.isRun, fun hi => ?_⟩
  obtain ⟨j, hj, hjlo, hjhi⟩ := contains_iff.mp (hi.inside i.lo (Int.le_refl _) hi.lo_le_hi)
  rwa [hi.eq_of_le (h.isRun hj) ⟨Int.le_refl _, hi.lo_le_hi⟩ ⟨hjlo, hjhi⟩]

theorem Canonical.pairwise_lo (h : set.Canonical) : set.intervals.Pairwise fun i j => i.lo < j.lo := by
  refine h.gaps.imp_of_mem fun {i j} hi _ hgap => ?_
  have := (h.within i hi).lo_le_hi
  omega

/-- Canonical sets with the same values are equal. -/
theorem Canonical.ext (h : set.Canonical) (hother : other.Canonical)
    (hvalues : ∀ v, set.contains v = true ↔ other.contains v = true) : set = other := by
  have hmem : ∀ i, i ∈ set.intervals ↔ i ∈ other.intervals := by
    intro i
    rw [h.mem_iff, hother.mem_iff]
    exact ⟨IsRun.congr hvalues, IsRun.congr fun v => (hvalues v).symm⟩
  have : Std.Irrefl fun i j : Interval => i.lo < j.lo := ⟨fun _ => Int.lt_irrefl _⟩
  have : Std.Antisymm fun i j : Interval => i.lo < j.lo := ⟨fun _ _ hij hji => absurd hij (Int.lt_asymm hji)⟩
  have hintervals := h.pairwise_lo.eq_of_mem_iff hother.pairwise_lo hmem
  cases set
  cases other
  exact congrArg IntervalSet.mk hintervals

variable {xs ys : List Insertion}

theorem contains_insertAll_empty_iff (hxs : ∀ a ∈ xs, a.added.Within b) {v : Int} :
    ((∅ : IntervalSet b).insertAll xs).contains v = true ↔ ∃ a ∈ xs, a.added.contains v = true := by
  rw [contains_insertAll_iff canonical_empty hxs, contains_empty, or_iff_right Bool.false_ne_true]

theorem contains_apply_iff (h : set.Canonical) (a : Insertion) {v : Int} :
    (set.apply a).contains v = true ↔ set.contains v = true ∨ a.added.contains v = true := by
  rw [apply_eq_insert, contains_insert_iff h.ascending]

theorem canonical_apply (h : set.Canonical) {a : Insertion} (ha : a.added.Within b) :
    (set.apply a).Canonical := by
  rw [apply_eq_insert]
  exact canonical_insert h ha

/-- Two insertions may change places. -/
theorem Canonical.apply_comm (h : set.Canonical) {a c : Insertion} (ha : a.added.Within b)
    (hc : c.added.Within b) : (set.apply a).apply c = (set.apply c).apply a := by
  have hleft := canonical_apply h ha
  have hright := canonical_apply h hc
  refine (canonical_apply hleft hc).ext (canonical_apply hright ha) fun v => ?_
  rw [contains_apply_iff hleft, contains_apply_iff h, contains_apply_iff hright, contains_apply_iff h,
    or_right_comm]

/-- What is in a set already is not added to it again. -/
theorem Canonical.apply_eq_self (h : set.Canonical) {a : Insertion} (ha : a.added.Within b)
    (hcovered : ∀ v, a.added.contains v = true → set.contains v = true) : set.apply a = set := by
  refine (canonical_apply h ha).ext h fun v => ?_
  rw [contains_apply_iff h]
  exact or_iff_left_of_imp (hcovered v)

/-- Two sequences of insertions into the empty set make the same list of intervals exactly when they add the
same values. So a further two insertions may change places, and one whose values were all added before changes
nothing. -/
theorem insertAll_eq_iff (hxs : ∀ a ∈ xs, a.added.Within b) (hys : ∀ a ∈ ys, a.added.Within b) :
    (((∅ : IntervalSet b).insertAll xs).intervals = ((∅ : IntervalSet b).insertAll ys).intervals ↔
        ∀ v, (∃ a ∈ xs, a.added.contains v = true) ↔ ∃ a ∈ ys, a.added.contains v = true) ∧
      (∀ a c : Insertion, a.added.Within b → c.added.Within b →
        (((∅ : IntervalSet b).insertAll xs).apply a).apply c =
          (((∅ : IntervalSet b).insertAll xs).apply c).apply a) ∧
      ∀ a : Insertion, a.added.Within b →
        (∀ v, a.added.contains v = true → ∃ x ∈ xs, x.added.contains v = true) →
        ((∅ : IntervalSet b).insertAll xs).apply a = (∅ : IntervalSet b).insertAll xs := by
  have hset := canonical_insertAll canonical_empty hxs
  have hother := canonical_insertAll canonical_empty hys
  refine ⟨⟨fun heq v => ?_, fun hvalues => ?_⟩, fun a c ha hc => hset.apply_comm ha hc, fun a ha hcovered => ?_⟩
  · rw [← contains_insertAll_empty_iff hxs, ← contains_insertAll_empty_iff hys, contains_iff, heq,
      ← contains_iff]
  · have heq := hset.ext hother fun v => by
      rw [contains_insertAll_empty_iff hxs, contains_insertAll_empty_iff hys, hvalues]
    rw [heq]
  · exact hset.apply_eq_self ha fun v hv => (contains_insertAll_empty_iff hxs).mpr (hcovered v hv)

/-- The bytes from 0 to 8 and from 250 to 255, once as overlapping intervals from the right and once with the gap
at 4 closed last. -/
theorem insertAll_eq_iff_byte :
    (∀ a ∈ [Insertion.interval ⟨250, 255⟩, .interval ⟨2, 8⟩, .interval ⟨0, 3⟩], a.added.Within .byte) ∧
      (∀ a ∈ [Insertion.interval ⟨0, 3⟩, .interval ⟨5, 8⟩, .interval ⟨250, 255⟩, .value 4],
        a.added.Within .byte) ∧
      ((∅ : IntervalSet .byte).insertAll
          [.interval ⟨250, 255⟩, .interval ⟨2, 8⟩, .interval ⟨0, 3⟩]).intervals =
        ((∅ : IntervalSet .byte).insertAll
          [.interval ⟨0, 3⟩, .interval ⟨5, 8⟩, .interval ⟨250, 255⟩, .value 4]).intervals := by
  have hxs : ∀ a ∈ [Insertion.interval ⟨250, 255⟩, .interval ⟨2, 8⟩, .interval ⟨0, 3⟩],
      a.added.Within .byte := by decide
  have hys : ∀ a ∈ [Insertion.interval ⟨0, 3⟩, .interval ⟨5, 8⟩, .interval ⟨250, 255⟩, .value 4],
      a.added.Within .byte := by decide
  refine ⟨hxs, hys, (insertAll_eq_iff hxs hys).1.mpr fun v => ?_⟩
  simp only [List.mem_cons, List.not_mem_nil, or_false, exists_eq_or_imp, exists_eq_left, Insertion.added,
    Interval.contains_iff, Interval.single]
  omega

end NameGlob.IntervalSet
