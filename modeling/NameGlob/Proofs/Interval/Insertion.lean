import NameGlob.Interval.Set

/-!
# Insertion into sets of intervals

The intervals of a set that is built by insertion ascend: none is empty, and each ends before the next
one begins. An insertion splits them into those before the new interval, those that it merges, and
those behind it; what is merged has a value in common with the widened interval, so no value is added
that was not asked for.
-/

namespace NameGlob

namespace Interval

/-- No interval of the list is empty, and each ends before those behind it begin. -/
structure Ascending (intervals : List Interval) : Prop where
  nonempty : ∀ i ∈ intervals, i.lo ≤ i.hi
  before : intervals.Pairwise fun i j => i.hi < j.lo

/-- The smallest interval around `i` and the intervals of the list. -/
def hullAll (i : Interval) (intervals : List Interval) : Interval :=
  intervals.foldl hull i

@[simp] theorem hullAll_nil (i : Interval) : i.hullAll [] = i := rfl

@[simp] theorem hullAll_cons (i j : Interval) (rest : List Interval) :
    i.hullAll (j :: rest) = (i.hull j).hullAll rest := rfl

theorem before_iff {i j : Interval} : i.before j = true ↔ i.hi < j.lo := by
  simp [before]

theorem lt_hull_lo_iff {i j : Interval} {v : Int} : v < (i.hull j).lo ↔ v < i.lo ∧ v < j.lo := by
  unfold hull
  dsimp only
  split <;> omega

theorem hull_hi_lt_iff {i j : Interval} {v : Int} : (i.hull j).hi < v ↔ i.hi < v ∧ j.hi < v := by
  unfold hull
  dsimp only
  split <;> omega

theorem contains_hull_iff {i j : Interval} {v : Int} (hleft : j.lo ≤ i.hi + 1)
    (hright : i.lo ≤ j.hi + 1) :
    (i.hull j).contains v = true ↔ i.contains v = true ∨ j.contains v = true := by
  simp only [contains_iff]
  unfold hull
  dsimp only
  split <;> split <;> omega

theorem lt_hullAll_lo_iff {i : Interval} {intervals : List Interval} {v : Int} :
    v < (i.hullAll intervals).lo ↔ v < i.lo ∧ ∀ j ∈ intervals, v < j.lo := by
  induction intervals generalizing i with
  | nil => simp
  | cons j rest ih => simp only [hullAll_cons, ih, lt_hull_lo_iff, List.forall_mem_cons, and_assoc]

theorem hullAll_hi_lt_iff {i : Interval} {intervals : List Interval} {v : Int} :
    (i.hullAll intervals).hi < v ↔ i.hi < v ∧ ∀ j ∈ intervals, j.hi < v := by
  induction intervals generalizing i with
  | nil => simp
  | cons j rest ih => simp only [hullAll_cons, ih, hull_hi_lt_iff, List.forall_mem_cons, and_assoc]

/-- The hull of intervals that all overlap or adjoin `i` has no further values. -/
theorem contains_hullAll_iff {i : Interval} {intervals : List Interval} {v : Int}
    (htouch : ∀ j ∈ intervals, j.lo ≤ i.hi + 1 ∧ i.lo ≤ j.hi + 1) :
    (i.hullAll intervals).contains v = true ↔
      i.contains v = true ∨ ∃ j ∈ intervals, j.contains v = true := by
  induction intervals generalizing i with
  | nil => simp
  | cons j rest ih =>
    rw [List.forall_mem_cons] at htouch
    obtain ⟨⟨hleft, hright⟩, htouch⟩ := htouch
    have hlo : (i.hull j).lo ≤ i.lo := by
      unfold hull
      dsimp only
      split <;> omega
    have hhi : i.hi ≤ (i.hull j).hi := by
      unfold hull
      dsimp only
      split <;> omega
    -- the hull only grows, so what touches `i` touches the hull
    have hgrown : ∀ k ∈ rest, k.lo ≤ (i.hull j).hi + 1 ∧ (i.hull j).lo ≤ k.hi + 1 := by
      intro k hk
      have := htouch k hk
      omega
    rw [hullAll_cons, ih hgrown, contains_hull_iff hleft hright]
    simp only [List.mem_cons, exists_eq_or_imp, or_assoc]

theorem Ascending.tail {i : Interval} {rest : List Interval} (h : Ascending (i :: rest)) :
    Ascending rest :=
  ⟨fun j hj => h.nonempty j (List.mem_cons_of_mem i hj), h.before.tail⟩

theorem Ascending.head_lt {i : Interval} {rest : List Interval} (h : Ascending (i :: rest)) :
    ∀ j ∈ rest, i.hi < j.lo :=
  (List.pairwise_cons.mp h.before).1

theorem ascending_nil : Ascending [] := ⟨by simp, .nil⟩

end Interval

namespace IntervalSet

open NameGlob.Interval

variable {b : Bounds}

/-- The intervals that are absorbed are those in front that begin within reach. -/
theorem absorb_split (reach grown : Interval) {intervals : List Interval}
    (h : Ascending intervals) :
    ∃ met behind, intervals = met ++ behind ∧
      absorb reach grown intervals = (grown.hullAll met, behind) ∧
      (∀ i ∈ met, i.lo ≤ reach.hi) ∧ (∀ i ∈ behind, reach.hi < i.lo) := by
  induction intervals generalizing grown with
  | nil => exact ⟨[], [], rfl, rfl, by simp, by simp⟩
  | cons i rest ih =>
    by_cases hbehind : reach.hi < i.lo
    · refine ⟨[], i :: rest, rfl, by simp [absorb, before_iff.mpr hbehind], by simp, ?_⟩
      intro j hj
      rcases List.mem_cons.mp hj with rfl | hj
      · exact hbehind
      · have := h.head_lt j hj
        have := h.nonempty i List.mem_cons_self
        omega
    · obtain ⟨met, behind, rfl, habsorb, hmet, hafter⟩ := ih (grown.hull i) h.tail
      refine ⟨i :: met, behind, rfl, ?_, ?_, hafter⟩
      · rw [absorb, if_neg (by rw [before_iff]; exact hbehind), habsorb, hullAll_cons]
      · rw [List.forall_mem_cons]
        exact ⟨by omega, hmet⟩

/-- The intervals are split into those that end before `reach`, those that have a value in common with
it, and those that begin behind it. The second part is merged with the new interval. -/
theorem place_split (reach new : Interval) {intervals : List Interval} (h : Ascending intervals) :
    ∃ front met behind, intervals = front ++ met ++ behind ∧
      place reach new intervals = (new.hullAll met, front ++ new.hullAll met :: behind) ∧
      (∀ i ∈ front, i.hi < reach.lo) ∧
      (∀ i ∈ met, i.lo ≤ reach.hi ∧ reach.lo ≤ i.hi) ∧
      (∀ i ∈ behind, reach.hi < i.lo) := by
  induction intervals with
  | nil => exact ⟨[], [], [], rfl, rfl, by simp, by simp, by simp⟩
  | cons i rest ih =>
    by_cases hfront : i.hi < reach.lo
    · obtain ⟨front, met, behind, rfl, hplace, hbefore, hmet, hafter⟩ := ih h.tail
      refine ⟨i :: front, met, behind, rfl, ?_, ?_, hmet, hafter⟩
      · rw [place, if_pos (before_iff.mpr hfront), hplace]
        rfl
      · rw [List.forall_mem_cons]
        exact ⟨hfront, hbefore⟩
    · obtain ⟨met, behind, hsplit, habsorb, hmet, hafter⟩ :=
        absorb_split reach new h
      refine ⟨[], met, behind, hsplit, ?_, by simp, ?_, hafter⟩
      · rw [place, if_neg (by rw [before_iff]; exact hfront), habsorb]
        rfl
      · intro j hj
        refine ⟨hmet j hj, ?_⟩
        have hmem : j ∈ i :: rest := hsplit ▸ List.mem_append_left behind hj
        rcases List.mem_cons.mp hmem with rfl | hrest
        · omega
        · have := h.head_lt j hrest
          have := h.nonempty j hmem
          omega

theorem widen_lo_le (new : Interval) :
    new.lo - 1 ≤ (b.widen new).lo ∧ (b.widen new).lo ≤ new.lo := by
  unfold Bounds.widen
  dsimp only
  split <;> omega

theorem le_widen_hi (new : Interval) :
    new.hi ≤ (b.widen new).hi ∧ (b.widen new).hi ≤ new.hi + 1 := by
  unfold Bounds.widen
  dsimp only
  split <;> omega

theorem insertAt_split {set : IntervalSet b} (new : Interval) (h : Ascending set.intervals) :
    ∃ front met behind, set.intervals = front ++ met ++ behind ∧
      set.insertAt new = (new.hullAll met, ⟨front ++ new.hullAll met :: behind⟩) ∧
      (∀ i ∈ front, i.hi < (b.widen new).lo) ∧
      (∀ i ∈ met, i.lo ≤ (b.widen new).hi ∧ (b.widen new).lo ≤ i.hi) ∧
      (∀ i ∈ behind, (b.widen new).hi < i.lo) := by
  obtain ⟨front, met, behind, hsplit, hplace, hparts⟩ :=
    place_split (b.widen new) new h
  refine ⟨front, met, behind, hsplit, ?_, hparts⟩
  rw [insertAt, hplace]

/-- An insertion adds the values of the new interval, and no others. -/
theorem contains_insert_iff {set : IntervalSet b} {new : Interval} {v : Int}
    (h : Ascending set.intervals) :
    (set.insert new).contains v = true ↔ set.contains v = true ∨ new.contains v = true := by
  obtain ⟨front, met, behind, hsplit, hinsert, -, hmet, -⟩ := insertAt_split new h
  have htouch : ∀ i ∈ met, i.lo ≤ new.hi + 1 ∧ new.lo ≤ i.hi + 1 := by
    intro i hi
    have := hmet i hi
    have := widen_lo_le (b := b) new
    have := le_widen_hi (b := b) new
    omega
  have hhull := @contains_hullAll_iff new met v htouch
  simp only [Interval.contains_iff] at hhull
  simp only [insert, hinsert, contains_iff, hsplit, List.mem_append, List.mem_cons,
    Interval.contains_iff]
  grind

/-- After an insertion the intervals still ascend. -/
theorem ascending_insert {set : IntervalSet b} {new : Interval} (h : Ascending set.intervals)
    (hnew : new.lo ≤ new.hi) : Ascending (set.insert new).intervals := by
  obtain ⟨front, met, behind, hsplit, hinsert, hfront, -, hbehind⟩ := insertAt_split new h
  have hbefore := h.before
  rw [hsplit, List.append_assoc, List.pairwise_append, List.pairwise_append] at hbefore
  obtain ⟨hff, ⟨-, hbb, hmb⟩, hfmb⟩ := hbefore
  have hwiden := widen_lo_le (b := b) new
  have hwiden' := le_widen_hi (b := b) new
  simp only [insert, hinsert]
  constructor
  · intro i hi
    rcases List.mem_append.mp hi with hi | hi
    · exact h.nonempty i (by simp [hsplit, hi])
    · rcases List.mem_cons.mp hi with rfl | hi
      · have hlo := @lt_hullAll_lo_iff new met new.lo
        have hhi := @hullAll_hi_lt_iff new met new.hi
        omega
      · exact h.nonempty i (by simp [hsplit, hi])
  · rw [List.pairwise_append, List.pairwise_cons]
    refine ⟨hff, ⟨?_, hbb⟩, ?_⟩
    · intro j hj
      rw [hullAll_hi_lt_iff]
      exact ⟨by have := hbehind j hj; omega, fun i hi => hmb i hi j hj⟩
    · intro i hi j hj
      rcases List.mem_cons.mp hj with rfl | hj
      · rw [lt_hullAll_lo_iff]
        exact ⟨by have := hfront i hi; omega, fun k hk => hfmb i hi k (by simp [hk])⟩
      · exact hfmb i hi j (by simp [hj])

end IntervalSet

end NameGlob
