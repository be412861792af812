import Mathlib.Data.Set.Card
import NameGlob.Proofs.Case.Folding
import NameGlob.Proofs.Interval.Canonical

/-!
# Counterparts of letters

The case table pairs upper case letters with lower case letters. No letter belongs to two pairs, so any row
that knows a letter gives its counterpart, and the order in which the rows are searched does not matter. Each
of the two maps goes to one side of the pairs, and a character shares its folded form with its counterpart
only. The letters are so small that the searches can be carried out with words.
-/

namespace NameGlob

/-- The value, if it lies within the bounds. -/
def Bounds.fit? (b : Bounds) (v : Int) : Option Int :=
  if b.Holds v then some v else none

namespace Case

open FoldRow

variable {c d u l : CodePoint} {row : FoldRow} {rows : List FoldRow}

theorem upper_lower (c : CodePoint) : upper (lower c) = upper c := by
  rcases lower_cases c with ⟨row, hrow, hupper, -⟩ | hnone
  · rw [upper_lower_of_hasUpper hrow hupper]
    exact (upper_of_not_hasLower fun other hother => hasLower_eq_false hrow hother hupper).symm
  · rw [lower_of_not_hasUpper hnone]

theorem upper_upper (c : CodePoint) : upper (upper c) = upper c := by
  rw [← upper_lower (upper c), lower_upper, upper_lower]

/-- Two characters have the same lower case form exactly when they have the same upper case form. -/
theorem lower_eq_lower_iff : lower c = lower d ↔ upper c = upper d := by
  constructor
  · intro h
    rw [← upper_lower c, h, upper_lower]
  · intro h
    rw [← lower_upper c, h, lower_upper]

/-- A folded form comes from itself and from its upper case form, so from two characters at most. -/
theorem encard_lower_eq_le_two (c : CodePoint) : {x | lower x = c}.encard ≤ 2 := by
  have hsub : {x | lower x = c} ⊆ {c, upper c} := fun x hx => eq_or_eq_upper_of_lower_eq hx
  calc {x | lower x = c}.encard
    _ ≤ ({c, upper c} : Set CodePoint).encard := Set.encard_le_encard hsub
    _ ≤ ({upper c} : Set CodePoint).encard + 1 := Set.encard_insert_le _ c
    _ = 2 := by rw [Set.encard_singleton, one_add_one_eq_two]

/-! ### Searches of the whole table -/

/-- Some row of the table, whichever it is, has the upper case letter `u` and gives it the lower case
letter `l`. -/
def Counterparts (u l : CodePoint) : Prop :=
  ∃ row ∈ letterRows, row.hasUpper u = true ∧ l = u + row.delta

theorem Counterparts.lower_eq (h : Counterparts u l) : lower u = l := by
  obtain ⟨row, hrow, hupper, rfl⟩ := h
  exact lower_of_hasUpper hrow hupper

theorem Counterparts.upper_eq (h : Counterparts u l) : upper l = u := by
  obtain ⟨row, hrow, hupper, rfl⟩ := h
  rw [upper_of_hasLower hrow (by rwa [hasLower_add_delta]), Int.add_sub_cancel]

theorem lower_of_no_counterpart (h : ∀ l, ¬ Counterparts c l) : lower c = c := by
  refine lower_of_not_hasUpper fun row hrow => Bool.eq_false_iff.mpr fun hupper => ?_
  exact h _ ⟨row, hrow, hupper, rfl⟩

theorem upper_of_no_counterpart (h : ∀ u, ¬ Counterparts u c) : upper c = c := by
  refine upper_of_not_hasLower fun row hrow => Bool.eq_false_iff.mpr fun hlower => ?_
  exact h (c - row.delta) ⟨row, hrow, hlower, (Int.sub_add_cancel c row.delta).symm⟩

/-- The lower case form is what any row gives, or the character itself if no row gives anything. -/
theorem lower_eq_iff : lower c = d ↔ Counterparts c d ∨ d = c ∧ ∀ l, ¬ Counterparts c l := by
  constructor
  · rintro rfl
    by_cases h : ∃ l, Counterparts c l
    · obtain ⟨l, hl⟩ := h
      exact .inl (hl.lower_eq.symm ▸ hl)
    · have hnone := not_exists.mp h
      exact .inr ⟨lower_of_no_counterpart hnone, hnone⟩
  · rintro (h | ⟨rfl, h⟩)
    · exact h.lower_eq
    · exact lower_of_no_counterpart h

/-- The upper case form is what any row gives, or the character itself if no row gives anything. -/
theorem upper_eq_iff : upper c = d ↔ Counterparts d c ∨ d = c ∧ ∀ u, ¬ Counterparts u c := by
  constructor
  · rintro rfl
    by_cases h : ∃ u, Counterparts u c
    · obtain ⟨u, hu⟩ := h
      exact .inl (hu.upper_eq.symm ▸ hu)
    · have hnone := not_exists.mp h
      exact .inr ⟨upper_of_no_counterpart hnone, hnone⟩
  · rintro (h | ⟨rfl, h⟩)
    · exact h.upper_eq
    · exact upper_of_no_counterpart h

/-! ### Searches with words -/

namespace FoldRow

/-- Tells whether `c` is an upper case letter of the row. The distance from the first one has to be a word. -/
def hasUpperInWords? (row : FoldRow) (c : CodePoint) : Option Bool :=
  if row.lo ≤ c ∧ c ≤ row.hi then
    (Bounds.word.fit? (c - row.lo)).map (· % row.step == 0)
  else some false

/-- The row of the lower case letters. Its ends have to be words. -/
def loweredInWords? (row : FoldRow) : Option FoldRow := do
  let lo ← Bounds.word.fit? (row.lo + row.delta)
  let hi ← Bounds.word.fit? (row.hi + row.delta)
  return { row with lo, hi }

end FoldRow

/-- Searches the lower case letter of `c` in ascending rows. There is no answer if a sum is no word. -/
def lowerInWords? (c : CodePoint) : List FoldRow → Option CodePoint
  | [] => some c
  | row :: rows =>
    if c < row.lo then some c
    else do
      if ← row.hasUpperInWords? c then Bounds.word.fit? (c + row.delta)
      else lowerInWords? c rows

/-- Searches the upper case letter of `c` in all rows. There is no answer if a sum is no word. -/
def upperInWords? (c : CodePoint) : List FoldRow → Option CodePoint
  | [] => some c
  | row :: rows => do
    let lowered ← row.loweredInWords?
    if ← lowered.hasUpperInWords? c then Bounds.word.fit? (c - row.delta)
    else upperInWords? c rows

/-- The rows that are searched for the counterpart of `c`. -/
def rowsFor (c : CodePoint) : List FoldRow :=
  if c < 0x80 then [asciiRow] else foldTable

theorem lo_le_hi : ∀ row ∈ letterRows, row.lo ≤ row.hi := by decide

theorem rowsFor_subset (c : CodePoint) : rowsFor c ⊆ letterRows := by
  unfold rowsFor
  split
  · exact List.cons_subset_cons asciiRow (List.nil_subset foldTable)
  · exact List.subset_cons_self asciiRow foldTable

/-- Code points and differences of code points are words. -/
theorem fit?_word {v : Int} (hmin : -0x10FFFF ≤ v) (hmax : v ≤ 0x10FFFF) : Bounds.word.fit? v = some v := by
  have hword : Bounds.word.Holds v := ⟨Int.le_trans (by decide) hmin, Int.le_trans hmax (by decide)⟩
  rw [Bounds.fit?, if_pos hword]

namespace FoldRow

theorem hasUpperInWords?_eq (hlo : 0 ≤ row.lo) (hhi : row.hi ≤ Utf8.maxCodePoint) :
    row.hasUpperInWords? c = some (row.hasUpper c) := by
  unfold hasUpperInWords? hasUpper
  unfold Utf8.maxCodePoint CodePoint at *
  split
  · rename_i hc
    rw [fit?_word (by omega) (by omega)]
    simp [hc]
  · rename_i hc
    rw [not_and] at hc
    by_cases hle : row.lo ≤ c <;> simp [hle, hc]

theorem loweredInWords?_eq (hrow : row ∈ letterRows) : row.loweredInWords? = some row.lowered := by
  obtain ⟨-, hlo, hhi⟩ := letterRows_bounds row hrow
  have hle := lo_le_hi row hrow
  unfold loweredInWords? lowered at *
  dsimp only at hlo hhi
  unfold Utf8.maxCodePoint CodePoint at *
  rw [fit?_word (by omega) (by omega), fit?_word (by omega) (by omega)]
  rfl

/-- The lower case letter of a letter of the row is a word. -/
theorem fit?_add_delta (hrow : row ∈ letterRows) (hupper : row.hasUpper c = true) :
    Bounds.word.fit? (c + row.delta) = some (c + row.delta) := by
  rw [← hasLower_add_delta, ← hasUpper_lowered] at hupper
  obtain ⟨hlo, hhi, -⟩ := hasUpper_iff.mp hupper
  obtain ⟨-, hmin, hmax⟩ := letterRows_bounds row hrow
  unfold Utf8.maxCodePoint CodePoint at *
  exact fit?_word (by omega) (by omega)

/-- The upper case letter of a letter of the row is a word. -/
theorem fit?_sub_delta (hrow : row ∈ letterRows) (hlower : row.hasLower c = true) :
    Bounds.word.fit? (c - row.delta) = some (c - row.delta) := by
  obtain ⟨hlo, hhi, -⟩ := hasUpper_iff.mp hlower
  obtain ⟨⟨hmin, hmax⟩, -⟩ := letterRows_bounds row hrow
  unfold Utf8.maxCodePoint CodePoint at *
  exact fit?_word (by omega) (by omega)

end FoldRow

/-- Words suffice to search a lower case letter in rows of the table. -/
theorem lowerInWords?_eq (h : rows ⊆ letterRows) : lowerInWords? c rows = some (lowerIn c rows) := by
  induction rows with
  | nil => rfl
  | cons row rows ih =>
    obtain ⟨hrow, hrows⟩ := List.cons_subset.mp h
    obtain ⟨⟨hlo, hhi⟩, -⟩ := letterRows_bounds row hrow
    rw [lowerInWords?, lowerIn]
    split
    · rfl
    · rw [hasUpperInWords?_eq hlo hhi, Option.bind_eq_bind, Option.bind_some]
      split
      · rename_i hupper
        exact fit?_add_delta hrow hupper
      · exact ih hrows

/-- Words suffice to search an upper case letter in rows of the table. -/
theorem upperInWords?_eq (h : rows ⊆ letterRows) :
    upperInWords? c rows = some ((rows.find? (·.hasLower c)).elim c (c - ·.delta)) := by
  induction rows with
  | nil => rfl
  | cons row rows ih =>
    obtain ⟨hrow, hrows⟩ := List.cons_subset.mp h
    obtain ⟨-, hlo, hhi⟩ := letterRows_bounds row hrow
    rw [upperInWords?, loweredInWords?_eq hrow, Option.bind_eq_bind, Option.bind_some, hasUpperInWords?_eq hlo hhi,
      Option.bind_eq_bind, Option.bind_some, hasUpper_lowered]
    split
    · rename_i hlower
      rw [List.find?_cons_of_pos (p := fun row : FoldRow => row.hasLower c) hlower]
      exact fit?_sub_delta hrow hlower
    · rename_i hlower
      rw [List.find?_cons_of_neg (p := fun row : FoldRow => row.hasLower c) hlower]
      exact ih hrows

theorem lowerIn_rowsFor (c : CodePoint) : lowerIn c (rowsFor c) = lower c := by
  unfold rowsFor lower
  split
  · rw [lowerIn_eq (List.pairwise_singleton _ _)]
    cases h : asciiRow.hasUpper c <;> simp [h]
  · rfl

theorem find?_rowsFor (c : CodePoint) :
    ((rowsFor c).find? (·.hasLower c)).elim c (c - ·.delta) = upper c := by
  unfold rowsFor upper
  split
  · cases h : asciiRow.hasLower c <;> simp [h]
  · cases foldTable.find? (·.hasLower c) <;> rfl

/-- The two case maps are a consistent folding. They are idempotent, and one after the other they act like the second
alone; so they agree on which characters differ in case only, and at most two characters have the same folded form. A
search gives what any row of the whole table gives, and the character itself if no row gives anything; and all sums
that it computes are words. -/
theorem folding_consistent (c d : CodePoint) :
    (lower (lower c) = lower c ∧ upper (upper c) = upper c ∧ upper (lower c) = upper c ∧
      lower (upper c) = lower c) ∧
    (lower c = lower d ↔ upper c = upper d) ∧
    {x | lower x = c}.encard ≤ 2 ∧
    (lower c = d ↔ Counterparts c d ∨ d = c ∧ ∀ l, ¬ Counterparts c l) ∧
    (upper c = d ↔ Counterparts d c ∨ d = c ∧ ∀ u, ¬ Counterparts u c) ∧
    lowerInWords? c (rowsFor c) = some (lower c) ∧ upperInWords? c (rowsFor c) = some (upper c) := by
  refine ⟨⟨lower_lower c, upper_upper c, upper_lower c, lower_upper c⟩, lower_eq_lower_iff,
    encard_lower_eq_le_two c, lower_eq_iff, upper_eq_iff, ?_, ?_⟩
  · rw [lowerInWords?_eq (rowsFor_subset c), lowerIn_rowsFor]
  · rw [upperInWords?_eq (rowsFor_subset c), find?_rowsFor]

end Case

end NameGlob
