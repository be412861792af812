import NameGlob.Case.Rule

/-!
# Folding of case

No two rows of the case table share a letter: not among the upper case letters, not among the lower case
letters, and not across. So each letter has one counterpart, the two case maps undo each other on
letters, and a folded character comes from itself and from its upper case form only.
-/

namespace NameGlob

namespace Case

def letterRows : List FoldRow :=
  asciiRow :: foldTable

namespace FoldRow

variable {row other : FoldRow} {c : CodePoint}

theorem hasUpper_iff :
    row.hasUpper c = true ↔ row.lo ≤ c ∧ c ≤ row.hi ∧ (c - row.lo) % row.step = 0 := by
  simp [hasUpper, and_assoc]

/-- The row of the lower case letters. -/
def lowered (row : FoldRow) : FoldRow :=
  { row with lo := row.lo + row.delta, hi := row.hi + row.delta }

theorem hasUpper_lowered (row : FoldRow) (c : CodePoint) : row.lowered.hasUpper c = row.hasLower c := by
  have hshift : c - (row.lo + row.delta) = c - row.delta - row.lo := by grind
  have hlo : row.lo + row.delta ≤ c ↔ row.lo ≤ c - row.delta := by grind
  have hhi : c ≤ row.hi + row.delta ↔ c - row.delta ≤ row.hi := by grind
  rw [Bool.eq_iff_iff, hasLower, hasUpper_iff, hasUpper_iff]
  simp only [lowered, hshift, hlo, hhi]

@[simp] theorem hasLower_add_delta : row.hasLower (c + row.delta) = row.hasUpper c := by
  rw [hasLower, Int.add_sub_cancel]

/-- The last upper case letter of a row. -/
def last (row : FoldRow) : CodePoint :=
  row.lo + row.step * ((row.hi - row.lo) / row.step)

theorem le_last (hstep : 0 < row.step) (h : row.hasUpper c = true) : c ≤ row.last := by
  obtain ⟨-, hhi, hmod⟩ := hasUpper_iff.mp h
  have hc : row.step * ((c - row.lo) / row.step) = c - row.lo :=
    Int.mul_ediv_cancel' (Int.dvd_of_emod_eq_zero hmod)
  have hle : (c - row.lo) / row.step ≤ (row.hi - row.lo) / row.step :=
    Int.ediv_le_ediv hstep (Int.sub_le_sub_right hhi row.lo)
  have hmul := Int.mul_le_mul_of_nonneg_left hle (Int.le_of_lt hstep)
  unfold last
  grind

/-- Two rows lie apart: one ends before the other begins, or both take every second value and the values
of one lie between those of the other. -/
def Apart (row other : FoldRow) : Prop :=
  row.last < other.lo ∨ other.last < row.lo ∨
    (row.step = 2 ∧ other.step = 2 ∧ (row.lo - other.lo) % 2 = 1)

instance (row other : FoldRow) : Decidable (row.Apart other) :=
  inferInstanceAs (Decidable (_ ∨ _ ∨ _))

/-- Rows that lie apart share no letter. -/
theorem Apart.hasUpper_eq_false (h : row.Apart other) (hstep : 0 < row.step)
    (hstep' : 0 < other.step) (hc : row.hasUpper c = true) : other.hasUpper c = false := by
  rw [Bool.eq_false_iff]
  intro hother
  have hlast := le_last hstep hc
  have hlast' := le_last hstep' hother
  obtain ⟨hlo, -, hmod⟩ := hasUpper_iff.mp hc
  obtain ⟨hlo', -, hmod'⟩ := hasUpper_iff.mp hother
  unfold Apart at h
  unfold CodePoint at *
  rcases h with hbefore | hbehind | ⟨htwo, htwo', hbetween⟩
  · omega
  · omega
  · -- the letters of the two rows differ in parity
    rw [htwo] at hmod
    rw [htwo'] at hmod'
    omega

end FoldRow

section Table

open FoldRow

variable {row other : FoldRow} {c : CodePoint}

theorem step_pos : ∀ row ∈ letterRows, 0 < row.step := by decide

theorem ascending_foldTable : foldTable.Pairwise fun row other => row.lo < other.lo := by decide

theorem apart_upper : letterRows.Pairwise Apart := by decide +kernel

theorem apart_lower : letterRows.Pairwise fun row other => row.lowered.Apart other.lowered := by
  decide +kernel

theorem apart_upper_lower : ∀ row ∈ letterRows, ∀ other ∈ letterRows, row.Apart other.lowered := by
  decide +kernel

theorem ascii_lt : ∀ row ∈ foldTable, 0x80 ≤ row.lo ∧ 0x80 ≤ row.lowered.lo := by decide

theorem letterRows_bounds : ∀ row ∈ letterRows,
    (0 ≤ row.lo ∧ row.hi ≤ Utf8.maxCodePoint) ∧
      (0 ≤ row.lowered.lo ∧ row.lowered.hi ≤ Utf8.maxCodePoint) := by decide

theorem hasLower_eq_false (hrow : row ∈ letterRows) (hother : other ∈ letterRows)
    (h : row.hasUpper c = true) : other.hasLower c = false := by
  rw [← hasUpper_lowered]
  exact (apart_upper_lower row hrow other hother).hasUpper_eq_false (step_pos row hrow)
    (step_pos other hother) h

/-- In a list in which one row at most satisfies `p`, a search finds that row. -/
theorem find?_eq_some {rows : List FoldRow} {p : FoldRow → Bool}
    (hrows : rows.Pairwise fun row other => p row = true → p other = false) (hrow : row ∈ rows)
    (hp : p row = true) : rows.find? p = some row := by
  induction rows with
  | nil => simp at hrow
  | cons other rest ih =>
    obtain ⟨hother, hrest⟩ := List.pairwise_cons.mp hrows
    rcases List.mem_cons.mp hrow with rfl | hmem
    · exact List.find?_cons_of_pos hp
    · have hfalse : ¬p other = true := by
        intro htrue
        simp [hother row hmem htrue] at hp
      rw [List.find?_cons_of_neg hfalse]
      exact ih hrest hmem

/-- The search that ends at the first row that begins above `c` finds what a search of all rows finds. -/
theorem lowerIn_eq {rows : List FoldRow} (h : rows.Pairwise fun row other => row.lo < other.lo) :
    lowerIn c rows = (rows.find? (·.hasUpper c)).elim c (c + ·.delta) := by
  induction rows with
  | nil => rfl
  | cons row rest ih =>
    obtain ⟨hrow, hrest⟩ := List.pairwise_cons.mp h
    rw [lowerIn]
    split
    · rename_i hlt
      have hnone : (row :: rest).find? (·.hasUpper c) = none := by
        rw [List.find?_eq_none]
        intro other hother hupper
        have hlo := (hasUpper_iff.mp hupper).1
        rcases List.mem_cons.mp hother with rfl | hmem
        · grind
        · have := hrow other hmem
          grind
      rw [hnone]
      rfl
    · split
      · rename_i hupper
        rw [List.find?_cons_of_pos (p := fun row : FoldRow => row.hasUpper c) hupper]
        rfl
      · rename_i hupper
        rw [List.find?_cons_of_neg (p := fun row : FoldRow => row.hasUpper c) hupper]
        exact ih hrest

theorem lower_eq (c : CodePoint) :
    lower c = (letterRows.find? (·.hasUpper c)).elim c (c + ·.delta) := by
  unfold lower letterRows
  split
  · rename_i hascii
    split
    · rename_i hupper
      rw [List.find?_cons_of_pos (p := fun row : FoldRow => row.hasUpper c) hupper]
      rfl
    · rename_i hupper
      have hnone : foldTable.find? (·.hasUpper c) = none := by
        rw [List.find?_eq_none]
        intro row hrow hupper
        have := (ascii_lt row hrow).1
        have := (hasUpper_iff.mp hupper).1
        grind
      rw [List.find?_cons_of_neg (p := fun row : FoldRow => row.hasUpper c) hupper, hnone]
      rfl
  · rename_i hother
    have hascii : ¬asciiRow.hasUpper c = true := by
      intro hupper
      have := (hasUpper_iff.mp hupper).2.1
      grind [asciiRow]
    rw [List.find?_cons_of_neg (p := fun row : FoldRow => row.hasUpper c) hascii]
    exact lowerIn_eq ascending_foldTable

theorem upper_eq (c : CodePoint) :
    upper c = (letterRows.find? (·.hasLower c)).elim c (c - ·.delta) := by
  unfold upper letterRows
  split
  · rename_i hascii
    split
    · rename_i hlower
      rw [List.find?_cons_of_pos (p := fun row : FoldRow => row.hasLower c) hlower]
      rfl
    · rename_i hlower
      have hnone : foldTable.find? (·.hasLower c) = none := by
        rw [List.find?_eq_none]
        intro row hrow hlower
        rw [← hasUpper_lowered] at hlower
        have := (ascii_lt row hrow).2
        have := (hasUpper_iff.mp hlower).1
        grind
      rw [List.find?_cons_of_neg (p := fun row : FoldRow => row.hasLower c) hlower, hnone]
      rfl
  · rename_i hother
    have hascii : ¬asciiRow.hasLower c = true := by
      intro hlower
      rw [← hasUpper_lowered] at hlower
      have := (hasUpper_iff.mp hlower).2.1
      grind [asciiRow, lowered]
    rw [List.find?_cons_of_neg (p := fun row : FoldRow => row.hasLower c) hascii]
    split <;> simp [*]

theorem lower_of_hasUpper (hrow : row ∈ letterRows) (h : row.hasUpper c = true) :
    lower c = c + row.delta := by
  have hone : letterRows.Pairwise fun row other =>
      row.hasUpper c = true → other.hasUpper c = false :=
    apart_upper.imp_of_mem fun hrow hother hapart =>
      hapart.hasUpper_eq_false (step_pos _ hrow) (step_pos _ hother)
  rw [lower_eq, find?_eq_some hone hrow h]
  rfl

theorem lower_of_not_hasUpper (h : ∀ row ∈ letterRows, row.hasUpper c = false) : lower c = c := by
  have hnone : letterRows.find? (·.hasUpper c) = none := by
    simpa [List.find?_eq_none] using h
  rw [lower_eq, hnone]
  rfl

theorem upper_of_hasLower (hrow : row ∈ letterRows) (h : row.hasLower c = true) :
    upper c = c - row.delta := by
  have hone : letterRows.Pairwise fun row other =>
      row.hasLower c = true → other.hasLower c = false :=
    apart_lower.imp_of_mem fun {row other} hrow hother hapart => by
      rw [← hasUpper_lowered, ← hasUpper_lowered]
      exact hapart.hasUpper_eq_false (step_pos row hrow) (step_pos other hother)
  rw [upper_eq, find?_eq_some hone hrow h]
  rfl

theorem upper_of_not_hasLower (h : ∀ row ∈ letterRows, row.hasLower c = false) : upper c = c := by
  have hnone : letterRows.find? (·.hasLower c) = none := by
    simpa [List.find?_eq_none] using h
  rw [upper_eq, hnone]
  rfl

/-- A character is an upper case letter, or folding leaves it as it is. -/
theorem lower_cases (c : CodePoint) :
    (∃ row ∈ letterRows, row.hasUpper c = true ∧ row.hasLower (lower c) = true) ∨
      (∀ row ∈ letterRows, row.hasUpper c = false) := by
  by_cases h : ∃ row ∈ letterRows, row.hasUpper c = true
  · obtain ⟨row, hrow, hupper⟩ := h
    refine .inl ⟨row, hrow, hupper, ?_⟩
    rw [lower_of_hasUpper hrow hupper, hasLower_add_delta]
    exact hupper
  · refine .inr fun row hrow => Bool.eq_false_iff.mpr fun hupper => h ⟨row, hrow, hupper⟩

theorem upper_lower_of_hasUpper (hrow : row ∈ letterRows) (h : row.hasUpper c = true) :
    upper (lower c) = c := by
  rw [lower_of_hasUpper hrow h, upper_of_hasLower hrow (by rwa [hasLower_add_delta]),
    Int.add_sub_cancel]

theorem lower_upper_of_hasLower (hrow : row ∈ letterRows) (h : row.hasLower c = true) :
    lower (upper c) = c := by
  rw [upper_of_hasLower hrow h, lower_of_hasUpper hrow h, Int.sub_add_cancel]

theorem hasUpper_eq_false (hrow : row ∈ letterRows) (hother : other ∈ letterRows)
    (h : row.hasLower c = true) : other.hasUpper c = false := by
  rw [Bool.eq_false_iff]
  intro hupper
  simp [hasLower_eq_false hother hrow hupper] at h

theorem lower_lower (c : CodePoint) : lower (lower c) = lower c := by
  rcases lower_cases c with ⟨row, hrow, -, hlower⟩ | hnone
  · exact lower_of_not_hasUpper fun other hother => hasUpper_eq_false hrow hother hlower
  · rw [lower_of_not_hasUpper hnone, lower_of_not_hasUpper hnone]

theorem lower_upper (c : CodePoint) : lower (upper c) = lower c := by
  by_cases h : ∃ row ∈ letterRows, row.hasLower c = true
  · obtain ⟨row, hrow, hlower⟩ := h
    rw [lower_upper_of_hasLower hrow hlower]
    exact (lower_of_not_hasUpper fun other hother => hasUpper_eq_false hrow hother hlower).symm
  · have hnone : ∀ row ∈ letterRows, row.hasLower c = false :=
      fun row hrow => Bool.eq_false_iff.mpr fun hlower => h ⟨row, hrow, hlower⟩
    rw [upper_of_not_hasLower hnone]

/-- A folded character comes from itself and from its upper case form only. -/
theorem eq_or_eq_upper_of_lower_eq {d : CodePoint} (h : lower d = c) : d = c ∨ d = upper c := by
  subst h
  rcases lower_cases d with ⟨row, hrow, hupper, -⟩ | hnone
  · exact .inr (upper_lower_of_hasUpper hrow hupper).symm
  · exact .inl (lower_of_not_hasUpper hnone).symm

/-- Values that are no code points have no case. -/
theorem lower_of_not_codePoint (h : c < 0 ∨ Utf8.maxCodePoint < c) : lower c = c := by
  refine lower_of_not_hasUpper fun row hrow => Bool.eq_false_iff.mpr fun hupper => ?_
  obtain ⟨hlo, hhi, -⟩ := hasUpper_iff.mp hupper
  have := (letterRows_bounds row hrow).1
  grind

theorem upper_of_not_codePoint (h : c < 0 ∨ Utf8.maxCodePoint < c) : upper c = c := by
  refine upper_of_not_hasLower fun row hrow => Bool.eq_false_iff.mpr fun hlower => ?_
  rw [← hasUpper_lowered] at hlower
  obtain ⟨hlo, hhi, -⟩ := hasUpper_iff.mp hlower
  have := (letterRows_bounds row hrow).2
  grind

theorem asciiRow_mem : asciiRow ∈ letterRows := List.mem_cons_self

end Table

end Case

namespace CaseRule

variable {rule : CaseRule} {c : CodePoint}

/-- The rule folds by the case table alone: it asks no locale, or one that knows no further letters. -/
def ByTable (rule : CaseRule) : Prop :=
  rule.ignoreCase = true ∧ (rule.invariant = true ∨ rule.locale = .classic)

theorem viaLocale_eq {map fallback : CodePoint → CodePoint}
    (houtside : c < 0 ∨ Utf8.maxCodePoint < c → fallback c = c)
    (hmapped : map c ≠ c → map c = fallback c) : viaLocale map fallback c = fallback c := by
  unfold viaLocale
  split
  · rename_i hrange
    exact (houtside hrange).symm
  · split
    · rename_i hmap
      exact hmapped hmap
    · rfl

theorem ByTable.fold_eq_lower (h : rule.ByTable) (c : CodePoint) : rule.fold c = Case.lower c := by
  obtain ⟨hignore, hmaps⟩ := h
  rw [fold, hignore]
  rcases hmaps with hinvariant | hclassic
  · simp [hinvariant]
  · have hvia : viaLocale Locale.classic.lower Case.lower c = Case.lower c := by
      refine viaLocale_eq Case.lower_of_not_codePoint fun hmapped => ?_
      -- the classic locale maps the row of ASCII, as the table does
      dsimp only [Locale.classic] at hmapped ⊢
      split at hmapped
      · rename_i hupper
        rw [if_pos hupper, Case.lower_of_hasUpper Case.asciiRow_mem hupper]
      · exact absurd rfl hmapped
    simp [hclassic, hvia]

theorem ByTable.upper_eq_upper (h : rule.ByTable) (c : CodePoint) : rule.upper c = Case.upper c := by
  obtain ⟨hignore, hmaps⟩ := h
  rw [upper, hignore]
  rcases hmaps with hinvariant | hclassic
  · simp [hinvariant]
  · have hvia : viaLocale Locale.classic.upper Case.upper c = Case.upper c := by
      refine viaLocale_eq Case.upper_of_not_codePoint fun hmapped => ?_
      dsimp only [Locale.classic] at hmapped ⊢
      split at hmapped
      · rename_i hlower
        rw [if_pos hlower, Case.upper_of_hasLower Case.asciiRow_mem hlower]
      · exact absurd rfl hmapped
    simp [hclassic, hvia]

end CaseRule

end NameGlob
