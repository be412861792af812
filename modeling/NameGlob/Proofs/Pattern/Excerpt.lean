import NameGlob.Pattern.Reading
import NameGlob.Proofs.Text.Boundaries

/-!
# Excerpts of faulty patterns

The message of a syntax error shows an excerpt of the pattern with a marker below it. The excerpt begins at a
byte that continues nothing, which may lie far in front of the fault when the pattern is not well-formed, and it
has about 60 bytes. So it is the continuation bytes in front of the fault that decide whether the fault is shown.
In a well-formed pattern there are never many of them: the excerpt holds whole characters, and the marker stands
in the column of the fault.
-/

namespace NameGlob

open Utf8

namespace Bytes

theorem zero_not_mem_decimal (n : Nat) : (0 : UInt8) ∉ decimal n := by
  intro hmem
  obtain ⟨c, hc, hzero⟩ := List.mem_map.mp hmem
  have hdigit := Nat.isDigit_of_mem_toDigits (by decide) (by decide) hc
  simp only [Char.isDigit, Bool.and_eq_true, decide_eq_true_eq, UInt32.le_iff_toNat_le] at hdigit
  change 48 ≤ c.toNat ∧ c.toNat ≤ 57 at hdigit
  have hbyte : c.toNat.toUInt8.toNat = c.toNat := toNat_toUInt8 (by omega)
  rw [hzero] at hbyte
  change 0 = c.toNat at hbyte
  omega

theorem slice_eq_take_drop (bytes : Bytes) (start stop : Nat) :
    bytes.slice start stop = (bytes.take stop).drop start := by
  rw [slice, List.drop_take]

end Bytes

theorem le_length_takeWhile_iff {α : Type} {p : α → Bool} {l : List α} {n : Nat} :
    n ≤ (l.takeWhile p).length ↔ n ≤ l.length ∧ ∀ a ∈ l.take n, p a = true := by
  induction l generalizing n with
  | nil => simp
  | cons a l ih =>
    cases n with
    | zero => simp
    | succ n =>
      by_cases ha : p a = true
      · rw [List.takeWhile_cons_of_pos ha, List.length_cons, List.length_cons, Nat.succ_le_succ_iff,
          Nat.succ_le_succ_iff, ih, List.take_succ_cons, List.forall_mem_cons]
        simp [ha]
      · simp [List.takeWhile_cons_of_neg ha, ha]

theorem getElem?_length_takeWhile {α : Type} (p : α → Bool) (l : List α) :
    (l[(l.takeWhile p).length]?).any p = false := by
  induction l with
  | nil => rfl
  | cons a l ih =>
    by_cases ha : p a = true
    · rwa [List.takeWhile_cons_of_pos ha, List.length_cons, List.getElem?_cons_succ]
    · simpa [List.takeWhile_cons_of_neg ha] using ha

namespace SyntaxError

variable {e : SyntaxError} {pattern : Bytes} {offset i : Nat}

theorem place_le_length (e : SyntaxError) : e.place ≤ e.pattern.length :=
  Nat.min_le_right _ _

theorem backToLead_le (pattern : Bytes) (offset : Nat) : backToLead pattern offset ≤ offset := by
  induction offset with
  | zero => exact Nat.le_refl 0
  | succ offset ih =>
    rw [backToLead]
    split
    · exact Nat.le_succ_of_le ih
    · exact Nat.le_refl _

/-- Only continuation bytes are passed on the way back. -/
theorem isContinuation_of_backToLead_lt (hback : backToLead pattern offset < i) (hi : i ≤ offset) :
    (pattern[i]?).any isContinuation = true := by
  induction offset with
  | zero => omega
  | succ offset ih =>
    rw [backToLead] at hback
    split at hback
    · rename_i hlast
      rcases Nat.le_succ_iff.mp hi with hearlier | rfl
      · exact ih hback hearlier
      · exact hlast
    · omega

/-- The way back ends at a byte that continues nothing, or at the beginning. -/
theorem backToLead_stands (pattern : Bytes) (offset : Nat) :
    backToLead pattern offset = 0 ∨ (pattern[backToLead pattern offset]?).any isContinuation = false := by
  induction offset with
  | zero => exact .inl rfl
  | succ offset ih =>
    rw [backToLead]
    split
    · exact ih
    · rename_i hlast
      exact .inr (Bool.not_eq_true _ ▸ hlast)

theorem excerptStart_le_place (e : SyntaxError) : e.excerptStart ≤ e.place := by
  rw [excerptStart]
  split
  · exact Nat.zero_le _
  · exact Nat.le_trans (backToLead_le _ _) (Nat.sub_le _ _)

theorem excerptEnd_le_length (e : SyntaxError) : e.excerptEnd ≤ e.pattern.length := by
  have hrun := (List.takeWhile_sublist (p := isContinuation)
    (l := e.pattern.drop (min (e.excerptStart + 60) e.pattern.length))).length_le
  rw [List.length_drop] at hrun
  rw [excerptEnd]
  omega

/-- The excerpt reaches to the fault when nothing but continuation bytes stands between its first 60 bytes and
the fault. -/
theorem place_le_excerptEnd_iff (e : SyntaxError) :
    e.place ≤ e.excerptEnd ↔
      ((e.pattern.take e.place).drop (e.excerptStart + 60)).all isContinuation = true := by
  have hlength := e.place_le_length
  rw [excerptEnd]
  rcases Nat.le_total e.place (e.excerptStart + 60) with hnear | hfar
  · have hshort : (e.pattern.take e.place).drop (e.excerptStart + 60) = [] := by
      rw [List.drop_eq_nil_iff, List.length_take]
      omega
    rw [hshort, List.all_nil]
    refine iff_of_true ?_ rfl
    omega
  · have hupto : min (e.excerptStart + 60) e.pattern.length = e.excerptStart + 60 := by omega
    rw [hupto, List.drop_take, List.all_eq_true, Nat.add_comm (e.excerptStart + 60),
      ← Nat.sub_le_iff_le_add, le_length_takeWhile_iff, List.length_drop]
    exact and_iff_right (Nat.sub_le_sub_right hlength _)

/-- Few continuation bytes stand together in a well-formed pattern, so its excerpt does not begin far in front of
the fault. -/
theorem place_le_excerptStart_add (h : IsText e.pattern) : e.place ≤ e.excerptStart + 40 := by
  rcases Nat.lt_or_ge e.place 40 with hnear | hfar
  · omega
  have hlength := e.place_le_length
  have hstart : e.excerptStart = backToLead e.pattern (e.place - 20) := by
    rw [excerptStart, if_neg (Nat.not_lt.mpr hfar)]
  have hback := backToLead_le e.pattern (e.place - 20)
  have hpassed : e.place - 20 - e.excerptStart ≤
      ((e.pattern.drop (e.excerptStart + 1)).takeWhile isContinuation).length := by
    rw [le_length_takeWhile_iff, List.length_drop]
    refine ⟨by omega, fun b hb => ?_⟩
    obtain ⟨k, hk, rfl⟩ := List.mem_iff_getElem.mp hb
    rw [List.length_take, List.length_drop] at hk
    have hbehind : backToLead e.pattern (e.place - 20) < e.excerptStart + 1 + k := by omega
    have hpass := isContinuation_of_backToLead_lt hbehind (by omega)
    rw [List.getElem_take, List.getElem_drop]
    rwa [List.getElem?_eq_getElem (by omega), Option.any_some] at hpass
  have hrun := length_takeWhile_isContinuation_le h (e.excerptStart + 1)
  omega

theorem place_le_excerptEnd (h : IsText e.pattern) : e.place ≤ e.excerptEnd := by
  have hlength := e.place_le_length
  have hnear := place_le_excerptStart_add h
  rw [excerptEnd]
  omega

/-- The excerpt of a message begins in front of the fault and stays within the pattern. It reaches to the fault
unless a byte that is no continuation byte stands in front of the fault and behind the first 60 bytes of the
excerpt. In a pattern without invalid bytes none does. -/
theorem excerpt_shows_place_iff (e : SyntaxError) :
    e.excerptStart ≤ e.place ∧ e.excerptEnd ≤ e.pattern.length ∧
    (e.place ≤ e.excerptEnd ↔
      ((e.pattern.take e.place).drop (e.excerptStart + 60)).all isContinuation = true) ∧
    (invalid ∉ codePoints e.pattern → e.place ≤ e.excerptEnd) :=
  ⟨e.excerptStart_le_place, e.excerptEnd_le_length, e.place_le_excerptEnd_iff,
    fun hvalid => place_le_excerptEnd (isText_iff.mpr hvalid)⟩

/-- A fault behind characters of two bytes, one of which stands 20 bytes in front of the fault. -/
theorem excerpt_shows_place_iff_accents :
    let e : SyntaxError :=
      ⟨.invertedRange, Bytes.ascii "twenty-four more letters" ++ encodeAll (List.replicate 10 0xE9) ++
        Bytes.ascii "x[z-a]", 45⟩
    invalid ∉ codePoints e.pattern ∧ e.place = 45 ∧ e.excerptStart = 24 ∧ 45 ≤ e.excerptEnd := by
  intro e
  have hvalid : invalid ∉ codePoints e.pattern := by decide +kernel
  have hshown := (excerpt_shows_place_iff e).2.2.2 hvalid
  exact ⟨hvalid, by decide +kernel, by decide +kernel, hshown⟩

/-- Behind a long run of continuation bytes a bracket that is not closed is not shown. -/
theorem excerpt_misses_place :
    let pattern := List.replicate 42 0x80 ++ List.replicate 19 0x62 ++ [0x5B]
    let e : SyntaxError := ⟨.unclosedList, pattern, 61⟩
    Pattern.parse pattern = .error e ∧ e.excerptStart = 0 ∧ e.excerptEnd = 60 ∧
      ¬ (e.excerptStart ≤ e.place ∧ e.place ≤ e.excerptEnd ∧ e.excerptEnd ≤ e.pattern.length) := by
  intro pattern e
  have hstart : e.excerptStart = 0 := by decide +kernel
  have hend : e.excerptEnd = 60 := by decide +kernel
  have hplace : e.place = 61 := by decide +kernel
  exact ⟨by decide +kernel, hstart, hend, by omega⟩

theorem isBoundary_place (h : IsText e.pattern)
    (hoffset : IsBoundary e.pattern e.offset ∨ e.pattern.length < e.offset) : IsBoundary e.pattern e.place := by
  rcases hoffset with hinside | hbeyond
  · have hle := ((isBoundary_iff h).mp hinside).1
    rwa [place, Nat.min_eq_left hle]
  · rw [place, Nat.min_eq_right (Nat.le_of_lt hbeyond), isBoundary_iff h]
    simp

theorem isBoundary_excerptStart (h : IsText e.pattern) : IsBoundary e.pattern e.excerptStart := by
  rw [excerptStart]
  split
  · exact isBoundary_zero _
  · have hback := backToLead_le e.pattern (e.place - 20)
    have hlength := Nat.le_trans hback (Nat.le_trans (Nat.sub_le _ _) e.place_le_length)
    rcases backToLead_stands e.pattern (e.place - 20) with hbegin | hstands
    · rw [hbegin]
      exact isBoundary_zero _
    · exact (isBoundary_iff h).mpr ⟨hlength, hstands⟩

theorem isBoundary_excerptEnd (h : IsText e.pattern) : IsBoundary e.pattern e.excerptEnd := by
  refine (isBoundary_iff h).mpr ⟨e.excerptEnd_le_length, ?_⟩
  have hstands := getElem?_length_takeWhile isContinuation
    (e.pattern.drop (min (e.excerptStart + 60) e.pattern.length))
  rwa [List.getElem?_drop] at hstands

theorem length_excerpt_le (h : IsText e.pattern) : e.excerpt.length ≤ 63 := by
  have hrun := length_takeWhile_isContinuation_le h (min (e.excerptStart + 60) e.pattern.length)
  rw [excerpt, Bytes.slice, List.length_take]
  have hend : e.excerptEnd ≤ e.excerptStart + 63 := by
    rw [excerptEnd]
    omega
  omega

/-- The part of the excerpt in front of the fault. -/
theorem take_excerpt (h : IsText e.pattern) :
    e.excerpt.take (e.place - e.excerptStart) = e.pattern.slice e.excerptStart e.place := by
  have hshown := Nat.sub_le_sub_right (place_le_excerptEnd h) e.excerptStart
  rw [excerpt, Bytes.slice, Bytes.slice, List.take_take, Nat.min_eq_left hshown]

theorem columns_eq {bytes : Bytes} (hnul : (0 : UInt8) ∉ bytes) (h : IsText bytes) :
    columns bytes = (codePoints bytes).length := by
  rw [columns, Bytes.untilNul_eq_self hnul, length_codePoints h]

/-- The column of a fault counts the characters of the excerpt in front of it. -/
theorem column_eq (hnul : (0 : UInt8) ∉ e.pattern) (h : IsText e.pattern)
    (hplace : IsBoundary e.pattern e.place) :
    e.column = (codePoints (e.excerpt.take (e.place - e.excerptStart))).length := by
  have hfront : IsText (e.pattern.take e.place) := (hplace.cut h).1
  have hstart : IsBoundary (e.pattern.take e.place) e.excerptStart := by
    have hboundary := (isBoundary_iff h).mp (isBoundary_excerptStart h)
    have hle := e.excerptStart_le_place
    rw [isBoundary_iff hfront, List.length_take, List.getElem?_take]
    refine ⟨Nat.le_min.mpr ⟨hle, hboundary.1⟩, ?_⟩
    split
    · exact hboundary.2
    · rfl
  have hslice : e.pattern.slice e.excerptStart e.place = (e.pattern.take e.place).drop e.excerptStart :=
    Bytes.slice_eq_take_drop _ _ _
  have htext : IsText (e.pattern.slice e.excerptStart e.place) := hslice ▸ (hstart.cut hfront).2
  have hnul' : (0 : UInt8) ∉ e.pattern.slice e.excerptStart e.place := by
    rw [hslice]
    exact fun hmem => hnul (List.mem_of_mem_take (List.mem_of_mem_drop hmem))
  rw [column, columns_eq hnul' htext, take_excerpt h]

/-- The line `marker` points at a column from the left, with the description in front, where there is room for that,
and otherwise from the right. -/
structure PointsAt (marker description : Bytes) (column : Nat) : Prop where
  one_line : (0x0A : UInt8) ∉ marker
  left_iff : Bytes.ascii "___/" <:+ marker ↔ description.length + 4 ≤ column
  left : description.length + 4 ≤ column →
    ∃ room, column = room + description.length + 4 ∧
      marker = Bytes.blanks room ++ description ++ Bytes.ascii "___/" ∧ marker[column - 1]? = some 0x2F
  right : column < description.length + 4 →
    marker = Bytes.blanks column ++ Bytes.ascii "\\___" ++ description ∧ marker[column]? = some 0x5C

theorem length_blanks (n : Nat) : (Bytes.blanks n).length = n :=
  List.length_replicate

theorem not_mem_blanks {b : UInt8} (h : b ≠ 0x20) (n : Nat) : b ∉ Bytes.blanks n :=
  fun hmem => h (List.eq_of_mem_replicate hmem)

/-- The marker points at its column, under the description of any cause. -/
theorem pointsAt_markerLine (column : Nat) (cause : Cause) :
    ∃ line, markerLine column cause.description = line ++ Bytes.ascii "\n" ∧
      PointsAt line cause.description column := by
  have hline : (0x0A : UInt8) ∉ cause.description := by
    cases cause <;> (rw [Cause.description]; decide)
  have hlast : ∃ b, cause.description.getLast? = some b ∧ b ≠ 0x2F := by
    cases cause <;> exact ⟨_, rfl, by decide⟩
  generalize cause.description = description at *
  rcases Nat.lt_or_ge column (description.length + 4) with hnarrow | hroom
  · refine ⟨Bytes.blanks column ++ Bytes.ascii "\\___" ++ description, ?_, ?_⟩
    · rw [markerLine, if_neg (Nat.not_le.mpr hnarrow)]
    constructor
    case one_line => simp [not_mem_blanks, hline, Bytes.ascii]
    case left_iff =>
      refine iff_of_false ?_ (Nat.not_le.mpr hnarrow)
      rintro ⟨front, hfront⟩
      obtain ⟨b, hb, hne⟩ := hlast
      have hmark := congrArg List.getLast? hfront
      rw [List.getLast?_append, List.getLast?_append, hb] at hmark
      exact hne (Option.some.inj hmark).symm
    case left => exact fun hroom => absurd hnarrow (Nat.not_lt.mpr hroom)
    case right =>
      refine fun _ => ⟨rfl, ?_⟩
      rw [List.append_assoc, List.getElem?_append_right (by rw [length_blanks]), length_blanks, Nat.sub_self]
      rfl
  · obtain ⟨room, rfl⟩ := Nat.exists_eq_add_of_le' hroom
    refine ⟨Bytes.blanks room ++ description ++ Bytes.ascii "___/", ?_, ?_⟩
    · have hblanks : room + (description.length + 4) - description.length - 4 = room := by omega
      rw [markerLine, if_pos hroom, hblanks, List.append_assoc _ (Bytes.ascii "___/")]
      rfl
    constructor
    case one_line => simp [not_mem_blanks, hline, Bytes.ascii]
    case left_iff => exact iff_of_true (List.suffix_append _ _) hroom
    case left =>
      refine fun _ => ⟨room, (Nat.add_assoc _ _ _).symm, rfl, ?_⟩
      have hplace : room + (description.length + 4) - 1 = (Bytes.blanks room ++ description).length + 3 := by
        rw [List.length_append, length_blanks]
        omega
      rw [hplace, List.getElem?_append_right (Nat.le_add_right _ _), Nat.add_sub_cancel_left]
      rfl
    case right => exact fun hnarrow => absurd hnarrow (Nat.not_lt.mpr hroom)

theorem message_eq (hnul : (0 : UInt8) ∉ e.pattern) : e.message = e.text := by
  refine Bytes.untilNul_eq_self ?_
  have hexcerpt : (0 : UInt8) ∉ e.excerpt :=
    fun hmem => hnul (List.mem_of_mem_drop (List.mem_of_mem_take hmem))
  have hdescription : (0 : UInt8) ∉ e.cause.description := by
    cases e.cause <;> (rw [Cause.description]; decide)
  have hmarker : (0 : UInt8) ∉ markerLine e.column e.cause.description := by
    rw [markerLine]
    split <;> simp [not_mem_blanks, hdescription, Bytes.ascii]
  simp only [text, List.mem_append, not_or]
  exact ⟨⟨⟨⟨⟨by decide, Bytes.zero_not_mem_decimal _⟩, by decide⟩, hexcerpt⟩, by decide⟩, hmarker⟩

/-- The message of a fault in a pattern without NUL and without invalid bytes, whose place is no offset within a
character. The excerpt is cut between characters and has at most 63 bytes. The last line of the message points
at the column that counts the characters of the excerpt in front of the fault. -/
theorem message_points_at_place (hnul : (0 : UInt8) ∉ e.pattern) (hvalid : invalid ∉ codePoints e.pattern)
    (hoffset : IsBoundary e.pattern e.offset ∨ e.pattern.length < e.offset) :
    IsBoundary e.pattern e.excerptStart ∧ IsBoundary e.pattern e.excerptEnd ∧ e.excerpt.length ≤ 63 ∧
    e.excerptStart ≤ e.place ∧ e.place ≤ e.excerptEnd ∧
    ∃ line, e.message = Bytes.ascii "invalid wildcard pattern at position " ++ Bytes.decimal e.place ++
        Bytes.ascii "\n" ++ e.excerpt ++ Bytes.ascii "\n" ++ line ++ Bytes.ascii "\n" ∧
      PointsAt line e.cause.description
        (codePoints (e.excerpt.take (e.place - e.excerptStart))).length := by
  have h := isText_iff.mpr hvalid
  have hcolumn := column_eq hnul h (isBoundary_place h hoffset)
  obtain ⟨line, hline, hpoints⟩ := pointsAt_markerLine e.column e.cause
  rw [hcolumn] at hpoints
  refine ⟨isBoundary_excerptStart h, isBoundary_excerptEnd h, length_excerpt_le h, e.excerptStart_le_place,
    place_le_excerptEnd h, line, ?_, hpoints⟩
  rw [message_eq hnul, text, hline, List.append_assoc _ line]

/-- The excerpt begins with the letter that is written in two bytes, which makes 20 columns of 21 bytes. -/
theorem message_points_at_place_accent :
    let e : SyntaxError :=
      ⟨.unclosedList, Bytes.ascii "names-with-an-accented-letter" ++ encode 0xE9 ++
        Bytes.ascii "before-an-open-list[ab", 50⟩
    (0 : UInt8) ∉ e.pattern ∧ invalid ∉ codePoints e.pattern ∧ IsBoundary e.pattern e.offset ∧
      ∃ line, e.message = Bytes.ascii "invalid wildcard pattern at position 50\n" ++ encode 0xE9 ++
          Bytes.ascii "before-an-open-list[ab\n" ++ line ++ Bytes.ascii "\n" ∧
        PointsAt line (Bytes.ascii "mismatched [ ]") 20 := by
  intro e
  have hnul : (0 : UInt8) ∉ e.pattern := by decide +kernel
  have hvalid : invalid ∉ codePoints e.pattern := by decide +kernel
  have hoffset : IsBoundary e.pattern e.offset := ⟨49, by decide +kernel⟩
  obtain ⟨-, -, -, -, -, line, hmessage, hpoints⟩ := message_points_at_place hnul hvalid (.inl hoffset)
  have hcolumn : (codePoints (e.excerpt.take (e.place - e.excerptStart))).length = 20 := by decide +kernel
  have hfront : Bytes.ascii "invalid wildcard pattern at position " ++ Bytes.decimal e.place ++
      Bytes.ascii "\n" ++ e.excerpt ++ Bytes.ascii "\n" =
        Bytes.ascii "invalid wildcard pattern at position 50\n" ++ encode 0xE9 ++
          Bytes.ascii "before-an-open-list[ab\n" := by decide +kernel
  rw [hcolumn] at hpoints
  exact ⟨hnul, hvalid, hoffset, line, hfront ▸ hmessage, hpoints⟩

end SyntaxError

end NameGlob
