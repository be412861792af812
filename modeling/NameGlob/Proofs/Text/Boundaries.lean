import NameGlob.Proofs.Text.RoundTrip

/-!
# Boundaries between characters

In a text of code points each character is a byte that continues nothing with up to three continuation bytes
behind it. So a character begins wherever no continuation byte stands, characters are counted by such bytes,
and a text can be cut there.
-/

namespace NameGlob.Utf8

/-- The offset stands between two characters of the byte string, or at one of its ends. -/
def IsBoundary (s : Bytes) (offset : Nat) : Prop :=
  ∃ count, offset = (((chars s).take count).map Prod.snd).sum

/-- The bytes of the character `c`, whatever follows them. -/
structure IsBlock (lead : UInt8) (tail : Bytes) (c : CodePoint) : Prop where
  lead_stands : isContinuation lead = false
  tail_continues : ∀ b ∈ tail, isContinuation b = true
  length_le : tail.length ≤ 3
  chars_append : ∀ rest, chars (lead :: (tail ++ rest)) = (c, tail.length + 1) :: chars rest

/-- A text in which every byte belongs to a code point, as the bytes of its characters one behind the other. -/
inductive IsText : Bytes → Prop
  | nil : IsText []
  | block {lead : UInt8} {tail rest : Bytes} {c : CodePoint} (hblock : IsBlock lead tail c) (hc : c ≠ invalid)
      (hrest : IsText rest) : IsText (lead :: (tail ++ rest))

variable {s rest tail : Bytes} {b lead : UInt8} {c : CodePoint} {i j : Nat}

theorem isContinuation_of_mem_continuations {count n : Nat} (h : b ∈ continuations count n) :
    isContinuation b = true := by
  induction count with
  | zero => cases h
  | succ count ih =>
    rcases List.mem_cons.mp h with rfl | hrest
    · rw [isContinuation_iff, toNat_toUInt8 (by omega)]
      omega
    · exact ih hrest

theorem isContinuation_of_lead? {l : Lead} (h : lead? b = some l) :
    isContinuation b = false ∧ l.tail ≤ 3 := by
  refine ⟨?_, tail_le_of_lead? h⟩
  rw [← Bool.not_eq_true, isContinuation_iff]
  rw [lead?_eq_some_iff] at h
  omega

theorem exists_isBlock (h : IsCodePoint c) : ∃ lead tail, encode c = lead :: tail ∧ IsBlock lead tail c := by
  have hchars : ∀ lead tail, encode c = lead :: tail → ∀ rest,
      chars (lead :: (tail ++ rest)) = (c, tail.length + 1) :: chars rest := by
    intro lead tail hencode rest
    have hread := chars_encode_append h rest
    rwa [hencode, List.cons_append, List.length_cons] at hread
  lift c to Nat using h.1
  have hmax := isCodePoint_natCast_iff.mp h
  by_cases hascii : c < 0x80
  · have hencode : encode c = [c.toUInt8] := by rw [encode_natCast hmax, if_pos hascii]
    have hstands : isContinuation c.toUInt8 = false := by
      rw [← Bool.not_eq_true, isContinuation_iff, toNat_toUInt8 (by omega)]
      omega
    exact ⟨_, [], hencode, hstands, fun _ hb => absurd hb List.not_mem_nil, Nat.zero_le 3, hchars _ _ hencode⟩
  · obtain ⟨b, l, hlead, hbits, hleast⟩ := exists_lead? (Nat.le_of_not_lt hascii) hmax
    have hencode := encode_of_lead? hlead hbits hleast hmax
    obtain ⟨hstands, htail⟩ := isContinuation_of_lead? hlead
    rw [← length_continuations l.tail c] at htail
    exact ⟨b, _, hencode, hstands, fun _ => isContinuation_of_mem_continuations, htail, hchars _ _ hencode⟩

theorem IsBlock.codePoints_append (h : IsBlock lead tail c) (rest : Bytes) :
    codePoints (lead :: (tail ++ rest)) = c :: codePoints rest := by
  rw [codePoints, h.chars_append, List.map_cons, codePoints]

theorem isText_iff : IsText s ↔ invalid ∉ codePoints s := by
  constructor
  · intro h
    induction h with
    | nil => simp
    | block hblock hc _ ih =>
      rw [hblock.codePoints_append, List.mem_cons, not_or]
      exact ⟨Ne.symm hc, ih⟩
  · intro h
    induction s using reading_induction with
    | nil => exact .nil
    | invalid b rest hdecode ih =>
      rw [codePoints_cons_of_invalid hdecode] at h
      exact absurd List.mem_cons_self h
    | codePoint c rest hc ih =>
      rw [codePoints_encode_append hc, List.mem_cons, not_or] at h
      obtain ⟨lead, tail, hencode, hblock⟩ := exists_isBlock hc
      rw [hencode, List.cons_append]
      exact .block hblock (Ne.symm h.1) (ih h.2)

theorem isBoundary_zero (s : Bytes) : IsBoundary s 0 :=
  ⟨0, rfl⟩

theorem isBoundary_nil_iff : IsBoundary [] i ↔ i = 0 := by
  simp [IsBoundary, chars]

theorem IsBlock.isBoundary_iff (h : IsBlock lead tail c) :
    IsBoundary (lead :: (tail ++ rest)) i ↔ i = 0 ∨ ∃ j, IsBoundary rest j ∧ i = tail.length + 1 + j := by
  rw [IsBoundary, h.chars_append]
  constructor
  · rintro ⟨_ | count, hi⟩
    · exact .inl hi
    · exact .inr ⟨_, ⟨count, rfl⟩, by simpa using hi⟩
  · rintro (rfl | ⟨j, ⟨count, rfl⟩, rfl⟩)
    · exact ⟨0, rfl⟩
    · exact ⟨count + 1, by simp⟩

theorem IsBlock.getElem?_tail (h : IsBlock lead tail c) (hi : i < tail.length) (rest : Bytes) :
    ((lead :: (tail ++ rest))[i + 1]?).any isContinuation = true := by
  rw [List.getElem?_cons_succ, List.getElem?_append_left hi, List.getElem?_eq_getElem hi, Option.any_some]
  exact h.tail_continues _ (List.getElem_mem hi)

theorem getElem?_block_add (lead : UInt8) (tail rest : Bytes) (j : Nat) :
    (lead :: (tail ++ rest))[tail.length + 1 + j]? = rest[j]? := by
  rw [Nat.add_right_comm, List.getElem?_cons_succ, List.getElem?_append_right (Nat.le_add_right _ _),
    Nat.add_sub_cancel_left]

/-- In a text of code points a boundary is an offset at which no continuation byte stands. -/
theorem isBoundary_iff (h : IsText s) :
    IsBoundary s i ↔ i ≤ s.length ∧ (s[i]?).any isContinuation = false := by
  induction h generalizing i with
  | nil => simp [isBoundary_nil_iff]
  | @block lead tail rest c hblock _ _ ih =>
    rw [hblock.isBoundary_iff]
    -- the offset stands before the character, within it, or behind it
    rcases Nat.lt_or_ge i (tail.length + 1) with hwithin | hbehind
    · cases i with
      | zero => simp [hblock.lead_stands]
      | succ i =>
        have htail := hblock.getElem?_tail (Nat.lt_of_succ_lt_succ hwithin) rest
        simp only [htail, Bool.true_eq_false, and_false, iff_false]
        rintro (hzero | ⟨j, -, hj⟩)
        · cases hzero
        · omega
    · obtain ⟨j, rfl⟩ := Nat.exists_eq_add_of_le hbehind
      have hlength : (lead :: (tail ++ rest)).length = tail.length + 1 + rest.length := by
        rw [List.length_cons, List.length_append, Nat.add_right_comm]
      rw [getElem?_block_add, hlength, Nat.add_le_add_iff_left, ← ih]
      constructor
      · rintro (hzero | ⟨k, hk, hjk⟩)
        · omega
        · rwa [Nat.add_left_cancel hjk]
      · exact fun hj => .inr ⟨j, hj, rfl⟩

theorem takeWhile_isContinuation_eq_nil (h : IsText s) : s.takeWhile isContinuation = [] := by
  induction h with
  | nil => rfl
  | block hblock => simp [hblock.lead_stands]

/-- No more than three continuation bytes of a text of code points stand together. -/
theorem length_takeWhile_isContinuation_le (h : IsText s) (i : Nat) :
    ((s.drop i).takeWhile isContinuation).length ≤ 3 := by
  induction h generalizing i with
  | nil => simp
  | @block lead tail rest c hblock _ hrest ih =>
    cases i with
    | zero => simp [hblock.lead_stands]
    | succ i =>
      rw [List.drop_succ_cons]
      rcases Nat.le_total i tail.length with hwithin | hbehind
      · -- what is left of the character, and nothing behind it
        have htail : ∀ b ∈ tail.drop i, isContinuation b = true :=
          fun b hb => hblock.tail_continues b (List.mem_of_mem_drop hb)
        rw [List.drop_append_of_le_length hwithin, List.takeWhile_append_of_pos htail,
          takeWhile_isContinuation_eq_nil hrest, List.append_nil, List.length_drop]
        exact Nat.le_trans (Nat.sub_le _ _) hblock.length_le
      · obtain ⟨j, rfl⟩ := Nat.exists_eq_add_of_le hbehind
        rw [List.drop_length_add_append]
        exact ih j

/-- The characters of a text of code points are counted by the bytes that continue nothing. -/
theorem length_codePoints (h : IsText s) :
    (codePoints s).length = (s.filter (! isContinuation ·)).length := by
  induction h with
  | nil => simp
  | @block lead tail rest c hblock _ _ ih =>
    have htail : tail.filter (! isContinuation ·) = [] :=
      List.filter_eq_nil_iff.mpr fun b hb => by simp [hblock.tail_continues b hb]
    have hlead : (! isContinuation lead) = true := by rw [hblock.lead_stands, Bool.not_false]
    have hfilter : (lead :: (tail ++ rest)).filter (! isContinuation ·) =
        lead :: rest.filter (! isContinuation ·) := by
      rw [List.filter_cons, if_pos hlead, List.filter_append, htail, List.nil_append]
    rw [hblock.codePoints_append, hfilter, List.length_cons, List.length_cons, ih]

/-- A text of code points can be cut at a boundary. -/
theorem IsBoundary.cut (hi : IsBoundary s i) (h : IsText s) : IsText (s.take i) ∧ IsText (s.drop i) := by
  induction h generalizing i with
  | nil => simpa using IsText.nil
  | @block lead tail rest c hblock hc hrest ih =>
    rcases hblock.isBoundary_iff.mp hi with rfl | ⟨j, hj, rfl⟩
    · exact ⟨.nil, .block hblock hc hrest⟩
    · have hsplit : tail.length + 1 + j = tail.length + j + 1 := Nat.add_right_comm _ _ _
      obtain ⟨htake, hdrop⟩ := ih hj
      rw [hsplit, List.take_succ_cons, List.drop_succ_cons, List.take_length_add_append,
        List.drop_length_add_append]
      exact ⟨.block hblock hc htake, hdrop⟩

end NameGlob.Utf8
