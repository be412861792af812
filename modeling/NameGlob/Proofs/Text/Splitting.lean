import NameGlob.Proofs.Text.RoundTrip

/-!
# Parts of byte strings

Behind code points a byte string is read anew. Behind a byte that is read as no code point this need not be so,
as further bytes may complete it. To cut between two characters is always safe: each part is read as its share
of the characters.
-/

namespace NameGlob.Utf8

variable {b : UInt8} {s t front back : Bytes} {cs ds : List CodePoint}

/-- Code points and what follows them are read apart. -/
theorem chars_append (h : invalid ∉ codePoints s) (t : Bytes) : chars (s ++ t) = chars s ++ chars t := by
  induction s using reading_induction with
  | nil => simp [chars]
  | invalid b rest hdecode ih =>
    rw [codePoints_cons_of_invalid hdecode] at h
    exact absurd List.mem_cons_self h
  | codePoint c rest hc ih =>
    rw [codePoints_encode_append hc, List.mem_cons, not_or] at h
    rw [List.append_assoc, chars_encode_append hc, chars_encode_append hc, ih h.2, List.cons_append]

theorem chars_cons_of_invalid {rest : Bytes} (h : decode b rest = (invalid, 0)) :
    chars (b :: rest) = (invalid, 1) :: chars rest := by
  simp [chars, h]

/-- The characters of a byte string take all its bytes. -/
theorem sum_chars (s : Bytes) : ((chars s).map Prod.snd).sum = s.length := by
  induction s using reading_induction with
  | nil => simp [chars]
  | invalid b rest hdecode ih =>
    rw [chars_cons_of_invalid hdecode, List.map_cons, List.sum_cons, ih, List.length_cons, Nat.add_comm]
  | codePoint c rest hc ih =>
    rw [chars_encode_append hc, List.map_cons, List.sum_cons, ih, List.length_append]

/-- A byte that is read as no code point is so however much of what follows it is taken away. -/
theorem decode_of_append (h : decode b (front ++ back) = (invalid, 0)) :
    decode b front = (invalid, 0) := by
  rcases decode_cases b front with hinvalid | ⟨c, more, -, hc, -, hencode⟩
  · exact hinvalid
  · have hprefix : encode c <+: b :: (front ++ back) := by
      rw [hencode, List.cons_prefix_cons]
      exact ⟨rfl, (List.take_prefix more front).trans (List.prefix_append front back)⟩
    exact absurd hprefix (not_encode_prefix_of_invalid (by rw [h]) hc)

/-- Where the characters of a text are cut, the text can be cut. -/
theorem exists_append_of_codePoints_eq (h : codePoints t = cs ++ ds) :
    ∃ front back, t = front ++ back ∧ codePoints front = cs ∧ codePoints back = ds := by
  induction t using reading_induction generalizing cs with
  | nil =>
    rw [codePoints_nil] at h
    obtain ⟨rfl, rfl⟩ := List.append_eq_nil_iff.mp h.symm
    exact ⟨[], [], rfl, codePoints_nil, codePoints_nil⟩
  | invalid b rest hdecode ih =>
    cases cs with
    | nil => exact ⟨[], b :: rest, rfl, codePoints_nil, h⟩
    | cons c cs =>
      rw [codePoints_cons_of_invalid hdecode, List.cons_append] at h
      obtain ⟨rfl, hrest⟩ := List.cons.inj h
      obtain ⟨front, back, rfl, rfl, hback⟩ := ih hrest
      exact ⟨b :: front, back, rfl, codePoints_cons_of_invalid (decode_of_append hdecode), hback⟩
  | codePoint d rest hd ih =>
    cases cs with
    | nil => exact ⟨[], encode d ++ rest, rfl, codePoints_nil, h⟩
    | cons c cs =>
      rw [codePoints_encode_append hd, List.cons_append] at h
      obtain ⟨rfl, hrest⟩ := List.cons.inj h
      obtain ⟨front, back, rfl, rfl, hback⟩ := ih hrest
      exact ⟨encode d ++ front, back, by simp, codePoints_encode_append hd front, hback⟩

end NameGlob.Utf8
