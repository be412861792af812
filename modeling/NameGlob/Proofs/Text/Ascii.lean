import NameGlob.Proofs.Text.RoundTrip

/-!
# ASCII in UTF-8

A byte below `80` is a character by itself wherever it stands, and no such byte belongs to any other
character. So a text can be worked on byte by byte where only ASCII matters. How a byte is read depends on the
continuation bytes behind it only.
-/

namespace NameGlob.Utf8

/-- The character that an ASCII byte stands for. -/
def charOf (b : UInt8) : CodePoint :=
  b.toNat

variable {b d : UInt8} {rest other : Bytes} {c : CodePoint}

theorem charOf_inj : charOf b = charOf d ↔ b = d := by
  show (b.toNat : Int) = d.toNat ↔ b = d
  rw [Int.natCast_inj, UInt8.toNat_inj]

theorem gather_takeWhile (count bits : Nat) (rest : Bytes) :
    gather count bits (rest.takeWhile isContinuation) = gather count bits rest := by
  induction count generalizing bits rest with
  | zero => rfl
  | succ count ih =>
    cases rest with
    | nil => rfl
    | cons x rest =>
      by_cases hx : isContinuation x = true
      · rw [List.takeWhile_cons_of_pos hx, gather, gather, if_pos hx, if_pos hx, ih]
      · rw [List.takeWhile_cons_of_neg hx, gather, gather, if_neg hx]

/-- A byte is read by the continuation bytes behind it. -/
theorem decode_congr (h : rest.takeWhile isContinuation = other.takeWhile isContinuation) :
    decode b rest = decode b other := by
  have hgather : ∀ count bits, gather count bits rest = gather count bits other := by
    intro count bits
    rw [← gather_takeWhile, h, gather_takeWhile]
  rw [decode, decode]
  simp only [hgather]

/-- An ASCII byte ends the run of continuation bytes before it. -/
theorem takeWhile_ascii_cons (h : b.toNat < 0x80) (rest : Bytes) :
    (b :: rest).takeWhile isContinuation = [] := by
  refine List.takeWhile_cons_of_neg fun hb => ?_
  exact Nat.not_lt.mpr (isContinuation_iff.mp hb).1 h

theorem codePoints_ascii_cons (h : b.toNat < 0x80) (rest : Bytes) :
    codePoints (b :: rest) = charOf b :: codePoints rest := by
  have hdecode : decode b rest = (charOf b, 0) := by
    rw [decode, if_pos h]
    rfl
  rw [codePoints_cons, hdecode, List.drop_zero]

/-- A byte that is read as no code point is not ASCII. -/
theorem le_of_invalid (h : decode b rest = (invalid, 0)) : 0x80 ≤ b.toNat := by
  by_contra hlt
  rw [decode, if_pos (Nat.lt_of_not_le hlt)] at h
  have hvalue : (b.toNat : Int) = 0x200000 := congrArg Prod.fst h
  omega

theorem le_of_mem_continuations {count n : Nat} (h : b ∈ continuations count n) : 0x80 ≤ b.toNat := by
  induction count with
  | zero => cases h
  | succ count ih =>
    rcases List.mem_cons.mp h with rfl | hrest
    · rw [toNat_toUInt8 (by omega)]
      exact Nat.le_add_right _ _
    · exact ih hrest

/-- A code point is written as one ASCII byte, or without any. -/
theorem encode_ascii_or (h : IsCodePoint c) :
    (∃ b : UInt8, b.toNat < 0x80 ∧ c = charOf b ∧ encode c = [b]) ∨
      (0x80 ≤ c ∧ ∀ b ∈ encode c, 0x80 ≤ b.toNat) := by
  lift c to Nat using h.1
  have hmax := isCodePoint_natCast_iff.mp h
  by_cases hascii : c < 0x80
  · have hbyte : c.toUInt8.toNat = c := toNat_toUInt8 (by omega)
    refine .inl ⟨c.toUInt8, by rwa [hbyte], by rw [charOf, hbyte], ?_⟩
    rw [encode_natCast hmax, if_pos hascii]
  · obtain ⟨b, lead, hlead, hbits, hleast⟩ := exists_lead? (Nat.le_of_not_lt hascii) hmax
    refine .inr ⟨by unfold CodePoint; omega, fun d hd => ?_⟩
    rw [encode_of_lead? hlead hbits hleast hmax] at hd
    rcases List.mem_cons.mp hd with rfl | htail
    · exact le_toNat_of_lead? hlead
    · exact le_of_mem_continuations htail

/-- The bytes of `block` in front of `rest` are not ASCII, and are read as the one character `c`, which is not
ASCII either. What stands behind them may be changed, as long as it begins with the same continuation bytes. -/
structure ReadsAs (block : Bytes) (c : CodePoint) (rest : Bytes) : Prop where
  ne_nil : block ≠ []
  le_char : 0x80 ≤ c
  le_byte : ∀ b ∈ block, 0x80 ≤ b.toNat
  codePoints_append : ∀ other : Bytes, other.takeWhile isContinuation = rest.takeWhile isContinuation →
    codePoints (block ++ other) = c :: codePoints other

theorem ReadsAs.of_invalid (h : decode b rest = (invalid, 0)) : ReadsAs [b] invalid rest where
  ne_nil := List.cons_ne_nil b []
  le_char := by decide
  le_byte := List.forall_mem_singleton.mpr (le_of_invalid h)
  codePoints_append := fun _ hother => codePoints_cons_of_invalid ((decode_congr hother).trans h)

theorem ReadsAs.of_encode (h : IsCodePoint c) (hc : 0x80 ≤ c) (hbytes : ∀ b ∈ encode c, 0x80 ≤ b.toNat)
    (rest : Bytes) : ReadsAs (encode c) c rest where
  ne_nil := by
    obtain ⟨b, tail, hencode, -⟩ := decode_encode h rest
    rw [hencode]
    exact List.cons_ne_nil b tail
  le_char := hc
  le_byte := hbytes
  codePoints_append := fun other _ => codePoints_encode_append h other

theorem ReadsAs.ne_of_lt {block : Bytes} {x : CodePoint} (h : ReadsAs block c rest) (hx : x < 0x80) :
    c ≠ x := by
  rintro rfl
  exact Int.not_lt.mpr h.le_char hx

/-- Induction along a byte string by what its bytes are to a reader of ASCII: a character, or part of another
one. -/
@[elab_as_elim]
theorem ascii_induction {motive : Bytes → Prop} (nil : motive [])
    (ascii : ∀ (b : UInt8) rest, b.toNat < 0x80 → motive rest → motive (b :: rest))
    (wide : ∀ block c rest, ReadsAs block c rest → motive rest → motive (block ++ rest))
    (s : Bytes) : motive s := by
  induction s using reading_induction with
  | nil => exact nil
  | invalid b rest h ih => exact wide [b] invalid rest (.of_invalid h) ih
  | codePoint c rest h ih =>
    rcases encode_ascii_or h with ⟨b, hb, -, hencode⟩ | ⟨hc, hbytes⟩
    · rw [hencode]
      exact ascii b rest hb ih
    · exact wide (encode c) c rest (.of_encode h hc hbytes rest) ih

theorem charOf_lt (h : b.toNat < 0x80) : charOf b < 0x80 :=
  Int.ofNat_lt.mpr h

/-- An ASCII character occurs in a text when its byte does. -/
theorem charOf_mem_codePoints_iff (h : b.toNat < 0x80) (s : Bytes) : charOf b ∈ codePoints s ↔ b ∈ s := by
  induction s using ascii_induction with
  | nil => rw [codePoints_nil, List.mem_nil_iff, List.mem_nil_iff]
  | ascii d rest hd ih =>
    rw [codePoints_ascii_cons hd, List.mem_cons, List.mem_cons, charOf_inj]
    exact or_congr_right ih
  | wide block c rest hblock ih =>
    have hchar : charOf b ≠ c := (hblock.ne_of_lt (charOf_lt h)).symm
    have hbyte : b ∉ block := fun hmem => Nat.not_lt.mpr (hblock.le_byte b hmem) h
    rw [hblock.codePoints_append rest rfl, List.mem_cons, List.mem_append, or_iff_right hchar,
      or_iff_right hbyte]
    exact ih

end NameGlob.Utf8
