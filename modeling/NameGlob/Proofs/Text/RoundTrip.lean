import Mathlib.Tactic.Ring
import NameGlob.Text.Utf8

/-!
# Reading and writing UTF-8

Writing a code point and reading it back are inverse. A sequence of several bytes is a lead byte, which
fixes its class, and the low bits of the code point in continuation bytes; both directions go through
the continuation bytes of a number. A byte that is read alone as no code point begins the bytes of none.
-/

namespace NameGlob.Utf8

/-- The code points of Unicode, surrogates among them. -/
def IsCodePoint (c : CodePoint) : Prop :=
  0 ≤ c ∧ c ≤ maxCodePoint

instance (c : CodePoint) : Decidable (IsCodePoint c) :=
  inferInstanceAs (Decidable (_ ∧ _))

/-- The low bits of a code point in `count` continuation bytes, the highest bits first. -/
def continuations : Nat → Nat → Bytes
  | 0, _ => []
  | count + 1, n => (0x80 + n / 64 ^ count % 64).toUInt8 :: continuations count n

variable {b : UInt8} {rest : Bytes} {lead : Lead} {count bits n : Nat} {c : CodePoint}

theorem isCodePoint_natCast_iff : IsCodePoint n ↔ n ≤ 0x10FFFF := by
  unfold IsCodePoint maxCodePoint CodePoint
  omega

theorem not_isCodePoint_invalid : ¬ IsCodePoint invalid := by
  decide

theorem toNat_toUInt8 (h : n < 256) : n.toUInt8.toNat = n := by
  simp only [UInt8.toNat_ofNat', Nat.toUInt8]
  omega

theorem isContinuation_iff : isContinuation b = true ↔ 0x80 ≤ b.toNat ∧ b.toNat < 0xC0 := by
  simp [isContinuation]

theorem length_continuations (count n : Nat) : (continuations count n).length = count := by
  induction count with
  | zero => rfl
  | succ count ih => simp [continuations, ih]

/-- The continuation bytes of a code point give back its low bits. -/
theorem gather_continuations (count bits n : Nat) (rest : Bytes) :
    gather count bits (continuations count n ++ rest) =
      some (bits * 64 ^ count + n % 64 ^ count) := by
  induction count generalizing bits with
  | zero => simp [gather, Nat.mod_one]
  | succ count ih =>
    have hbyte : (0x80 + n / 64 ^ count % 64).toUInt8.toNat = 0x80 + n / 64 ^ count % 64 :=
      toNat_toUInt8 (by omega)
    have hcontinues : isContinuation (0x80 + n / 64 ^ count % 64).toUInt8 = true := by
      rw [isContinuation_iff, hbyte]
      omega
    rw [continuations, List.cons_append, gather, if_pos hcontinues, hbyte, ih,
      Nat.add_sub_cancel_left, Nat.mod_pow_succ, Nat.pow_succ]
    congr 1
    ring

/-- The bytes that are gathered are the continuation bytes of the value that they give. -/
theorem take_of_gather (h : gather count bits rest = some n) :
    count ≤ rest.length ∧ rest.take count = continuations count n ∧ n / 64 ^ count = bits := by
  induction count generalizing bits rest with
  | zero =>
    obtain rfl := Option.some.inj h
    simp [continuations]
  | succ count ih =>
    cases rest with
    | nil => simp [gather] at h
    | cons x rest =>
      rw [gather] at h
      split at h
      · rename_i hx
        rw [isContinuation_iff] at hx
        obtain ⟨hlength, htake, hbits⟩ := ih h
        have hlow : 0x80 + n / 64 ^ count % 64 = x.toNat := by omega
        have hhigh : n / 64 ^ (count + 1) = bits := by
          rw [Nat.pow_succ, ← Nat.div_div_eq_div_mul]
          omega
        refine ⟨Nat.succ_le_succ hlength, ?_, hhigh⟩
        rw [List.take_succ_cons, htake, continuations, hlow, Nat.toUInt8, UInt8.ofNat_toNat]
      · simp at h

theorem lead?_eq_some_iff :
    lead? b = some lead ↔
      (0xC2 ≤ b.toNat ∧ b.toNat < 0xE0 ∧ lead = ⟨1, 0x80, b.toNat - 0xC0⟩) ∨
      (0xE0 ≤ b.toNat ∧ b.toNat < 0xF0 ∧ lead = ⟨2, 0x800, b.toNat - 0xE0⟩) ∨
      (0xF0 ≤ b.toNat ∧ b.toNat < 0xF5 ∧ lead = ⟨3, 0x10000, b.toNat - 0xF0⟩) := by
  unfold lead?
  grind

theorem le_toNat_of_lead? (h : lead? b = some lead) : 0x80 ≤ b.toNat := by
  rw [lead?_eq_some_iff] at h
  omega

theorem encode_natCast (h : n ≤ 0x10FFFF) :
    encode n =
      if n < 0x80 then [n.toUInt8]
      else if n < 0x800 then (0xC0 + n / 64).toUInt8 :: continuations 1 n
      else if n < 0x10000 then (0xE0 + n / 4096).toUInt8 :: continuations 2 n
      else (0xF0 + n / 262144).toUInt8 :: continuations 3 n := by
  have hrange : (0 : Int) ≤ n ∧ (n : Int) ≤ maxCodePoint := isCodePoint_natCast_iff.mpr h
  simp only [encode, if_pos hrange, Int.toNat_natCast, continuations, Nat.pow_zero, Nat.div_one,
    Nat.reducePow]

/-- A code point of several bytes is written as the lead byte of its class, followed by its low bits. -/
theorem encode_of_lead? (h : lead? b = some lead) (hbits : n / 64 ^ lead.tail = lead.bits)
    (hleast : lead.least ≤ n) (hmax : n ≤ 0x10FFFF) : encode n = b :: continuations lead.tail n := by
  have hlead : ∀ m, m = b.toNat → m.toUInt8 = b := by
    rintro m rfl
    rw [Nat.toUInt8, UInt8.ofNat_toNat]
  rw [encode_natCast hmax]
  rcases lead?_eq_some_iff.mp h with ⟨hlow, hhigh, rfl⟩ | ⟨hlow, hhigh, rfl⟩ | ⟨hlow, hhigh, rfl⟩
  · dsimp only at *
    rw [if_neg (by omega), if_pos (by omega), hlead _ (by omega)]
  · dsimp only at *
    rw [if_neg (by omega), if_neg (by omega), if_pos (by omega), hlead _ (by omega)]
  · dsimp only at *
    rw [if_neg (by omega), if_neg (by omega), if_neg (by omega), hlead _ (by omega)]

/-- Each code point outside ASCII has a lead byte. -/
theorem exists_lead? (hmin : 0x80 ≤ n) (hmax : n ≤ 0x10FFFF) :
    ∃ b lead, lead? b = some lead ∧ n / 64 ^ lead.tail = lead.bits ∧ lead.least ≤ n := by
  by_cases htwo : n < 0x800
  · have hbyte : (0xC0 + n / 64).toUInt8.toNat = 0xC0 + n / 64 := toNat_toUInt8 (by omega)
    refine ⟨(0xC0 + n / 64).toUInt8, ⟨1, 0x80, n / 64⟩, lead?_eq_some_iff.mpr (.inl ?_), ?_, hmin⟩
    · rw [hbyte, Nat.add_sub_cancel_left]
      exact ⟨by omega, by omega, rfl⟩
    · rw [Nat.pow_one]
  by_cases hthree : n < 0x10000
  · have hbyte : (0xE0 + n / 4096).toUInt8.toNat = 0xE0 + n / 4096 := toNat_toUInt8 (by omega)
    refine ⟨(0xE0 + n / 4096).toUInt8, ⟨2, 0x800, n / 4096⟩,
      lead?_eq_some_iff.mpr (.inr (.inl ?_)), rfl, Nat.le_of_not_lt htwo⟩
    rw [hbyte, Nat.add_sub_cancel_left]
    exact ⟨by omega, by omega, rfl⟩
  · have hbyte : (0xF0 + n / 262144).toUInt8.toNat = 0xF0 + n / 262144 := toNat_toUInt8 (by omega)
    refine ⟨(0xF0 + n / 262144).toUInt8, ⟨3, 0x10000, n / 262144⟩,
      lead?_eq_some_iff.mpr (.inr (.inr ?_)), rfl, Nat.le_of_not_lt hthree⟩
    rw [hbyte, Nat.add_sub_cancel_left]
    exact ⟨by omega, by omega, rfl⟩

/-- A code point is read back from its bytes, whatever follows them. -/
theorem decode_encode (h : IsCodePoint c) (rest : Bytes) :
    ∃ b tail, encode c = b :: tail ∧ decode b (tail ++ rest) = (c, tail.length) := by
  lift c to Nat using h.1
  have hmax := isCodePoint_natCast_iff.mp h
  by_cases hascii : c < 0x80
  · have hbyte : c.toUInt8.toNat = c := toNat_toUInt8 (by omega)
    refine ⟨c.toUInt8, [], ?_, ?_⟩
    · rw [encode_natCast hmax, if_pos hascii]
    · rw [decode, hbyte, if_pos hascii]
      rfl
  · obtain ⟨b, lead, hlead, hbits, hleast⟩ := exists_lead? (Nat.le_of_not_lt hascii) hmax
    have hother : ¬ b.toNat < 0x80 := Nat.not_lt.mpr (le_toNat_of_lead? hlead)
    refine ⟨b, _, encode_of_lead? hlead hbits hleast hmax, ?_⟩
    have hgather : gather lead.tail lead.bits (continuations lead.tail c ++ rest) = some c := by
      rw [gather_continuations, ← hbits, Nat.div_add_mod']
    simp only [decode, if_neg hother, hlead, hgather, if_pos (And.intro hleast hmax),
      length_continuations]

/-- What is read at the front of a byte string: the code point whose bytes stand there, or one byte that
is no code point. -/
theorem decode_cases (b : UInt8) (rest : Bytes) :
    (decode b rest = (invalid, 0)) ∨
      ∃ c more, decode b rest = (c, more) ∧ IsCodePoint c ∧ more ≤ rest.length ∧
        encode c = b :: rest.take more := by
  unfold decode
  split
  · rename_i hascii
    refine .inr ⟨b.toNat, 0, rfl, isCodePoint_natCast_iff.mpr (by omega), Nat.zero_le _, ?_⟩
    rw [encode_natCast (by omega), if_pos hascii, Nat.toUInt8, UInt8.ofNat_toNat, List.take_zero]
  · split
    · exact .inl rfl
    · rename_i lead hlead
      split
      · exact .inl rfl
      · rename_i n hgather
        split
        · rename_i hrange
          obtain ⟨hlength, htake, hbits⟩ := take_of_gather hgather
          refine .inr ⟨n, lead.tail, rfl, isCodePoint_natCast_iff.mpr hrange.2, hlength, ?_⟩
          rw [encode_of_lead? hlead hbits hrange.1 hrange.2, htake]
        · exact .inl rfl

/-- Where a byte is read as no code point, the bytes of no code point stand. -/
theorem not_encode_prefix_of_invalid (hdecode : (decode b rest).1 = invalid) (h : IsCodePoint c) :
    ¬ encode c <+: b :: rest := by
  rintro ⟨behind, hsplit⟩
  obtain ⟨b', tail, hencode, hback⟩ := decode_encode h behind
  rw [hencode, List.cons_append] at hsplit
  obtain ⟨rfl, rfl⟩ := List.cons.inj hsplit
  rw [hback] at hdecode
  exact not_isCodePoint_invalid (hdecode ▸ h)

theorem chars_encode_append (h : IsCodePoint c) (rest : Bytes) :
    chars (encode c ++ rest) = (c, (encode c).length) :: chars rest := by
  obtain ⟨b, tail, hencode, hdecode⟩ := decode_encode h rest
  rw [hencode, List.cons_append, chars]
  simp [hdecode]

theorem codePoints_encode_append (h : IsCodePoint c) (rest : Bytes) :
    codePoints (encode c ++ rest) = c :: codePoints rest := by
  simp [codePoints, chars_encode_append h]

theorem chars_encodeAll {cs : List CodePoint} (h : ∀ c ∈ cs, IsCodePoint c) :
    chars (encodeAll cs) = cs.map fun c => (c, (encode c).length) := by
  induction cs with
  | nil => simp [chars]
  | cons c cs ih =>
    rw [List.forall_mem_cons] at h
    rw [encodeAll_cons, chars_encode_append h.1, ih h.2, List.map_cons]

theorem codePoints_encodeAll {cs : List CodePoint} (h : ∀ c ∈ cs, IsCodePoint c) :
    codePoints (encodeAll cs) = cs := by
  simp [codePoints, chars_encodeAll h, Function.comp_def]

/-- Induction along the reading of a byte string: it begins with a byte that is no code point, or with the
bytes of a code point. -/
@[elab_as_elim]
theorem reading_induction {motive : Bytes → Prop} (nil : motive [])
    (invalid : ∀ b rest, decode b rest = (invalid, 0) → motive rest → motive (b :: rest))
    (codePoint : ∀ c rest, IsCodePoint c → motive rest → motive (encode c ++ rest))
    (s : Bytes) : motive s := by
  induction s using chars.induct with
  | case1 => exact nil
  | case2 b rest c more hdecode ih =>
    rcases decode_cases b rest with hinvalid | ⟨d, len, hvalid, hd, -, hencode⟩
    · obtain ⟨rfl, rfl⟩ := Prod.mk.inj (hdecode.symm.trans hinvalid)
      exact invalid b rest hinvalid ih
    · obtain ⟨rfl, rfl⟩ := Prod.mk.inj (hdecode.symm.trans hvalid)
      have hsplit : b :: rest = encode c ++ rest.drop more := by
        rw [hencode, List.cons_append, List.take_append_drop]
      rw [hsplit]
      exact codePoint c _ hd ih

theorem codePoints_cons_of_invalid (h : decode b rest = (invalid, 0)) :
    codePoints (b :: rest) = invalid :: codePoints rest := by
  rw [codePoints_cons, h, List.drop_zero]

theorem isCodePoint_of_mem_codePoints {s : Bytes} (hmem : c ∈ codePoints s) (hc : c ≠ invalid) :
    IsCodePoint c := by
  induction s using reading_induction with
  | nil => simp at hmem
  | invalid b rest h ih =>
    rw [codePoints_cons_of_invalid h] at hmem
    exact ih ((List.mem_cons.mp hmem).resolve_left hc)
  | codePoint d rest h ih =>
    rw [codePoints_encode_append h] at hmem
    rcases List.mem_cons.mp hmem with rfl | hrest
    · exact h
    · exact ih hrest

/-- Code points and invalid characters, in any order, are the characters of a text. -/
theorem exists_codePoints_eq {cs : List CodePoint} (h : ∀ c ∈ cs, c ≠ invalid → IsCodePoint c) :
    ∃ text, codePoints text = cs := by
  induction cs with
  | nil => exact ⟨[], codePoints_nil⟩
  | cons c cs ih =>
    rw [List.forall_mem_cons] at h
    obtain ⟨text, rfl⟩ := ih h.2
    by_cases hc : c = invalid
    · subst hc
      -- no sequence begins with the byte FF
      exact ⟨0xFF :: text, codePoints_cons_of_invalid rfl⟩
    · exact ⟨encode c ++ text, codePoints_encode_append (h.1 hc) text⟩

theorem length_encode_invalid : (encode invalid).length = 3 := rfl

/-- What is read never takes fewer bytes when it is written again. -/
theorem length_le_encodeAll_codePoints (s : Bytes) :
    s.length ≤ (encodeAll (codePoints s)).length := by
  induction s using reading_induction with
  | nil => simp
  | invalid b rest h ih =>
    rw [codePoints_cons_of_invalid h, encodeAll_cons, List.length_append, length_encode_invalid,
      List.length_cons]
    omega
  | codePoint c rest h ih =>
    rw [codePoints_encode_append h, encodeAll_cons, List.length_append, List.length_append]
    omega

theorem encodeAll_codePoints_eq_iff (s : Bytes) :
    encodeAll (codePoints s) = s ↔ invalid ∉ codePoints s := by
  induction s using reading_induction with
  | nil => simp
  | invalid b rest h ih =>
    have hne : encodeAll (codePoints (b :: rest)) ≠ b :: rest := by
      intro heq
      have hlength := congrArg List.length heq
      rw [codePoints_cons_of_invalid h, encodeAll_cons, List.length_append, length_encode_invalid,
        List.length_cons] at hlength
      have hrest := length_le_encodeAll_codePoints rest
      omega
    refine iff_of_false hne ?_
    simp [codePoints_cons_of_invalid h]
  | codePoint c rest h ih =>
    have hc : c ≠ invalid := fun heq => not_isCodePoint_invalid (heq ▸ h)
    rw [codePoints_encode_append h, encodeAll_cons, List.append_cancel_left_eq, ih]
    simp [Ne.symm hc]

/-- Code points are read back from their bytes, one by one and as a whole, whatever follows them. A
reading step takes one to four bytes and stays within the string. It gives a code point whose bytes it
took, or takes a single byte where the bytes of no code point stand. So writing what was read gives back
the string exactly when all of it was read as code points. -/
theorem reading_inverts_writing :
    (∀ cs, (∀ c ∈ cs, IsCodePoint c) → codePoints (encodeAll cs) = cs) ∧
    (∀ c, IsCodePoint c → ∀ rest, ∃ b tail, encode c = b :: tail ∧
      decode b (tail ++ rest) = (c, tail.length)) ∧
    (∀ b rest c more, decode b rest = (c, more) →
      more + 1 ≤ 4 ∧ more ≤ rest.length ∧
      (c ≠ invalid → IsCodePoint c ∧ encode c = b :: rest.take more) ∧
      (c = invalid → more = 0 ∧
        ∀ front ≠ [], front <+: b :: rest → ∀ d, IsCodePoint d → encode d ≠ front)) ∧
    ∀ s, encodeAll (codePoints s) = s ↔ invalid ∉ codePoints s := by
  refine ⟨fun cs => codePoints_encodeAll, fun c => decode_encode, ?_, encodeAll_codePoints_eq_iff⟩
  intro b rest c more hdecode
  have hsize : more ≤ 3 := by
    have := decode_snd_le b rest
    rwa [hdecode] at this
  refine ⟨Nat.succ_le_succ hsize, ?_⟩
  rcases decode_cases b rest with hinvalid | ⟨d, len, hvalid, hd, hlen, hencode⟩
  · obtain ⟨rfl, rfl⟩ := Prod.mk.inj (hdecode.symm.trans hinvalid)
    refine ⟨Nat.zero_le _, fun hne => absurd rfl hne, fun _ => ⟨rfl, ?_⟩⟩
    rintro front - hfront d hd rfl
    exact not_encode_prefix_of_invalid (by rw [hinvalid]) hd hfront
  · obtain ⟨rfl, rfl⟩ := Prod.mk.inj (hdecode.symm.trans hvalid)
    refine ⟨hlen, fun _ => ⟨hd, hencode⟩, fun hc => ?_⟩
    exact absurd (hc ▸ hd) not_isCodePoint_invalid

/-- The code points at the borders of the classes, with a surrogate among them, and an overlong form. -/
theorem reading_inverts_writing_borders :
    (∀ c ∈ [0x7F, 0x80, 0x7FF, 0x800, 0xD800, 0xFFFF, 0x10000, 0x10FFFF], IsCodePoint c) ∧
    codePoints (encodeAll [0x7F, 0x80, 0x7FF, 0x800, 0xD800, 0xFFFF, 0x10000, 0x10FFFF]) =
      [0x7F, 0x80, 0x7FF, 0x800, 0xD800, 0xFFFF, 0x10000, 0x10FFFF] ∧
    decode 0xC0 [0x80] = (invalid, 0) ∧
    (∀ front ≠ [], front <+: [0xC0, 0x80] → ∀ d, IsCodePoint d → encode d ≠ front) :=
  have hborders : ∀ c ∈ [0x7F, 0x80, 0x7FF, 0x800, 0xD800, 0xFFFF, 0x10000, 0x10FFFF],
      IsCodePoint c := by decide
  have hoverlong : decode 0xC0 [0x80] = (invalid, 0) := by decide
  ⟨hborders, reading_inverts_writing.1 _ hborders, hoverlong,
    ((reading_inverts_writing.2.2.1 _ _ _ _ hoverlong).2.2.2 rfl).2⟩

end NameGlob.Utf8
