import NameGlob.Pattern.Escape
import NameGlob.Proofs.Pattern.Characters
import NameGlob.Proofs.Text.Ascii

/-!
# Quoted characters

Where the symbols of a pattern stand matters only to its faults. Without their places they are marks, which
follow from the characters of the pattern alone. A pattern without a plain `[` has no fault, and its items are
its marks one by one. The scan of the bytes for a wildcard that is not quoted finds one exactly when a mark is
a wildcard, although it passes one byte behind a backtick where the reading passes one character.
-/

namespace NameGlob

/-- A character of a pattern, and whether it is quoted. -/
structure Mark where
  char : CodePoint
  quoted : Bool
  deriving Repr, DecidableEq

namespace Mark

/-- The marks of characters, of which each backtick quotes the next one. A last backtick quotes itself. -/
def pair : List CodePoint → List Mark
  | [] => []
  | [c] => [⟨c, c == backtick⟩]
  | c :: d :: rest => if c = backtick then ⟨d, true⟩ :: pair rest else ⟨c, false⟩ :: pair (d :: rest)

/-- The marks of characters behind a backtick. -/
def pairQuoted : List CodePoint → List Mark
  | [] => [⟨backtick, true⟩]
  | d :: rest => ⟨d, true⟩ :: pair rest

/-- The item that a mark makes, unless it opens a bracket list. -/
def item (m : Mark) : Item :=
  if m = ⟨0x2A, false⟩ then .anySequence
  else if m = ⟨0x3F, false⟩ then .anyOne
  else .literal m.char

/-- The mark begins an item that is no literal. -/
def IsWildcard (m : Mark) : Prop :=
  m.quoted = false ∧ m.char ∈ Utf8.ascii "*?["

variable {c : CodePoint} {cs : List CodePoint} {m : Mark}

theorem pair_backtick (cs : List CodePoint) : pair (backtick :: cs) = pairQuoted cs := by
  cases cs with
  | nil => rfl
  | cons d rest => rw [pair, if_pos rfl, pairQuoted]

theorem pair_plain (h : c ≠ backtick) (cs : List CodePoint) : pair (c :: cs) = ⟨c, false⟩ :: pair cs := by
  cases cs with
  | nil => simp [pair, h]
  | cons d rest => rw [pair, if_neg h]

theorem item_of_not_isWildcard (h : ¬ m.IsWildcard) : m.item = .literal m.char := by
  have hstar : m ≠ ⟨0x2A, false⟩ := by
    rintro rfl
    exact h ⟨rfl, by decide⟩
  have hone : m ≠ ⟨0x3F, false⟩ := by
    rintro rfl
    exact h ⟨rfl, by decide⟩
  rw [item, if_neg hstar, if_neg hone]

end Mark

namespace Symbol

/-- The symbol without its place. -/
def mark (s : Symbol) : Mark := ⟨s.char, s.quoted⟩

theorem map_mark_pair (chars : List (CodePoint × Nat)) :
    (pair chars).map mark = Mark.pair (chars.map Prod.fst) := by
  fun_induction pair chars with
  | case1 => rfl
  | case2 c offset => rfl
  | case3 escape d next rest ih =>
    rw [List.map_cons, ih]
    exact (Mark.pair_backtick (d :: rest.map Prod.fst)).symm
  | case4 c offset d next rest hplain ih =>
    rw [List.map_cons, ih]
    exact (Mark.pair_plain hplain _).symm

/-- The marks of a pattern follow from its characters. -/
theorem map_mark_ofPattern {pattern : Bytes} (h : pattern ≠ [0x60]) :
    (ofPattern pattern).map mark = Mark.pair (Utf8.codePoints pattern) := by
  rw [ofPattern, if_neg h, map_mark_pair, chars_locate, Utf8.codePoints]

theorem isPlain_iff (s : Symbol) (c : CodePoint) : s.isPlain c = true ↔ s.mark = ⟨c, false⟩ := by
  simp [isPlain, mark, and_comm]

end Symbol

namespace Pattern

variable {pattern : Bytes}

theorem itemOf_eq (s : Symbol) : itemOf s = s.mark.item := by
  simp only [itemOf, Mark.item, Symbol.isPlain_iff]
  rfl

theorem readSymbols_of_no_list {symbols : List Symbol} (h : ⟨0x5B, false⟩ ∉ symbols.map Symbol.mark) :
    readSymbols none symbols = ⟨symbols.map itemOf, none⟩ := by
  induction symbols with
  | nil => rfl
  | cons s rest ih =>
    rw [List.map_cons, List.mem_cons, not_or] at h
    have hopen : ¬ s.isPlain 0x5B = true := by
      rw [Symbol.isPlain_iff]
      exact Ne.symm h.1
    rw [readSymbols, if_neg hopen, ih h.2]
    rfl

/-- A pattern without a plain `[` has no fault, and each of its marks makes an item. -/
theorem parse_of_no_list (hne : pattern ≠ [0x60])
    (h : ⟨0x5B, false⟩ ∉ Mark.pair (Utf8.codePoints pattern)) :
    parse pattern = .ok ((Mark.pair (Utf8.codePoints pattern)).map Mark.item) := by
  rw [← Symbol.map_mark_ofPattern hne] at h ⊢
  rw [parse_eq_ok_iff, read, readSymbols_of_no_list h, List.map_map]
  congr 1
  exact List.map_congr_left fun s _ => itemOf_eq s

/-- A pattern without wildcards is read as its characters, of which none is a backtick that quotes. -/
theorem parse_of_no_wildcard (hne : pattern ≠ [0x60])
    (h : ∀ m ∈ Mark.pair (Utf8.codePoints pattern), ¬ m.IsWildcard) :
    parse pattern = .ok (((Mark.pair (Utf8.codePoints pattern)).map Mark.char).map .literal) := by
  have hlist : ⟨0x5B, false⟩ ∉ Mark.pair (Utf8.codePoints pattern) :=
    fun hmem => h _ hmem ⟨rfl, by decide⟩
  rw [parse_of_no_list hne hlist, List.map_map]
  congr 1
  exact List.map_congr_left fun m hm => Mark.item_of_not_isWildcard (h m hm)

end Pattern

namespace Escape

variable {b : UInt8} {rest : Bytes}

theorem findsWildcard_wildcard (h : isWildcard b = true) (rest : Bytes) :
    findsWildcard (b :: rest) = true := by
  cases rest with
  | nil => exact h
  | cons c rest => rw [findsWildcard, if_pos h]

theorem findsWildcard_quote (rest : Bytes) : findsWildcard (quote :: rest) = findsWildcard (rest.drop 1) := by
  cases rest with
  | nil => rfl
  | cons c rest => rfl

theorem findsWildcard_other (h : ¬ isWildcard b = true) (hquote : b ≠ quote) (rest : Bytes) :
    findsWildcard (b :: rest) = findsWildcard rest := by
  cases rest with
  | nil => exact Bool.eq_false_iff.mpr h
  | cons c rest => rw [findsWildcard, if_neg h, if_neg hquote]

theorem isWildcard_iff : isWildcard b = true ↔ Utf8.charOf b ∈ Utf8.ascii "*?[" := by
  have hchars : Utf8.ascii "*?[" = [Utf8.charOf 0x2A, Utf8.charOf 0x3F, Utf8.charOf 0x5B] := by decide
  simp [hchars, isWildcard, Utf8.charOf_inj, or_assoc]

theorem toNat_lt_of_isWildcard (h : isWildcard b = true) : b.toNat < 0x80 := by
  simp only [isWildcard, Bool.or_eq_true, beq_iff_eq] at h
  rcases h with (rfl | rfl) | rfl <;> decide

theorem findsWildcard_append {block : Bytes} (h : ∀ b ∈ block, 0x80 ≤ b.toNat) (rest : Bytes) :
    findsWildcard (block ++ rest) = findsWildcard rest := by
  induction block with
  | nil => rfl
  | cons b block ih =>
    rw [List.forall_mem_cons] at h
    have hwildcard : ¬ isWildcard b = true := fun hb => Nat.not_le.mpr (toNat_lt_of_isWildcard hb) h.1
    have hquote : b ≠ quote := by
      rintro rfl
      exact absurd h.1 (by decide)
    rw [List.cons_append, findsWildcard_other hwildcard hquote, ih h.2]

theorem exists_isWildcard_cons_iff {m : Mark} {ms : List Mark} (h : ¬ m.IsWildcard) :
    (∃ m' ∈ m :: ms, m'.IsWildcard) ↔ ∃ m' ∈ ms, m'.IsWildcard := by
  simp [h]

theorem not_isWildcard_quoted (c : CodePoint) : ¬ Mark.IsWildcard ⟨c, true⟩ :=
  fun h => Bool.noConfusion h.1

/-- The scan agrees with the marks, before a pattern and behind a backtick. There it passes one byte, and what
is left of a character of several bytes holds no wildcard. -/
structure ScanAgrees (bytes : Bytes) : Prop where
  plain : findsWildcard bytes = true ↔ ∃ m ∈ Mark.pair (Utf8.codePoints bytes), m.IsWildcard
  quoted : findsWildcard (bytes.drop 1) = true ↔
    ∃ m ∈ Mark.pairQuoted (Utf8.codePoints bytes), m.IsWildcard

theorem ScanAgrees.ascii_cons (hb : b.toNat < 0x80) (ih : ScanAgrees rest) : ScanAgrees (b :: rest) := by
  constructor
  · rw [Utf8.codePoints_ascii_cons hb]
    by_cases hquote : b = quote
    · subst hquote
      rw [findsWildcard_quote, show Utf8.charOf quote = backtick from rfl, Mark.pair_backtick]
      exact ih.quoted
    · have hplain : Utf8.charOf b ≠ backtick := fun h => hquote (Utf8.charOf_inj.mp h)
      rw [Mark.pair_plain hplain]
      by_cases hwildcard : isWildcard b = true
      · refine iff_of_true (findsWildcard_wildcard hwildcard rest) ⟨_, List.mem_cons_self, rfl, ?_⟩
        exact isWildcard_iff.mp hwildcard
      · have hmark : ¬ Mark.IsWildcard ⟨Utf8.charOf b, false⟩ := fun h => hwildcard (isWildcard_iff.mpr h.2)
        rw [findsWildcard_other hwildcard hquote, exists_isWildcard_cons_iff hmark]
        exact ih.plain
  · rw [Utf8.codePoints_ascii_cons hb, Mark.pairQuoted, exists_isWildcard_cons_iff (not_isWildcard_quoted _)]
    exact ih.plain

theorem ScanAgrees.wide_append {block : Bytes} {c : CodePoint} (hblock : Utf8.ReadsAs block c rest)
    (ih : ScanAgrees rest) : ScanAgrees (block ++ rest) := by
  have hread := hblock.codePoints_append rest rfl
  have hplain : c ≠ backtick := hblock.ne_of_lt (by decide)
  have hmark : ¬ Mark.IsWildcard ⟨c, false⟩ := by
    rintro ⟨-, hmem⟩
    have hascii : ∀ d ∈ Utf8.ascii "*?[", d < 0x80 := by decide
    exact hblock.ne_of_lt (hascii c hmem) rfl
  constructor
  · rw [hread, Mark.pair_plain hplain, exists_isWildcard_cons_iff hmark, findsWildcard_append hblock.le_byte]
    exact ih.plain
  · rw [hread, Mark.pairQuoted, exists_isWildcard_cons_iff (not_isWildcard_quoted _)]
    obtain ⟨b, tail, rfl⟩ := List.exists_cons_of_ne_nil hblock.ne_nil
    rw [List.cons_append, List.drop_one, List.tail_cons,
      findsWildcard_append (List.forall_mem_cons.mp hblock.le_byte).2]
    exact ih.plain

theorem scanAgrees (bytes : Bytes) : ScanAgrees bytes := by
  induction bytes using Utf8.ascii_induction with
  | nil => exact ⟨by simp [findsWildcard, Mark.pair], by
      simp [findsWildcard, Mark.pairQuoted, not_isWildcard_quoted]⟩
  | ascii b rest hb ih => exact .ascii_cons hb ih
  | wide block c rest hblock ih => exact .wide_append hblock ih

/-- The scan for wildcards finds one exactly when a mark is a wildcard. -/
theorem findsWildcard_iff (bytes : Bytes) :
    findsWildcard bytes = true ↔ ∃ m ∈ Mark.pair (Utf8.codePoints bytes), m.IsWildcard :=
  (scanAgrees bytes).plain

theorem hasWildcards_eq_false_iff {pattern : Bytes} (hpattern : 0 ∉ pattern) :
    hasWildcards pattern = false ↔ ∀ m ∈ Mark.pair (Utf8.codePoints pattern), ¬ m.IsWildcard := by
  rw [hasWildcards, Bytes.untilNul_eq_self hpattern, Bool.eq_false_iff, ne_eq, findsWildcard_iff]
  simp only [not_exists, not_and]

end Escape

end NameGlob
