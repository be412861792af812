import NameGlob.Proofs.Pattern.Escaping
import NameGlob.Proofs.Pattern.Wildcards

/-!
# Unescaped patterns

Unescaping works on bytes, but where the backticks of a pattern quote nothing but special characters, backticks
and the end, what it leaves are the characters of the marks. Only ASCII characters lose a backtick, so no byte
before one is read differently. A pattern without wildcards is read as these characters, so it matches the
texts that are read like the unescaped pattern. In an escaped name the backticks that were put in are those
that are taken away, so unescaping leads back to the name.
-/

namespace NameGlob.Escape

variable {b : UInt8} {rest bytes name pattern : Bytes}

/-- A byte before which a backtick is taken away: a backtick or a special character. -/
def IsQuotable (b : UInt8) : Prop :=
  b = quote ∨ isSpecial b = true

/-- The backticks of a pattern, paired from left to right with the bytes behind them, quote quotable bytes
only. A backtick at the end quotes no byte. -/
inductive QuotesQuotable : Bytes → Prop
  | nil : QuotesQuotable []
  | plain {b : UInt8} {rest : Bytes} (hb : b ≠ quote) (h : QuotesQuotable rest) :
      QuotesQuotable (b :: rest)
  | quoted {b : UInt8} {rest : Bytes} (hb : IsQuotable b) (h : QuotesQuotable rest) :
      QuotesQuotable (quote :: b :: rest)
  | dangling : QuotesQuotable [quote]

theorem toNat_lt_of_isQuotable (h : IsQuotable b) : b.toNat < 0x80 := by
  rcases h with rfl | hspecial
  · decide
  · exact toNat_lt_of_isSpecial hspecial

theorem quotesQuotable_plain_iff (h : b ≠ quote) : QuotesQuotable (b :: rest) ↔ QuotesQuotable rest := by
  refine ⟨fun hquotes => ?_, .plain h⟩
  cases hquotes with
  | plain _ hrest => exact hrest
  | quoted => exact absurd rfl h
  | dangling => exact absurd rfl h

theorem quotesQuotable_quote_iff :
    QuotesQuotable (quote :: b :: rest) ↔ IsQuotable b ∧ QuotesQuotable rest := by
  refine ⟨fun hquotes => ?_, fun h => .quoted h.1 h.2⟩
  cases hquotes with
  | plain hb _ => exact absurd rfl hb
  | quoted hb hrest => exact ⟨hb, hrest⟩

theorem unquote_plain (h : b ≠ quote) (rest : Bytes) : unquote (b :: rest) = b :: unquote rest := by
  cases rest with
  | nil => rfl
  | cons c rest => rw [unquote, if_neg h]

theorem unquote_quotable (h : IsQuotable b) (rest : Bytes) :
    unquote (quote :: b :: rest) = b :: unquote rest := by
  have hquotable : (decide (b = quote) || isSpecial b) = true := by
    rwa [Bool.or_eq_true, decide_eq_true_iff]
  rw [unquote, if_pos rfl, if_pos hquotable]

/-- Unescaping keeps the run of continuation bytes at the beginning of a pattern. -/
theorem takeWhile_unquote (bytes : Bytes) :
    (unquote bytes).takeWhile Utf8.isContinuation = bytes.takeWhile Utf8.isContinuation := by
  have hquote : quote.toNat < 0x80 := by decide
  fun_induction unquote bytes with
  | case1 => rfl
  | case2 b => rfl
  | case3 c rest hquotable ih =>
    rw [Bool.or_eq_true, decide_eq_true_iff] at hquotable
    rw [Utf8.takeWhile_ascii_cons hquote,
      Utf8.takeWhile_ascii_cons (toNat_lt_of_isQuotable hquotable)]
  | case4 c rest hquotable ih =>
    rw [Utf8.takeWhile_ascii_cons hquote, Utf8.takeWhile_ascii_cons hquote]
  | case5 b c rest hplain ih =>
    rw [List.takeWhile_cons, List.takeWhile_cons, ih]

theorem ne_quote_of_le (h : 0x80 ≤ b.toNat) : b ≠ quote := by
  rintro rfl
  exact absurd h (by decide)

/-- Bytes that are not ASCII are left where they are. -/
theorem unquote_append {block : Bytes} (h : ∀ b ∈ block, 0x80 ≤ b.toNat) (rest : Bytes) :
    unquote (block ++ rest) = block ++ unquote rest := by
  induction block with
  | nil => rfl
  | cons b block ih =>
    rw [List.forall_mem_cons] at h
    rw [List.cons_append, unquote_plain (ne_quote_of_le h.1), ih h.2, List.cons_append]

theorem quotesQuotable_append_iff {block : Bytes} (h : ∀ b ∈ block, 0x80 ≤ b.toNat) :
    QuotesQuotable (block ++ rest) ↔ QuotesQuotable rest := by
  induction block with
  | nil => exact Iff.rfl
  | cons b block ih =>
    rw [List.forall_mem_cons] at h
    rw [List.cons_append, quotesQuotable_plain_iff (ne_quote_of_le h.1), ih h.2]

/-- What unescaping leaves are the characters of the marks, before a pattern and behind a backtick. -/
structure UnquoteAgrees (bytes : Bytes) : Prop where
  plain : QuotesQuotable bytes →
    Utf8.codePoints (unquote bytes) = (Mark.pair (Utf8.codePoints bytes)).map Mark.char
  quoted : QuotesQuotable (quote :: bytes) →
    Utf8.codePoints (unquote (quote :: bytes)) = (Mark.pairQuoted (Utf8.codePoints bytes)).map Mark.char

theorem UnquoteAgrees.ascii_cons (hb : b.toNat < 0x80) (ih : UnquoteAgrees rest) :
    UnquoteAgrees (b :: rest) := by
  constructor
  · intro hquotes
    rw [Utf8.codePoints_ascii_cons hb]
    by_cases hquote : b = quote
    · subst hquote
      rw [show Utf8.charOf quote = backtick from rfl, Mark.pair_backtick]
      exact ih.quoted hquotes
    · have hplain : Utf8.charOf b ≠ backtick := fun h => hquote (Utf8.charOf_inj.mp h)
      rw [unquote_plain hquote, Utf8.codePoints_ascii_cons hb, Mark.pair_plain hplain, List.map_cons,
        ih.plain ((quotesQuotable_plain_iff hquote).mp hquotes)]
  · intro hquotes
    obtain ⟨hquotable, hrest⟩ := quotesQuotable_quote_iff.mp hquotes
    rw [unquote_quotable hquotable, Utf8.codePoints_ascii_cons hb, Utf8.codePoints_ascii_cons hb,
      Mark.pairQuoted, List.map_cons, ih.plain hrest]

theorem UnquoteAgrees.wide_append {block : Bytes} {c : CodePoint} (hblock : Utf8.ReadsAs block c rest)
    (ih : UnquoteAgrees rest) : UnquoteAgrees (block ++ rest) := by
  have hplain : c ≠ backtick := hblock.ne_of_lt (by decide)
  constructor
  · intro hquotes
    have hrest := (quotesQuotable_append_iff hblock.le_byte).mp hquotes
    rw [unquote_append hblock.le_byte, hblock.codePoints_append _ (takeWhile_unquote rest),
      hblock.codePoints_append rest rfl, Mark.pair_plain hplain, List.map_cons, ih.plain hrest]
  · intro hquotes
    -- the byte behind the backtick is not quotable
    obtain ⟨b, tail, rfl⟩ := List.exists_cons_of_ne_nil hblock.ne_nil
    have hlt := toNat_lt_of_isQuotable (quotesQuotable_quote_iff.mp hquotes).1
    exact absurd (hblock.le_byte b List.mem_cons_self) (Nat.not_le.mpr hlt)

theorem unquoteAgrees (bytes : Bytes) : UnquoteAgrees bytes := by
  induction bytes using Utf8.ascii_induction with
  | nil =>
    refine ⟨fun _ => ?_, fun _ => ?_⟩
    · rw [unquote, Utf8.codePoints_nil]
      rfl
    · decide +kernel
  | ascii b rest hb ih => exact .ascii_cons hb ih
  | wide block c rest hblock ih => exact .wide_append hblock ih

/-- Where backticks quote quotable bytes only, the characters of the unescaped pattern are those of its
marks. -/
theorem codePoints_unquote (h : QuotesQuotable bytes) :
    Utf8.codePoints (unquote bytes) = (Mark.pair (Utf8.codePoints bytes)).map Mark.char :=
  (unquoteAgrees bytes).plain h

/-- A pattern without wildcards whose backticks quote quotable bytes only is read as the characters of the
unescaped pattern. Without options it matches the texts that are read like that one. -/
theorem parse_eq_unescape (hpattern : 0 ∉ pattern) (hne : pattern ≠ [quote])
    (hplain : hasWildcards pattern = false) (hquotes : QuotesQuotable pattern) :
    Pattern.parse pattern = .ok ((Utf8.codePoints (unescape pattern)).map .literal) ∧
      (∀ options, Pattern.trace pattern options =
        .start pattern options :: (Utf8.codePoints (unescape pattern)).map .literal ++ [.finish]) ∧
      ∀ locale, ∃ g, Glob.compile pattern .none locale = .ok g ∧
        ∀ text, g.accepts text = true ↔ Utf8.codePoints text = Utf8.codePoints (unescape pattern) := by
  have hparse : Pattern.parse pattern = .ok ((Utf8.codePoints (unescape pattern)).map .literal) := by
    rw [unescape, Bytes.untilNul_eq_self hpattern, codePoints_unquote hquotes]
    exact Pattern.parse_of_no_wildcard hne ((hasWildcards_eq_false_iff hpattern).mp hplain)
  exact ⟨hparse, Pattern.trace_literals hparse, Glob.compile_of_literals hparse⟩

/-- A quoted bracket, an `ä`, a quoted backtick, an `x` and a last backtick. -/
theorem parse_eq_unescape_quoted :
    ((0 : UInt8) ∉ [0x60, 0x5B, 0xC3, 0xA4, 0x60, 0x60, 0x78, 0x60] ∧
        [0x60, 0x5B, 0xC3, 0xA4, 0x60, 0x60, 0x78, 0x60] ≠ [quote] ∧
        hasWildcards [0x60, 0x5B, 0xC3, 0xA4, 0x60, 0x60, 0x78, 0x60] = false ∧
        QuotesQuotable [0x60, 0x5B, 0xC3, 0xA4, 0x60, 0x60, 0x78, 0x60]) ∧
      unescape [0x60, 0x5B, 0xC3, 0xA4, 0x60, 0x60, 0x78, 0x60] = [0x5B, 0xC3, 0xA4, 0x60, 0x78, 0x60] ∧
      Pattern.parse [0x60, 0x5B, 0xC3, 0xA4, 0x60, 0x60, 0x78, 0x60] =
        .ok [.literal 0x5B, .literal 0xE4, .literal 0x60, .literal 0x78, .literal 0x60] ∧
      ∀ locale, ∃ g, Glob.compile [0x60, 0x5B, 0xC3, 0xA4, 0x60, 0x60, 0x78, 0x60] .none locale = .ok g ∧
        ∀ text, g.accepts text = true ↔ Utf8.codePoints text = [0x5B, 0xE4, 0x60, 0x78, 0x60] := by
  have hquotes : QuotesQuotable [0x60, 0x5B, 0xC3, 0xA4, 0x60, 0x60, 0x78, 0x60] :=
    .quoted (.inr rfl) (.plain (by decide) (.plain (by decide) (.quoted (.inl rfl)
      (.plain (by decide) .dangling))))
  have hcodes : Utf8.codePoints (unescape [0x60, 0x5B, 0xC3, 0xA4, 0x60, 0x60, 0x78, 0x60]) =
      [0x5B, 0xE4, 0x60, 0x78, 0x60] := by
    decide +kernel
  obtain ⟨hparse, -, hmatches⟩ := parse_eq_unescape (by decide) (by decide) (by decide) hquotes
  rw [hcodes] at hparse hmatches
  exact ⟨⟨by decide, by decide, by decide, hquotes⟩, by decide, hparse, hmatches⟩

theorem unquote_flatMap_escapeByte (hquote : quote ∉ name) (kept : Bytes) :
    unquote (name.flatMap (escapeByte kept)) = name := by
  induction name with
  | nil => rfl
  | cons b rest ih =>
    rw [List.mem_cons, not_or] at hquote
    rw [List.flatMap_cons, escapeByte]
    split
    · rename_i hspecial
      have hquotable : IsQuotable b := .inr (Bool.and_eq_true_iff.mp hspecial).1
      rw [List.cons_append, List.singleton_append, unquote_quotable hquotable, ih hquote.2]
    · rw [List.singleton_append, unquote_plain (Ne.symm hquote.1), ih hquote.2]

/-- Unescaping leads back from the escaped form of a name without backticks, whatever is kept. -/
theorem unescape_escape (hname : 0 ∉ name) (hquote : quote ∉ name) (kept : Bytes) :
    unescape (escape name kept) = name := by
  rw [escape, Bytes.untilNul_eq_self hname, unescape,
    Bytes.untilNul_eq_self (zero_not_mem_escape hname kept.untilNul), unquote_flatMap_escapeByte hquote]

/-- The name `ä*?]`, of which the star is kept. -/
theorem unescape_escape_star :
    ((0 : UInt8) ∉ [0xC3, 0xA4, 0x2A, 0x3F, 0x5D] ∧ quote ∉ [0xC3, 0xA4, 0x2A, 0x3F, 0x5D]) ∧
      escape [0xC3, 0xA4, 0x2A, 0x3F, 0x5D] [0x2A] = [0xC3, 0xA4, 0x2A, 0x60, 0x3F, 0x60, 0x5D] ∧
      unescape [0xC3, 0xA4, 0x2A, 0x60, 0x3F, 0x60, 0x5D] = [0xC3, 0xA4, 0x2A, 0x3F, 0x5D] := by
  have hescaped : escape [0xC3, 0xA4, 0x2A, 0x3F, 0x5D] [0x2A] =
      [0xC3, 0xA4, 0x2A, 0x60, 0x3F, 0x60, 0x5D] := by
    decide
  refine ⟨⟨by decide, by decide⟩, hescaped, ?_⟩
  rw [← hescaped]
  exact unescape_escape (by decide) (by decide) [0x2A]

end NameGlob.Escape
