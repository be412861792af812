import Mathlib.Data.List.Chain
import Mathlib.Data.List.Induction
import NameGlob.Proofs.Glob.Agreement
import NameGlob.Proofs.Pattern.Quoting

/-!
# Escaped names

Escaping works on bytes, but the characters of an escaped name follow from those of the name: only ASCII is
quoted, and a quoted byte does not change how the bytes before it are read. In a name without backticks each
backtick of the escaped name quotes the character that it was put before. A backtick of the name itself is not
quoted. At the end of a name it quotes itself; elsewhere it quotes the next character of the escaped name, and
then either it is lost or it sets a special character free.
-/

namespace NameGlob

namespace Escape

variable {kept name : Bytes} {b : UInt8} {c d : CodePoint} {cs : List CodePoint}

/-- The characters that escaping quotes. -/
def quotedChars (kept : Bytes) : List CodePoint :=
  (([0x2A, 0x3F, 0x5B, 0x5D] : Bytes).filter (!kept.contains ·)).map Utf8.charOf

/-- One character of an escaped name. -/
def escapeChar (kept : Bytes) (c : CodePoint) : List CodePoint :=
  if c ∈ quotedChars kept then [backtick, c] else [c]

theorem charOf_mem_quotedChars_iff :
    Utf8.charOf b ∈ quotedChars kept ↔ (isSpecial b && !kept.contains b) = true := by
  simp [quotedChars, Utf8.charOf_inj, isSpecial, or_assoc]

theorem toNat_lt_of_isSpecial (h : isSpecial b = true) : b.toNat < 0x80 := by
  simp only [isSpecial, Bool.or_eq_true, beq_iff_eq] at h
  rcases h with ((rfl | rfl) | rfl) | rfl <;> decide

theorem escapeByte_of_le (h : 0x80 ≤ b.toNat) : escapeByte kept b = [b] := by
  have hspecial : ¬ isSpecial b = true := fun hb => Nat.not_lt.mpr h (toNat_lt_of_isSpecial hb)
  rw [escapeByte, Bool.eq_false_iff.mpr hspecial, Bool.false_and, if_neg Bool.false_ne_true]

theorem lt_of_mem_quotedChars (h : c ∈ quotedChars kept) : c < 0x80 := by
  obtain ⟨b, -, rfl⟩ := List.mem_map.mp h
  have hspecial := (Bool.and_eq_true_iff.mp (charOf_mem_quotedChars_iff.mp h)).1
  exact Utf8.charOf_lt (toNat_lt_of_isSpecial hspecial)

theorem escapeChar_of_le (h : 0x80 ≤ c) : escapeChar kept c = [c] :=
  if_neg fun hmem => Int.not_lt.mpr h (lt_of_mem_quotedChars hmem)

/-- Escaping keeps the run of continuation bytes at the beginning of a name. -/
theorem takeWhile_escape (name : Bytes) :
    (name.flatMap (escapeByte kept)).takeWhile Utf8.isContinuation = name.takeWhile Utf8.isContinuation := by
  induction name with
  | nil => rfl
  | cons b rest ih =>
    rw [List.flatMap_cons]
    by_cases hb : Utf8.isContinuation b = true
    · rw [escapeByte_of_le (Utf8.isContinuation_iff.mp hb).1, List.singleton_append,
        List.takeWhile_cons_of_pos hb, List.takeWhile_cons_of_pos hb, ih]
    · rw [List.takeWhile_cons_of_neg hb, escapeByte]
      split
      · exact List.takeWhile_cons_of_neg (by decide)
      · exact List.takeWhile_cons_of_neg hb

/-- The characters of an escaped name are the escaped characters of the name. -/
theorem codePoints_flatMap_escapeByte (name : Bytes) :
    Utf8.codePoints (name.flatMap (escapeByte kept)) = (Utf8.codePoints name).flatMap (escapeChar kept) := by
  induction name using Utf8.ascii_induction with
  | nil => rw [List.flatMap_nil, Utf8.codePoints_nil, List.flatMap_nil]
  | ascii b rest hb ih =>
    rw [List.flatMap_cons, Utf8.codePoints_ascii_cons hb, List.flatMap_cons, ← ih, escapeChar, escapeByte]
    by_cases hspecial : (isSpecial b && !kept.contains b) = true
    · rw [if_pos hspecial, if_pos (charOf_mem_quotedChars_iff.mpr hspecial), List.cons_append,
        List.singleton_append, Utf8.codePoints_ascii_cons (by decide), Utf8.codePoints_ascii_cons hb]
      rfl
    · rw [if_neg hspecial, if_neg (mt charOf_mem_quotedChars_iff.mp hspecial), List.singleton_append,
        Utf8.codePoints_ascii_cons hb]
      rfl
  | wide block c rest hblock ih =>
    have hkeep : block.flatMap (escapeByte kept) = block := by
      rw [List.flatMap_congr fun b hb => escapeByte_of_le (hblock.le_byte b hb), List.flatMap_singleton']
    rw [List.flatMap_append, hkeep, hblock.codePoints_append _ (takeWhile_escape rest),
      hblock.codePoints_append rest rfl, List.flatMap_cons, escapeChar_of_le hblock.le_char,
      List.singleton_append, ih]

theorem escapeByte_ne_nil (kept : Bytes) (b : UInt8) : escapeByte kept b ≠ [] := by
  rw [escapeByte]
  split <;> exact List.cons_ne_nil _ _

/-- Only the name that is a backtick is escaped as a backtick. -/
theorem eq_of_flatMap_escapeByte (h : name.flatMap (escapeByte kept) = [quote]) : name = [quote] := by
  cases name with
  | nil => cases h
  | cons b rest =>
    rw [List.flatMap_cons, escapeByte] at h
    split at h
    · simp at h
    · rw [List.singleton_append, List.cons_eq_cons, List.flatMap_eq_nil_iff] at h
      obtain ⟨rfl, hrest⟩ := h
      have hnil : rest = [] :=
        List.eq_nil_iff_forall_not_mem.mpr fun d hd => escapeByte_ne_nil kept d (hrest d hd)
      rw [hnil]

theorem backtick_not_mem_quotedChars (kept : Bytes) : backtick ∉ quotedChars kept := by
  show Utf8.charOf quote ∉ quotedChars kept
  rw [charOf_mem_quotedChars_iff]
  exact Bool.false_ne_true

/-- The marks of escaped characters. -/
def escapedMarks (kept : Bytes) (cs : List CodePoint) : List Mark :=
  Mark.pair (cs.flatMap (escapeChar kept))

theorem pair_codePoints_escaped (kept name : Bytes) :
    Mark.pair (Utf8.codePoints (name.flatMap (escapeByte kept))) =
      escapedMarks kept (Utf8.codePoints name) := by
  rw [codePoints_flatMap_escapeByte, escapedMarks]

theorem escapedMarks_cons (h : c ≠ backtick) (cs : List CodePoint) :
    escapedMarks kept (c :: cs) = ⟨c, decide (c ∈ quotedChars kept)⟩ :: escapedMarks kept cs := by
  rw [escapedMarks, List.flatMap_cons, escapeChar]
  by_cases hquoted : c ∈ quotedChars kept
  · rw [if_pos hquoted, decide_eq_true hquoted, List.cons_append, Mark.pair_backtick]
    rfl
  · rw [if_neg hquoted, decide_eq_false hquoted, List.singleton_append, Mark.pair_plain h]
    rfl

theorem escapedMarks_backtick_cons (cs : List CodePoint) :
    escapedMarks kept (backtick :: cs) = Mark.pairQuoted (cs.flatMap (escapeChar kept)) := by
  rw [escapedMarks, List.flatMap_cons, escapeChar, if_neg (backtick_not_mem_quotedChars kept),
    List.singleton_append, Mark.pair_backtick]

/-- A last backtick quotes itself. -/
theorem escapedMarks_backtick (kept : Bytes) : escapedMarks kept [backtick] = [⟨backtick, true⟩] := by
  rw [escapedMarks_backtick_cons]
  rfl

/-- A backtick quotes the one that was put before a special character. -/
theorem escapedMarks_backtick_special (h : d ∈ quotedChars kept) (cs : List CodePoint) :
    escapedMarks kept (backtick :: d :: cs) = ⟨backtick, true⟩ :: ⟨d, false⟩ :: escapedMarks kept cs := by
  have hd : d ≠ backtick := fun heq => backtick_not_mem_quotedChars kept (heq ▸ h)
  rw [escapedMarks_backtick_cons, List.flatMap_cons, escapeChar, if_pos h, List.cons_append,
    List.singleton_append, Mark.pairQuoted, Mark.pair_plain hd]
  rfl

/-- A backtick before any other character is lost. -/
theorem escapedMarks_backtick_plain (h : d ∉ quotedChars kept) (cs : List CodePoint) :
    escapedMarks kept (backtick :: d :: cs) = ⟨d, true⟩ :: escapedMarks kept cs := by
  rw [escapedMarks_backtick_cons, List.flatMap_cons, escapeChar, if_neg h]
  rfl

/-! ### Names without backticks -/

/-- The item that a character of an escaped name makes, if the name has no backticks. -/
def keptItem (kept : Bytes) (c : CodePoint) : Item :=
  if c = 0x2A ∧ 0x2A ∈ kept then .anySequence
  else if c = 0x3F ∧ 0x3F ∈ kept then .anyOne
  else .literal c

theorem escapedMarks_of_not_mem (h : backtick ∉ cs) :
    escapedMarks kept cs = cs.map fun c => ⟨c, decide (c ∈ quotedChars kept)⟩ := by
  induction cs with
  | nil => rfl
  | cons c cs ih =>
    rw [List.mem_cons, not_or] at h
    rw [escapedMarks_cons (Ne.symm h.1), ih h.2, List.map_cons]

theorem mem_quotedChars_iff (h : isSpecial b = true) : Utf8.charOf b ∈ quotedChars kept ↔ b ∉ kept := by
  rw [charOf_mem_quotedChars_iff, h]
  simp

theorem item_escaped (kept : Bytes) (c : CodePoint) :
    Mark.item ⟨c, decide (c ∈ quotedChars kept)⟩ = keptItem kept c := by
  have hstar : 0x2A ∈ quotedChars kept ↔ 0x2A ∉ kept := mem_quotedChars_iff (b := 0x2A) rfl
  have hone : 0x3F ∈ quotedChars kept ↔ 0x3F ∉ kept := mem_quotedChars_iff (b := 0x3F) rfl
  simp only [Mark.item, Mark.mk.injEq, decide_eq_false_iff_not, keptItem]
  by_cases hc : c = 0x2A
  · subst hc
    simp [hstar]
  · by_cases hc' : c = 0x3F
    · subst hc'
      simp [hone]
    · simp [hc, hc']

theorem escape_eq (hname : 0 ∉ name) (hkept : 0 ∉ kept) :
    escape name kept = name.flatMap (escapeByte kept) := by
  rw [escape, Bytes.untilNul_eq_self hname, Bytes.untilNul_eq_self hkept]

/-- A name without backticks is escaped so that each of its characters makes one item. -/
theorem parse_flatMap_escapeByte (hquote : quote ∉ name) (hlist : 0x5B ∉ kept) :
    Pattern.parse (name.flatMap (escapeByte kept)) = .ok ((Utf8.codePoints name).map (keptItem kept)) := by
  have hplain : backtick ∉ Utf8.codePoints name := by
    show Utf8.charOf quote ∉ Utf8.codePoints name
    rwa [Utf8.charOf_mem_codePoints_iff (by decide)]
  have hmarks : Mark.pair (Utf8.codePoints (name.flatMap (escapeByte kept))) =
      (Utf8.codePoints name).map fun c => ⟨c, decide (c ∈ quotedChars kept)⟩ := by
    rw [pair_codePoints_escaped, escapedMarks_of_not_mem hplain]
  have hne : name.flatMap (escapeByte kept) ≠ [quote] := by
    intro h
    rw [eq_of_flatMap_escapeByte h] at hquote
    exact hquote List.mem_cons_self
  have hopen : ⟨0x5B, false⟩ ∉ Mark.pair (Utf8.codePoints (name.flatMap (escapeByte kept))) := by
    rw [hmarks, List.mem_map]
    rintro ⟨c, -, hc⟩
    rw [Mark.mk.injEq, decide_eq_false_iff_not] at hc
    obtain ⟨rfl, hfree⟩ := hc
    exact hfree ((mem_quotedChars_iff (b := 0x5B) rfl).mpr hlist)
  rw [Pattern.parse_of_no_list hne hopen, hmarks, List.map_map]
  congr 1
  exact List.map_congr_left fun c _ => item_escaped kept c

theorem keptItem_nil (c : CodePoint) : keptItem [] c = .literal c := by
  simp [keptItem]

/-- In a name without backticks the kept wildcards are active, and every other character stands for itself.
When none are kept, the escaped name is a pattern of that name only. -/
theorem escape_activates_kept (name kept : Bytes) (hname : 0 ∉ name) (hquote : quote ∉ name)
    (hkept : 0 ∉ kept) (hlist : 0x5B ∉ kept) :
    (Pattern.parse (escape name kept) = .ok ((Utf8.codePoints name).map (keptItem kept)) ∧
      ∀ options, Pattern.trace (escape name kept) options =
        .start (escape name kept) options ::
          ((Utf8.codePoints name).map (keptItem kept)).flatMap Item.events ++ [.finish]) ∧
      (∀ locale, ∃ g, Glob.compile (escape name []) .none locale = .ok g ∧
        ∀ text, g.accepts text = true ↔ Utf8.codePoints text = Utf8.codePoints name) ∧
      ∀ options locale, ∃ g, Glob.compile (escape name []) options locale = .ok g ∧
        g.accepts name = true := by
  have hparse : Pattern.parse (escape name kept) = .ok ((Utf8.codePoints name).map (keptItem kept)) := by
    rw [escape_eq hname hkept, parse_flatMap_escapeByte hquote hlist]
  have hliteral : Pattern.parse (escape name []) = .ok ((Utf8.codePoints name).map .literal) := by
    rw [escape_eq hname List.not_mem_nil, parse_flatMap_escapeByte hquote List.not_mem_nil,
      List.map_congr_left fun c _ => keptItem_nil c]
  have hcompile : ∀ options locale, ∃ g, Glob.compile (escape name []) options locale = .ok g ∧
      ∀ text, g.accepts text = true ↔ (Utf8.codePoints text).map (CaseRule.of options locale).fold =
        (Utf8.codePoints name).map (CaseRule.of options locale).fold := by
    intro options locale
    obtain ⟨g, hmade, haccepts⟩ := Glob.compile_of_parse hliteral options locale
    exact ⟨g, hmade, fun text => (haccepts text).trans Item.accepts_literals_iff⟩
  refine ⟨⟨hparse, Pattern.trace_of_parse hparse⟩, fun locale => ?_, fun options locale => ?_⟩
  · obtain ⟨g, hmade, haccepts⟩ := hcompile .none locale
    have hfold : (CaseRule.of .none locale).fold = id :=
      funext (CaseRule.fold_of_not_ignoreCase Options.ignoreCase_none)
    refine ⟨g, hmade, fun text => ?_⟩
    rw [haccepts, hfold, List.map_id, List.map_id]
  · obtain ⟨g, hmade, haccepts⟩ := hcompile options locale
    exact ⟨g, hmade, (haccepts name).mpr rfl⟩

/-- The name `ä*?]`, of which the star is kept. -/
theorem escape_activates_kept_star :
    (Pattern.parse [0xC3, 0xA4, 0x2A, 0x60, 0x3F, 0x60, 0x5D] =
        .ok [.literal 0xE4, .anySequence, .literal 0x3F, .literal 0x5D] ∧
      ∀ options, Pattern.trace [0xC3, 0xA4, 0x2A, 0x60, 0x3F, 0x60, 0x5D] options =
        [.start [0xC3, 0xA4, 0x2A, 0x60, 0x3F, 0x60, 0x5D] options,
          .literal 0xE4, .anySequence, .literal 0x3F, .literal 0x5D, .finish]) ∧
      (∀ locale, ∃ g,
        Glob.compile [0xC3, 0xA4, 0x60, 0x2A, 0x60, 0x3F, 0x60, 0x5D] .none locale = .ok g ∧
          ∀ text, g.accepts text = true ↔ Utf8.codePoints text = [0xE4, 0x2A, 0x3F, 0x5D]) ∧
      ∀ options locale, ∃ g,
        Glob.compile [0xC3, 0xA4, 0x60, 0x2A, 0x60, 0x3F, 0x60, 0x5D] options locale = .ok g ∧
          g.accepts [0xC3, 0xA4, 0x2A, 0x3F, 0x5D] = true := by
  have hcodes : Utf8.codePoints [0xC3, 0xA4, 0x2A, 0x3F, 0x5D] = [0xE4, 0x2A, 0x3F, 0x5D] := by
    decide +kernel
  have h := escape_activates_kept [0xC3, 0xA4, 0x2A, 0x3F, 0x5D] [0x2A]
    (by decide) (by decide) (by decide) (by decide)
  rw [hcodes] at h
  exact h

/-! ### Names with backticks -/

/-- Each backtick ends the name or stands before a `]`. -/
def BackticksStand (cs : List CodePoint) : Prop :=
  cs.IsChain fun c d => c = backtick → d = 0x5D

instance (cs : List CodePoint) : Decidable (BackticksStand cs) :=
  inferInstanceAs (Decidable (List.IsChain _ cs))

theorem backticksStand_cons_iff (h : c ≠ backtick) : BackticksStand (c :: cs) ↔ BackticksStand cs := by
  simp [BackticksStand, List.isChain_cons, h]

theorem backticksStand_backtick_cons_iff :
    BackticksStand (backtick :: d :: cs) ↔ d = 0x5D ∧ BackticksStand (d :: cs) := by
  simp [BackticksStand, List.isChain_cons_cons]

/-- Backticks are lost by escaping, and no characters are made. -/
theorem length_escapedMarks_le (kept : Bytes) (cs : List CodePoint) :
    (escapedMarks kept cs).length ≤ cs.length := by
  induction cs using List.twoStepInduction with
  | nil => exact Nat.le_refl 0
  | singleton c =>
    by_cases hc : c = backtick
    · rw [hc, escapedMarks_backtick]
      exact Nat.le_refl 1
    · rw [escapedMarks_cons hc]
      exact Nat.le_refl 1
  | cons_cons c d cs ih ih' =>
    by_cases hc : c = backtick
    · subst hc
      by_cases hd : d ∈ quotedChars kept
      · rw [escapedMarks_backtick_special hd]
        exact Nat.succ_le_succ (Nat.succ_le_succ ih)
      · rw [escapedMarks_backtick_plain hd]
        exact Nat.le_succ_of_le (Nat.succ_le_succ ih)
    · rw [escapedMarks_cons hc]
      exact Nat.succ_le_succ (ih' d)

theorem not_isWildcard_escaped (c : CodePoint) :
    ¬ Mark.IsWildcard ⟨c, decide (c ∈ quotedChars [])⟩ := by
  have hquoted : ∀ c ∈ Utf8.ascii "*?[", c ∈ quotedChars [] := by decide
  rintro ⟨hfree, hmem⟩
  exact of_decide_eq_false hfree (hquoted c hmem)

/-- Where the backticks of a name stand well, its marks are its characters, and none is a wildcard. -/
theorem escapedMarks_of_backticksStand (h : BackticksStand cs) :
    (escapedMarks [] cs).map Mark.char = cs ∧ ∀ m ∈ escapedMarks [] cs, ¬ m.IsWildcard := by
  induction cs using List.twoStepInduction with
  | nil => exact ⟨rfl, List.forall_mem_nil _⟩
  | singleton c =>
    by_cases hc : c = backtick
    · rw [hc, escapedMarks_backtick]
      exact ⟨rfl, List.forall_mem_singleton.mpr (not_isWildcard_quoted _)⟩
    · rw [escapedMarks_cons hc]
      exact ⟨rfl, List.forall_mem_singleton.mpr (not_isWildcard_escaped c)⟩
  | cons_cons c d cs ih ih' =>
    by_cases hc : c = backtick
    · subst hc
      obtain ⟨rfl, hrest⟩ := backticksStand_backtick_cons_iff.mp h
      obtain ⟨hchars, hplain⟩ := ih ((backticksStand_cons_iff (by decide)).mp hrest)
      rw [escapedMarks_backtick_special (by decide), List.map_cons, List.map_cons, hchars]
      refine ⟨rfl, List.forall_mem_cons.mpr ⟨not_isWildcard_quoted _, List.forall_mem_cons.mpr ⟨?_, hplain⟩⟩⟩
      exact fun hwildcard => absurd hwildcard.2 (by decide)
    · obtain ⟨hchars, hplain⟩ := ih' d ((backticksStand_cons_iff hc).mp h)
      rw [escapedMarks_cons hc, List.map_cons, hchars]
      exact ⟨rfl, List.forall_mem_cons.mpr ⟨not_isWildcard_escaped c, hplain⟩⟩

/-- A backtick that stands elsewhere is lost, or sets a wildcard free. -/
theorem backticksStand_of_escapedMarks (hlength : cs.length ≤ (escapedMarks [] cs).length)
    (hplain : ∀ m ∈ escapedMarks [] cs, ¬ m.IsWildcard) : BackticksStand cs := by
  induction cs using List.twoStepInduction with
  | nil => exact .nil
  | singleton c => exact .singleton c
  | cons_cons c d cs ih ih' =>
    by_cases hc : c = backtick
    · subst hc
      by_cases hd : d ∈ quotedChars []
      · rw [escapedMarks_backtick_special hd] at hlength hplain
        simp only [List.forall_mem_cons] at hplain
        obtain ⟨-, hfree, hplain⟩ := hplain
        have hstand := ih (Nat.le_of_succ_le_succ (Nat.le_of_succ_le_succ hlength)) hplain
        have hclose : d = 0x5D := by
          have hspecial : ∀ d ∈ quotedChars [], d ∈ Utf8.ascii "*?[" ∨ d = 0x5D := by decide
          exact (hspecial d hd).resolve_left fun hmem => hfree ⟨rfl, hmem⟩
        subst hclose
        exact backticksStand_backtick_cons_iff.mpr ⟨rfl, (backticksStand_cons_iff (by decide)).mpr hstand⟩
      · -- The backtick is lost, and no later character makes up for it.
        rw [escapedMarks_backtick_plain hd, List.length_cons, List.length_cons, List.length_cons] at hlength
        have hle := length_escapedMarks_le [] cs
        omega
    · rw [escapedMarks_cons hc] at hlength hplain
      rw [backticksStand_cons_iff hc]
      exact ih' d (Nat.le_of_succ_le_succ hlength) (List.forall_mem_cons.mp hplain).2

theorem zero_not_mem_escape (hname : 0 ∉ name) (kept : Bytes) : 0 ∉ name.flatMap (escapeByte kept) := by
  rw [List.mem_flatMap]
  rintro ⟨b, hb, hzero⟩
  have hne : b ≠ 0 := fun heq => hname (heq ▸ hb)
  rw [escapeByte] at hzero
  split at hzero <;> simp [quote, hne.symm] at hzero

theorem hasWildcards_escape_iff (hname : 0 ∉ name) :
    hasWildcards (escape name []) = false ↔
      ∀ m ∈ escapedMarks [] (Utf8.codePoints name), ¬ m.IsWildcard := by
  rw [escape_eq hname List.not_mem_nil, hasWildcards_eq_false_iff (zero_not_mem_escape hname []),
    pair_codePoints_escaped]

/-- The escaped name is a pattern without wildcards that matches the name. -/
structure Harmless (name : Bytes) (options : Options) (locale : Locale) : Prop where
  noWildcards : hasWildcards (escape name []) = false
  accepted : ∃ g, Glob.compile (escape name []) options locale = .ok g ∧ g.accepts name = true

theorem parse_escape_of_no_wildcard (hname : 0 ∉ name) (hne : name ≠ [quote])
    (h : ∀ m ∈ escapedMarks [] (Utf8.codePoints name), ¬ m.IsWildcard) :
    Pattern.parse (escape name []) =
      .ok (((escapedMarks [] (Utf8.codePoints name)).map Mark.char).map .literal) := by
  rw [escape_eq hname List.not_mem_nil, ← pair_codePoints_escaped]
  rw [← pair_codePoints_escaped] at h
  exact Pattern.parse_of_no_wildcard (mt eq_of_flatMap_escapeByte hne) h

/-- The single backtick is left as it is, and as a pattern it is empty. -/
theorem not_harmless_quote (options : Options) (locale : Locale) : ¬ Harmless [quote] options locale := by
  rintro ⟨-, g, hmade, haccepted⟩
  have hparse : Pattern.parse (escape [quote] []) = .ok [] := by decide +kernel
  rw [Glob.accepts_iff_of_parse hparse hmade, Item.accepts_nil_iff] at haccepted
  exact absurd haccepted (by decide +kernel)

/-- A name other than the single backtick is escaped into a harmless pattern of itself when each of its
backticks ends it or stands before a `]`, and only then. -/
theorem harmless_iff (hname : 0 ∉ name) (options : Options) (locale : Locale) :
    Harmless name options locale ↔ name ≠ [quote] ∧ BackticksStand (Utf8.codePoints name) := by
  by_cases hne : name = [quote]
  · subst hne
    exact iff_of_false (not_harmless_quote options locale) fun h => h.1 rfl
  constructor
  · rintro ⟨hplain, g, hmade, haccepted⟩
    rw [hasWildcards_escape_iff hname] at hplain
    rw [Glob.accepts_iff_of_parse (parse_escape_of_no_wildcard hname hne hplain) hmade,
      Item.accepts_literals_iff] at haccepted
    -- A text is as long as the literals that match it, so no backtick was lost.
    have hlength := congrArg List.length haccepted
    simp only [List.length_map] at hlength
    exact ⟨hne, backticksStand_of_escapedMarks hlength.le hplain⟩
  · rintro ⟨-, hstand⟩
    obtain ⟨hchars, hplain⟩ := escapedMarks_of_backticksStand hstand
    have hparse := parse_escape_of_no_wildcard hname hne hplain
    rw [hchars] at hparse
    obtain ⟨g, hmade, haccepts⟩ := Glob.compile_of_parse hparse options locale
    refine ⟨(hasWildcards_escape_iff hname).mpr hplain, g, hmade, ?_⟩
    exact (haccepts name).mpr (Item.accepts_literals_iff.mpr rfl)

/-- A name whose backticks stand before a `]` and at the end, and one that loses the backtick before its `a`. -/
theorem harmless_iff_closing :
    (escape [0x60, 0x5D, 0x2A, 0x60] [] = [0x60, 0x60, 0x5D, 0x60, 0x2A, 0x60] ∧
        Harmless [0x60, 0x5D, 0x2A, 0x60] .none .classic) ∧
      escape [0x60, 0x61] [] = [0x60, 0x61] ∧ ¬ Harmless [0x60, 0x61] .none .classic := by
  refine ⟨⟨by decide, ?_⟩, by decide, ?_⟩
  · rw [harmless_iff (by decide)]
    exact ⟨by decide, by decide +kernel⟩
  · rw [harmless_iff (by decide)]
    exact fun h => absurd h.2 (by decide +kernel)

/-- A backtick before a `[` quotes the one that is put there, and the bracket opens a list. -/
theorem not_harmless_open :
    (0 : UInt8) ∉ [0x60, 0x5B] ∧ escape [0x60, 0x5B] [] = [0x60, 0x60, 0x5B] ∧
      hasWildcards [0x60, 0x60, 0x5B] = true ∧
      Glob.compile [0x60, 0x60, 0x5B] .none .classic =
        .error ⟨.unclosedList, [0x60, 0x60, 0x5B], 2⟩ ∧
      ¬ Harmless [0x60, 0x5B] .none .classic := by
  refine ⟨by decide, by decide, by decide, ?_, fun h => ?_⟩
  · have hparse : Pattern.parse [0x60, 0x60, 0x5B] = .error ⟨.unclosedList, [0x60, 0x60, 0x5B], 2⟩ := by
      decide +kernel
    rw [Glob.compile, if_neg (by decide), Automaton.compile, hparse]
  · exact absurd h.noWildcards (by decide)

end Escape

end NameGlob
