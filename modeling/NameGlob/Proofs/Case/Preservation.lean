import NameGlob.Proofs.Case.Independence
import NameGlob.Proofs.Text.RoundTrip

/-!
# Matches that ignoring case keeps

A literal is folded as the text is, so ignoring case keeps what it takes. A range is kept as it is written,
and a character is looked up in it in two forms: in lower case, and in the upper case form of that. Under a
locale whose maps do not lead back to the character, a range that holds the character may hold neither.
-/

namespace NameGlob

namespace CaseRule

variable {rule exact : CaseRule} {lo hi c : CodePoint}

/-- When the character lies in the range, so does one of the forms in which it is looked up. -/
def Keeps (rule : CaseRule) (lo hi c : CodePoint) : Prop :=
  lo ≤ c → c ≤ hi → ∃ x, rule.LookedUpAs c x ∧ lo ≤ x ∧ x ≤ hi

theorem keeps_of_lookedUpAs (h : rule.LookedUpAs c c) : rule.Keeps lo hi c :=
  fun hlo hhi => ⟨c, h, hlo, hhi⟩

/-- The rule that takes every character to the letter. -/
def heeded : CaseRule := .of .none .classic

theorem ignoreCase_heeded : heeded.ignoreCase = false := rfl

/-- A value that is no code point is always looked up as itself. -/
theorem lookedUpAs_of_not_isCodePoint (h : ¬ Utf8.IsCodePoint c) : rule.LookedUpAs c c := by
  have hrange : c < 0 ∨ Utf8.maxCodePoint < c := by
    unfold Utf8.IsCodePoint at h
    unfold CodePoint at *
    omega
  refine .inl ?_
  rw [fold]
  split
  · rfl
  · split
    · exact (Case.lower_of_not_codePoint hrange).symm
    · rw [viaLocale, if_pos hrange]

end CaseRule

namespace Item

variable {rule exact : CaseRule} {item : Item} {items : List Item} {text segment : List CodePoint}

/-- What an item takes to the letter it takes under any rule that keeps the characters in its ranges. -/
theorem takes_of_takes_exact (hexact : exact.ignoreCase = false)
    (hkeeps : ∀ members lo hi, item = .oneOf members → .range lo hi ∈ members →
      ∀ c ∈ segment, rule.Keeps lo hi c)
    (h : item.Takes exact segment) : item.Takes rule segment := by
  cases item with
  | literal l =>
    obtain ⟨c, rfl, hc⟩ := h
    rw [CaseRule.fold_of_not_ignoreCase hexact, CaseRule.fold_of_not_ignoreCase hexact] at hc
    exact ⟨c, rfl, by rw [hc]⟩
  | anyOne => exact h
  | anySequence => trivial
  | oneOf members =>
    obtain ⟨c, rfl, x, hx, m, hm, hadmits⟩ := h
    obtain rfl : x = c := by simpa [CaseRule.LookedUpAs, hexact] using hx
    refine ⟨x, rfl, ?_⟩
    cases m with
    | single l =>
      -- the member is folded as the text is
      rw [Member.Admits, CaseRule.fold_of_not_ignoreCase hexact] at hadmits
      exact ⟨rule.fold x, .inl rfl, .single l, hm, by rw [Member.Admits, hadmits]⟩
    | range lo hi =>
      obtain ⟨y, hy, hin⟩ :=
        hkeeps members lo hi rfl hm x (List.mem_singleton_self x) hadmits.1 hadmits.2
      exact ⟨y, hy, .range lo hi, hm, hin⟩

/-- What items accept to the letter they accept under any rule that keeps the characters of the text in
their ranges. -/
theorem accepts_of_accepts_exact (hexact : exact.ignoreCase = false)
    (hkeeps : ∀ members lo hi, .oneOf members ∈ items → .range lo hi ∈ members →
      ∀ c ∈ text, rule.Keeps lo hi c)
    (h : Accepts exact items text) : Accepts rule items text := by
  refine h.imp fun item hitem segment hsub => takes_of_takes_exact hexact ?_
  rintro members lo hi rfl hrange c hc
  exact hkeeps members lo hi hitem hrange c (hsub hc)

/-- The rules that heed case are all alike. -/
theorem accepts_iff_heeded (hexact : exact.ignoreCase = false) :
    Accepts exact items text ↔ Accepts .heeded items text :=
  Accepts.alike (.of_not_ignoreCase hexact CaseRule.ignoreCase_heeded)

end Item

namespace Pattern

/-- The pattern of a bracket list with a range from `c` to `c`. The bounds are quoted. -/
def rangeOf (c : CodePoint) : Bytes :=
  Utf8.encodeAll [0x5B, backtick, c, 0x2D, backtick, c, 0x5D]

theorem parse_rangeOf {c : CodePoint} (h : Utf8.IsCodePoint c) :
    parse (rangeOf c) = .ok [.oneOf [.range c c]] := by
  have hfixed : Utf8.IsCodePoint 0x5B ∧ Utf8.IsCodePoint backtick ∧ Utf8.IsCodePoint 0x2D ∧
      Utf8.IsCodePoint 0x5D := by decide
  have hchars : ∀ d ∈ [0x5B, backtick, c, 0x2D, backtick, c, 0x5D], Utf8.IsCodePoint d := by
    simp [h, hfixed]
  have hne : rangeOf c ≠ [0x60] := by
    have hopen : Utf8.encode 0x5B = [0x5B] := by decide
    rw [rangeOf, Utf8.encodeAll_cons, hopen]
    intro heq
    exact absurd (List.cons.inj heq).1 (by decide)
  have hsymbols : ∃ i j k l m, Symbol.ofPattern (rangeOf c) =
      [⟨0x5B, false, i⟩, ⟨c, true, j⟩, ⟨0x2D, false, k⟩, ⟨c, true, l⟩, ⟨0x5D, false, m⟩] := by
    rw [Symbol.ofPattern, if_neg hne, rangeOf, Utf8.chars_encodeAll hchars]
    simp [Symbol.locate, Symbol.pair, backtick]
  obtain ⟨i, j, k, l, m, hsymbols⟩ := hsymbols
  rw [parse_eq_ok_iff, read, hsymbols]
  simp [readSymbols, readMembers, Symbol.isPlain, Reading.cons, MemberReading.cons, Reading.done]

end Pattern

namespace Automaton

variable {pattern : Bytes} {items : List Item} {options exact : Options} {locale other : Locale}

/-- A pattern accepts, under any rule that keeps the characters of a text in the ranges of the pattern,
what it accepts to the letter. -/
theorem accepts_ofItems_of_exact {rule letter : CaseRule} (h : Pattern.parse pattern = .ok items)
    (hletter : letter.ignoreCase = false) {text : Bytes}
    (hkeeps : ∀ members lo hi, .oneOf members ∈ items → .range lo hi ∈ members →
      ∀ c ∈ Utf8.codePoints text, rule.Keeps lo hi c)
    (haccepts : (ofItems letter items).accepts text = true) :
    (ofItems rule items).accepts text = true :=
  (runOn_ofItems_iff h Scratch.balanced_fresh).mpr
    (Item.accepts_of_accepts_exact hletter hkeeps
      ((runOn_ofItems_iff h Scratch.balanced_fresh).mp haccepts))

theorem exists_parse_of_compile {a : Automaton} (h : compile pattern options locale = .ok a) :
    ∃ items, Pattern.parse pattern = .ok items ∧ a = ofItems (.of options locale) items := by
  rw [compile] at h
  split at h
  · rename_i items hparse
    exact ⟨items, hparse, (Except.ok.inj h).symm⟩
  · simp at h

/-- The range from a code point to itself accepts that code point when it is looked up as itself, and
only then. -/
theorem accepts_rangeOf_iff {rule : CaseRule} {c : CodePoint} (h : Utf8.IsCodePoint c) :
    (ofItems rule [.oneOf [.range c c]]).accepts (Utf8.encode c) = true ↔ rule.LookedUpAs c c := by
  have htext : Utf8.codePoints (Utf8.encode c) = [c] := by
    simpa using Utf8.codePoints_encode_append h []
  refine (runOn_ofItems_iff (Pattern.parse_rangeOf h) Scratch.balanced_fresh).trans ?_
  rw [htext, Item.accepts_singleton_iff]
  constructor
  · rintro ⟨d, hd, x, hx, m, hm, hadmits⟩
    obtain rfl := List.singleton_inj.mp hd
    obtain rfl := List.mem_singleton.mp hm
    rwa [Int.le_antisymm hadmits.2 hadmits.1] at hx
  · intro hself
    exact ⟨c, rfl, c, hself, _, List.mem_singleton_self _, Int.le_refl c, Int.le_refl c⟩

/-- A pattern accepts, when case is ignored, every text that it accepts when case is heeded, unless one of
its ranges loses a character of the text. No pattern loses a text exactly when the locale looks up every
code point as itself, that is when lower case leaves it as it is or upper case leads back to it. -/
theorem ignoring_case_keeps_iff (options : Options) (locale : Locale) (hexact : exact.ignoreCase = false) :
    (∀ pattern items, Pattern.parse pattern = .ok items →
      ∃ a b, compile pattern exact other = .ok a ∧ compile pattern options locale = .ok b ∧
        ∀ text : Bytes, a.accepts text = true →
          (∀ members lo hi, .oneOf members ∈ items → .range lo hi ∈ members →
            ∀ c ∈ Utf8.codePoints text, (CaseRule.of options locale).Keeps lo hi c) →
          b.accepts text = true) ∧
    ((∀ pattern a b, compile pattern exact other = .ok a → compile pattern options locale = .ok b →
        ∀ text : Bytes, a.accepts text = true → b.accepts text = true) ↔
      ∀ c, Utf8.IsCodePoint c → (CaseRule.of options locale).LookedUpAs c c) := by
  have hletter : (CaseRule.of exact other).ignoreCase = false := hexact
  refine ⟨fun pattern items h => ?_, ?_, ?_⟩
  · exact ⟨_, _, compile_eq_ok h exact other, compile_eq_ok h options locale,
      fun text haccepts hkeeps => accepts_ofItems_of_exact h hletter hkeeps haccepts⟩
  · intro hall c hc
    have hparse := Pattern.parse_rangeOf hc
    refine (accepts_rangeOf_iff hc).mp
      (hall _ _ _ (compile_eq_ok hparse exact other) (compile_eq_ok hparse options locale) _ ?_)
    exact (accepts_rangeOf_iff hc).mpr (.inl (CaseRule.fold_of_not_ignoreCase hletter c).symm)
  · intro hself pattern a b ha hb text haccepts
    obtain ⟨items, hparse, rfl⟩ := exists_parse_of_compile ha
    obtain rfl := Except.ok.inj (hb.symm.trans (compile_eq_ok hparse options locale))
    refine accepts_ofItems_of_exact hparse hletter ?_ haccepts
    intro members lo hi _ _ c _
    by_cases hc : Utf8.IsCodePoint c
    · exact CaseRule.keeps_of_lookedUpAs (hself c hc)
    · exact CaseRule.keeps_of_lookedUpAs (CaseRule.lookedUpAs_of_not_isCodePoint hc)

/-- A locale with a dotless `ı` finds the letter `I` in the range `H-J`. -/
theorem ignoring_case_keeps_iff_dotless :
    Options.none.ignoreCase = false ∧
      ∃ a b, compile (Bytes.ascii "[H-J]") .none .classic = .ok a ∧
        compile (Bytes.ascii "[H-J]") (.ofFlags true false)
          (.ofPairs [(0x49, 0x131)] [(0x131, 0x49)]) = .ok b ∧
        a.accepts (Bytes.ascii "I") = true ∧ b.accepts (Bytes.ascii "I") = true := by
  have h : Pattern.parse (Bytes.ascii "[H-J]") = .ok [.oneOf [.range 0x48 0x4A]] := by
    decide +kernel
  obtain ⟨a, b, ha, hb, hkept⟩ := (@ignoring_case_keeps_iff .none .classic (.ofFlags true false)
    (.ofPairs [(0x49, 0x131)] [(0x131, 0x49)]) Options.ignoreCase_none).1 _ _ h
  have haccepts : a.accepts (Bytes.ascii "I") = true := by
    obtain rfl := Except.ok.inj (ha.symm.trans (compile_eq_ok h .none .classic))
    decide +kernel
  refine ⟨Options.ignoreCase_none, a, b, ha, hb, haccepts, hkept _ haccepts ?_⟩
  intro members lo hi hmembers hrange c hc
  have htext : Utf8.codePoints (Bytes.ascii "I") = [0x49] := by decide +kernel
  rw [htext, List.mem_singleton] at hc
  subst hc
  exact CaseRule.keeps_of_lookedUpAs (.inr ⟨by decide, by decide +kernel⟩)

/-- A locale that maps the Kelvin sign to `k`, and nothing else. -/
def kelvinLocale : Locale := .ofPairs [(0x212A, 0x6B)] []

/-- The range from the Kelvin sign to the Angstrom sign loses the Kelvin sign: it is looked up as `k` and
as `K`. -/
theorem ignoring_case_loses_kelvin_sign :
    ∃ a b, compile [0x5B, 0xE2, 0x84, 0xAA, 0x2D, 0xE2, 0x84, 0xAB, 0x5D] .none kelvinLocale = .ok a ∧
      compile [0x5B, 0xE2, 0x84, 0xAA, 0x2D, 0xE2, 0x84, 0xAB, 0x5D] (.ofFlags true false)
        kelvinLocale = .ok b ∧
      a.accepts [0xE2, 0x84, 0xAA] = true ∧ b.accepts [0xE2, 0x84, 0xAA] = false := by
  have h : Pattern.parse [0x5B, 0xE2, 0x84, 0xAA, 0x2D, 0xE2, 0x84, 0xAB, 0x5D] =
      .ok [.oneOf [.range 0x212A 0x212B]] := by decide +kernel
  refine ⟨_, _, compile_eq_ok h .none kelvinLocale, compile_eq_ok h (.ofFlags true false) kelvinLocale,
    ?_, ?_⟩
  · decide +kernel
  · decide +kernel

end Automaton

end NameGlob
