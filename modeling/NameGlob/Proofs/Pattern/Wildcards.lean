import Mathlib.Data.Set.List
import NameGlob.Proofs.Glob.Agreement
import NameGlob.Proofs.Pattern.Quoting

/-!
# Wildcards of a pattern

A plain `[` opens a bracket list or stands in one, so it never goes without a list, or without a fault. The
other wildcards outside lists make items of their own. So a pattern is read as literals only exactly when none
of its marks is a wildcard, and the scan for wildcards, which looks at the bytes alone, tells these patterns
from the others. A pattern of literals matches the texts of its characters and no others.
-/

namespace NameGlob

/-- The step begins an item that is no literal. -/
def Event.IsWildcard : Event → Prop
  | .anySequence | .anyOne | .listStart => True
  | _ => False

theorem Reading.cons_eq_iff {item : Item} {items : List Item} {r : Reading} :
    r.cons item = ⟨items, none⟩ ↔ ∃ rest, r = ⟨rest, none⟩ ∧ items = item :: rest := by
  constructor
  · intro h
    obtain ⟨hitems, hfault⟩ := Reading.mk.inj h
    exact ⟨r.items, by rw [← hfault], hitems.symm⟩
  · rintro ⟨rest, rfl, rfl⟩
    rfl

/-- The marks of the symbols are those of the characters, as far as they are not quoted. The backtick that is
a pattern alone makes no symbol, but its mark is quoted. -/
theorem Symbol.mem_map_mark_ofPattern_iff {pattern : Bytes} {m : Mark} (h : m.quoted = false) :
    m ∈ (ofPattern pattern).map mark ↔ m ∈ Mark.pair (Utf8.codePoints pattern) := by
  by_cases hne : pattern = [0x60]
  · subst hne
    have hmarks : Mark.pair (Utf8.codePoints [0x60]) = [⟨0x60, true⟩] := by decide +kernel
    rw [hmarks, List.mem_singleton]
    refine iff_of_false List.not_mem_nil ?_
    rintro rfl
    exact Bool.noConfusion h
  · rw [map_mark_ofPattern hne]

namespace Pattern

variable {pattern : Bytes} {items : List Item} {symbols : List Symbol}

theorem itemOf_ne_oneOf (s : Symbol) (members : List Member) : itemOf s ≠ .oneOf members := by
  unfold itemOf
  split
  · exact Item.noConfusion
  · split <;> exact Item.noConfusion

/-- An open list ends in an item or in a fault. -/
theorem exists_oneOf_of_open {list : OpenList} (h : readSymbols (some list) symbols = ⟨items, none⟩) :
    ∃ members, .oneOf members ∈ items := by
  induction symbols generalizing list with
  | nil => cases h
  | cons s rest ih =>
    rw [readSymbols] at h
    split at h
    · -- the list is closed here, and is an item unless a range in it is inverted
      dsimp only at h
      split at h
      · cases h
      · obtain ⟨behind, -, rfl⟩ := Reading.cons_eq_iff.mp h
        exact ⟨_, List.mem_cons_self⟩
    · exact ih h

/-- The first plain `[` opens a list. -/
theorem exists_oneOf_iff (h : readSymbols none symbols = ⟨items, none⟩) :
    (∃ members, .oneOf members ∈ items) ↔ ⟨0x5B, false⟩ ∈ symbols.map Symbol.mark := by
  induction symbols generalizing items with
  | nil =>
    cases h
    simp
  | cons s rest ih =>
    rw [List.map_cons, List.mem_cons]
    rw [readSymbols] at h
    split at h
    · rename_i hopen
      exact iff_of_true (exists_oneOf_of_open h) (.inl ((s.isPlain_iff 0x5B).mp hopen).symm)
    · rename_i hopen
      obtain ⟨behind, hrest, rfl⟩ := Reading.cons_eq_iff.mp h
      have hmark : (⟨0x5B, false⟩ : Mark) ≠ s.mark := fun heq => hopen ((s.isPlain_iff 0x5B).mpr heq.symm)
      rw [or_iff_right hmark, ← ih hrest]
      refine exists_congr fun members => ?_
      rw [List.mem_cons, or_iff_right (itemOf_ne_oneOf s members).symm]

/-- A pattern without a fault has a bracket list exactly when a plain `[` stands in it. -/
theorem exists_oneOf_of_parse_iff (h : parse pattern = .ok items) :
    (∃ members, .oneOf members ∈ items) ↔ ⟨0x5B, false⟩ ∈ Mark.pair (Utf8.codePoints pattern) := by
  rw [← Symbol.mem_map_mark_ofPattern_iff rfl]
  exact exists_oneOf_iff (parse_eq_ok_iff.mp h)

/-- A mark that opens no list is a literal or a wildcard. -/
theorem exists_item_eq_literal_iff {m : Mark} (h : m ≠ ⟨0x5B, false⟩) :
    (∃ c, m.item = .literal c) ↔ ¬ m.IsWildcard := by
  refine ⟨?_, fun hplain => ⟨m.char, Mark.item_of_not_isWildcard hplain⟩⟩
  rintro ⟨c, hitem⟩ ⟨hfree, hmem⟩
  obtain ⟨d, quoted⟩ := m
  obtain rfl : quoted = false := hfree
  have hchars : Utf8.ascii "*?[" = [0x2A, 0x3F, 0x5B] := by decide
  simp only [hchars, List.mem_cons, List.not_mem_nil, or_false] at hmem
  rcases hmem with rfl | rfl | rfl
  · exact Item.noConfusion hitem
  · exact Item.noConfusion hitem
  · exact h rfl

theorem readSymbols_literals_iff :
    (∃ items, readSymbols none symbols = ⟨items, none⟩ ∧ ∀ item ∈ items, ∃ c, item = .literal c) ↔
      ∀ m ∈ symbols.map Symbol.mark, ¬ m.IsWildcard := by
  constructor
  · rintro ⟨items, hread, hliteral⟩ m hm
    have hlist : ⟨0x5B, false⟩ ∉ symbols.map Symbol.mark := by
      rw [← exists_oneOf_iff hread]
      rintro ⟨members, hmem⟩
      obtain ⟨c, hc⟩ := hliteral _ hmem
      exact Item.noConfusion hc
    have hmark : m ≠ ⟨0x5B, false⟩ := fun heq => hlist (heq ▸ hm)
    rw [readSymbols_of_no_list hlist, Reading.mk.injEq] at hread
    obtain ⟨s, hs, rfl⟩ := List.mem_map.mp hm
    rw [← exists_item_eq_literal_iff hmark, ← itemOf_eq]
    exact hliteral _ (hread.1 ▸ List.mem_map_of_mem hs)
  · intro h
    have hlist : ⟨0x5B, false⟩ ∉ symbols.map Symbol.mark := fun hmem => h _ hmem ⟨rfl, by decide⟩
    refine ⟨_, readSymbols_of_no_list hlist, fun item hitem => ?_⟩
    obtain ⟨s, hs, rfl⟩ := List.mem_map.mp hitem
    exact ⟨_, (itemOf_eq s).trans (Mark.item_of_not_isWildcard (h _ (List.mem_map_of_mem hs)))⟩

/-- A pattern is read as literals only exactly when none of its marks is a wildcard. -/
theorem parse_literals_iff :
    (∃ items, parse pattern = .ok items ∧ ∀ item ∈ items, ∃ c, item = .literal c) ↔
      ∀ m ∈ Mark.pair (Utf8.codePoints pattern), ¬ m.IsWildcard := by
  have hmarks : (∀ m ∈ (Symbol.ofPattern pattern).map Symbol.mark, ¬ m.IsWildcard) ↔
      ∀ m ∈ Mark.pair (Utf8.codePoints pattern), ¬ m.IsWildcard := by
    refine forall_congr' fun m => ?_
    by_cases hquoted : m.quoted = false
    · rw [Symbol.mem_map_mark_ofPattern_iff hquoted]
    · have hplain : ¬ m.IsWildcard := fun h => hquoted h.1
      exact iff_of_true (fun _ => hplain) fun _ => hplain
  simp only [parse_eq_ok_iff, read]
  rw [readSymbols_literals_iff, hmarks]

theorem events_plain_iff (item : Item) :
    (∀ event ∈ item.events, ¬ event.IsWildcard) ↔ ∃ c, item = .literal c := by
  cases item <;> simp [Item.events, Event.IsWildcard]

/-- The account of a pattern has steps of wildcards exactly when an item is no literal. -/
theorem trace_plain_iff (h : parse pattern = .ok items) (options : Options) :
    (∀ event ∈ trace pattern options, ¬ event.IsWildcard) ↔ ∀ item ∈ items, ∃ c, item = .literal c := by
  have hstart : ¬ (Event.start pattern options).IsWildcard := id
  have hfinish : ∀ event ∈ [Event.finish], ¬ event.IsWildcard := List.forall_mem_singleton.mpr id
  rw [trace_of_parse h, List.forall_mem_append, and_iff_left hfinish, List.forall_mem_cons,
    and_iff_right hstart, List.forall_mem_flatMap]
  exact forall₂_congr fun item _ => events_plain_iff item

theorem trace_literals {cs : List CodePoint} (h : parse pattern = .ok (cs.map .literal)) (options : Options) :
    trace pattern options = .start pattern options :: cs.map .literal ++ [.finish] := by
  have hevents : (cs.map Item.literal).flatMap Item.events = cs.map Event.literal := by
    rw [List.flatMap_map, List.map_eq_flatMap]
    rfl
  rw [trace_of_parse h, hevents]

/-- The characters that a pattern is read as are the characters of a text. -/
theorem exists_text_of_literals {cs : List CodePoint} (h : parse pattern = .ok (cs.map .literal)) :
    ∃ text : Bytes, Utf8.codePoints text = cs := by
  have hsubset : cs ⊆ Utf8.codePoints pattern := by
    have hchars := characters_of_parse h
    rwa [List.flatMap_map, show (fun c => (Item.literal c).characters) = fun c => [c] from rfl,
      List.flatMap_singleton'] at hchars
  exact Utf8.exists_codePoints_eq fun c hc => Utf8.isCodePoint_of_mem_codePoints (hsubset hc)

end Pattern

/-- Without options, a pattern of literals matches the texts of its characters. -/
theorem Glob.compile_of_literals {pattern : Bytes} {cs : List CodePoint}
    (h : Pattern.parse pattern = .ok (cs.map .literal)) (locale : Locale) :
    ∃ g, compile pattern .none locale = .ok g ∧
      ∀ text, g.accepts text = true ↔ Utf8.codePoints text = cs := by
  obtain ⟨g, hmade, haccepts⟩ := compile_of_parse h .none locale
  have hfold : (CaseRule.of .none locale).fold = id :=
    funext (CaseRule.fold_of_not_ignoreCase Options.ignoreCase_none)
  refine ⟨g, hmade, fun text => ?_⟩
  rw [haccepts, Item.accepts_literals_iff, hfold, List.map_id, List.map_id]

namespace Escape

variable {pattern : Bytes}

/-- A pattern that the scan finds free of wildcards is read as literals. -/
theorem exists_parse_literals (hpattern : 0 ∉ pattern) (h : hasWildcards pattern = false) :
    ∃ cs : List CodePoint, Pattern.parse pattern = .ok (cs.map .literal) := by
  obtain ⟨items, hparse, hliteral⟩ :=
    Pattern.parse_literals_iff.mpr ((hasWildcards_eq_false_iff hpattern).mp h)
  obtain ⟨cs, rfl⟩ : items ∈ Set.range (List.map Item.literal) := by
    rw [Set.range_list_map]
    intro item hitem
    obtain ⟨c, rfl⟩ := hliteral item hitem
    exact ⟨c, rfl⟩
  exact ⟨cs, hparse⟩

/-- The scan finds no wildcard exactly in the patterns that are read without a fault and without steps of
wildcards. Such a pattern makes literals only, so it can be compiled under all options, and without options
it matches one sequence of characters. In a pattern with a fault the scan finds a wildcard. -/
theorem hasWildcards_agrees (hpattern : 0 ∉ pattern) (options : Options) :
    (hasWildcards pattern = false ↔
        (∃ items, Pattern.parse pattern = .ok items) ∧
          ∀ event ∈ Pattern.trace pattern options, ¬ event.IsWildcard) ∧
      (hasWildcards pattern = false → ∃ cs : List CodePoint,
        Pattern.trace pattern options = .start pattern options :: cs.map .literal ++ [.finish] ∧
          (∀ locale, ∃ g, Glob.compile pattern options locale = .ok g) ∧
          (∀ locale, ∃ g, Glob.compile pattern .none locale = .ok g ∧
            ∀ text, g.accepts text = true ↔ Utf8.codePoints text = cs) ∧
          ∃ text : Bytes, Utf8.codePoints text = cs) ∧
      ∀ e, Pattern.parse pattern = .error e → hasWildcards pattern = true := by
  have hiff : hasWildcards pattern = false ↔
      (∃ items, Pattern.parse pattern = .ok items) ∧
        ∀ event ∈ Pattern.trace pattern options, ¬ event.IsWildcard := by
    rw [hasWildcards_eq_false_iff hpattern, ← Pattern.parse_literals_iff]
    constructor
    · rintro ⟨items, hparse, hliteral⟩
      exact ⟨⟨items, hparse⟩, (Pattern.trace_plain_iff hparse options).mpr hliteral⟩
    · rintro ⟨⟨items, hparse⟩, hplain⟩
      exact ⟨items, hparse, (Pattern.trace_plain_iff hparse options).mp hplain⟩
  refine ⟨hiff, fun h => ?_, fun e herror => ?_⟩
  · obtain ⟨cs, hparse⟩ := exists_parse_literals hpattern h
    refine ⟨cs, Pattern.trace_literals hparse options, fun locale => ?_,
      Glob.compile_of_literals hparse, Pattern.exists_text_of_literals hparse⟩
    obtain ⟨g, hmade, -⟩ := Glob.compile_of_parse hparse options locale
    exact ⟨g, hmade⟩
  · by_contra hfound
    obtain ⟨⟨items, hparse⟩, -⟩ := hiff.mp (Bool.eq_false_iff.mpr hfound)
    cases herror.symm.trans hparse

/-- A quoted star, an `ä` and a last backtick. -/
theorem hasWildcards_agrees_quoted :
    (0 : UInt8) ∉ [0x60, 0x2A, 0xC3, 0xA4, 0x60] ∧ hasWildcards [0x60, 0x2A, 0xC3, 0xA4, 0x60] = false ∧
      ∃ g, Glob.compile [0x60, 0x2A, 0xC3, 0xA4, 0x60] .none .classic = .ok g ∧
        ∀ text, g.accepts text = true ↔ Utf8.codePoints text = [0x2A, 0xE4, 0x60] := by
  have hzero : (0 : UInt8) ∉ [0x60, 0x2A, 0xC3, 0xA4, 0x60] := by decide
  have hplain : hasWildcards [0x60, 0x2A, 0xC3, 0xA4, 0x60] = false := by decide
  obtain ⟨cs, htrace, -, hmatches, -⟩ := (hasWildcards_agrees hzero .none).2.1 hplain
  have hsteps : Pattern.trace [0x60, 0x2A, 0xC3, 0xA4, 0x60] .none =
      .start [0x60, 0x2A, 0xC3, 0xA4, 0x60] .none ::
        [0x2A, 0xE4, 0x60].map .literal ++ [.finish] := by
    decide +kernel
  have hchars : [0x2A, 0xE4, 0x60].map Event.literal = cs.map .literal :=
    List.append_cancel_right (List.cons.inj (hsteps.symm.trans htrace)).2
  obtain rfl := (List.map_inj_right fun _ _ => Event.literal.inj).mp hchars
  exact ⟨hzero, hplain, hmatches .classic⟩

end Escape

end NameGlob
