import NameGlob.Rendering.Basic
import NameGlob.Proofs.Case.Preservation
import NameGlob.Proofs.Pattern.Characters
import NameGlob.Proofs.Rendering.RegexReading

/-!
# Regular expressions match as their patterns do

The regular expression of a pattern is read back as the items of the pattern between two anchors. An
anchor that is left out was beside an item that takes any run of characters, and a search does without
both: it may begin and end anywhere. What is left out was written by such an item and not by others, as
another item writes `.` or `*` only behind a backslash or alone.
-/

namespace NameGlob

namespace Rendering.Regex

section Anchors

variable {items : List Item}

/-- A regular expression for items, with the anchors that are asked for. -/
def framed (atStart atEnd : Bool) (items : List Item) : List CodePoint :=
  (if atStart then [0x5E] else []) ++ items.flatMap item ++ (if atEnd then [0x24] else [])

theorem getLast?_itemTokens {d : CodePoint} (h : special.contains d = true)
    (hd : d ≠ 0x2E ∧ d ≠ 0x2A ∧ d ≠ 0x5D) (items : List Item) :
    (items.flatMap itemTokens).getLast? ≠ some ⟨d, false⟩ := by
  rcases List.eq_nil_or_concat items with rfl | ⟨front, i, rfl⟩
  · simp
  · cases i with
    | literal c => simpa [itemTokens] using charToken_ne h
    | anyOne => simpa [itemTokens] using Ne.symm hd.1
    | anySequence => simpa [itemTokens] using Ne.symm hd.2.1
    | oneOf members =>
      rw [List.concat_eq_append, List.flatMap_append, List.flatMap_singleton, itemTokens,
        ← List.append_assoc, List.getLast?_concat]
      simpa using Ne.symm hd.2.2

theorem takeStart_append {ts : List Token} (h : ts.head? ≠ some ⟨0x5E, false⟩) (b : Bool) :
    takeStart ((if b then [⟨0x5E, false⟩] else []) ++ ts) = (b, ts) := by
  cases b with
  | false => exact if_neg h
  | true => rfl

theorem takeEnd_append {ts : List Token} (h : ts.getLast? ≠ some ⟨0x24, false⟩) (b : Bool) :
    takeEnd (ts ++ if b then [⟨0x24, false⟩] else []) = (b, ts) := by
  cases b with
  | false => simpa [takeEnd] using h
  | true => simp [takeEnd]

theorem tokens_framed (atStart atEnd : Bool) (items : List Item) :
    tokens (framed atStart atEnd items) =
      (if atStart then [⟨0x5E, false⟩] else []) ++
        (items.flatMap itemTokens ++ if atEnd then [⟨0x24, false⟩] else []) := by
  have hbody : tokens (items.flatMap item ++ if atEnd then [0x24] else []) =
      items.flatMap itemTokens ++ if atEnd then [⟨0x24, false⟩] else [] := by
    rw [tokens_flatMap]
    cases atEnd <;> rfl
  rw [framed, List.append_assoc]
  cases atStart with
  | false => exact hbody
  | true => exact (tokens_plain (by decide) _).trans (congrArg _ hbody)

/-- A regular expression is read back as its items and its anchors. -/
theorem read_framed (atStart atEnd : Bool) (items : List Item) :
    read (framed atStart atEnd items) = some ⟨atStart, atEnd, items⟩ := by
  have hhead : (items.flatMap itemTokens ++ if atEnd then [Token.mk 0x24 false] else []).head? ≠
      some ⟨0x5E, false⟩ :=
    head?_itemTokens (by decide) (by decide) items (by cases atEnd <;> decide)
  have hlast := getLast?_itemTokens (d := 0x24) (by decide) (by decide) items
  simp only [read, tokens_framed, takeStart_append hhead, takeEnd_append hlast, readItems_flatMap,
    Option.map_some]

-- a `*` behind no `.` and a `[` in a list stand for themselves
example : read (Utf8.ascii "*[[a-c\\x2d]$") =
    some ⟨false, true, [.literal 0x2A, .oneOf [.single 0x5B, .range 0x61 0x63, .single 0x2D]]⟩ := by
  decide +kernel

/-- The regular expression with both anchors begins with `^.*` only when the first item takes any run of
characters. -/
theorem exists_cons_of_prefix {items : List Item} (h : Utf8.ascii "^.*" <+: anchored items) :
    ∃ rest, items = .anySequence :: rest := by
  have hascii : Utf8.ascii "^.*" = [0x5E, 0x2E, 0x2A] := by decide
  rw [hascii, anchored, List.cons_append, List.cons_prefix_cons] at h
  obtain ⟨behind, hsplit⟩ := h.2
  have htokens : ⟨0x2E, false⟩ :: ⟨0x2A, false⟩ :: tokens behind =
      items.flatMap itemTokens ++ [⟨0x24, false⟩] := by
    have hread := congrArg tokens hsplit
    rwa [List.cons_append, List.singleton_append, tokens_plain (by decide), tokens_plain (by decide),
      tokens_flatMap] at hread
  cases items with
  | nil => simp at htokens
  | cons i rest =>
    cases i with
    | anySequence => exact ⟨rest, rfl⟩
    | literal c =>
      -- a `.` that stands for itself is escaped
      have hdot := (List.cons.inj htokens).1
      exact absurd hdot.symm (charToken_ne (by decide))
    | anyOne =>
      have hstar := congrArg List.head? (List.cons.inj htokens).2
      exact absurd hstar.symm (head?_itemTokens (by decide) (by decide) rest (by decide))
    | oneOf members => exact absurd (List.cons.inj htokens).1 (by decide)

/-- The regular expression with both anchors ends with `.*$` only when the last item takes any run of
characters. -/
theorem exists_append_of_suffix {items : List Item} (h : Utf8.ascii ".*$" <:+ anchored items) :
    ∃ front, items = front ++ [.anySequence] := by
  have hascii : Utf8.ascii ".*$" = [0x2E, 0x2A] ++ [0x24] := by decide
  rw [hascii, anchored, ← List.reverse_prefix, List.reverse_append, List.reverse_append,
    List.reverse_singleton, List.singleton_append, List.singleton_append, List.cons_prefix_cons] at h
  have hstar := h.2
  rcases List.eq_nil_or_concat items with rfl | ⟨front, i, rfl⟩
  · simp at hstar
  · rw [List.concat_eq_append] at hstar ⊢
    rw [List.flatMap_append, List.flatMap_singleton] at hstar
    cases i with
    | anySequence => exact ⟨front, rfl⟩
    | literal c =>
      -- a `*` that stands for itself has a backslash in front of it, not a `.`
      simp only [item, char] at hstar
      split at hstar
      · simp at hstar
      · rename_i hplain
        rw [← List.cons_append, List.reverse_append] at hstar
        exact absurd (by rw [← (List.cons_prefix_cons.mp hstar).1]; decide) hplain
    | anyOne => simp [item] at hstar
    | oneOf members => simp [item] at hstar

end Anchors

variable {items : List Item} {text : List CodePoint}

/-- The items of a search take a part of the text that reaches to the anchored sides. -/
def Search.Finds (s : Search) (text : List CodePoint) : Prop :=
  ∃ front middle back, text = front ++ middle ++ back ∧ (s.atStart = true → front = []) ∧
    (s.atEnd = true → back = []) ∧ Item.Accepts .heeded s.items middle

/-- A regular expression accepts a text in which it finds what it searches for. -/
def Accepts (regex text : Bytes) : Prop :=
  ∃ s, read (Utf8.codePoints regex) = some s ∧ s.Finds (Utf8.codePoints text)

/-- What may stand on one side of the part that a search finds. -/
def gap (anchored : Bool) : List Item :=
  if anchored then [] else [.anySequence]

theorem accepts_gap_iff {rule : CaseRule} {anchored : Bool} :
    Item.Accepts rule (gap anchored) text ↔ (anchored = true → text = []) := by
  cases anchored <;> simp [gap, Item.Takes]

theorem Search.finds_iff (s : Search) :
    s.Finds text ↔ Item.Accepts .heeded (gap s.atStart ++ (s.items ++ gap s.atEnd)) text := by
  simp only [Item.accepts_append_iff, accepts_gap_iff]
  constructor
  · rintro ⟨front, middle, back, rfl, hfront, hback, hmiddle⟩
    exact ⟨front, middle ++ back, by simp, hfront, middle, back, rfl, hmiddle, hback⟩
  · rintro ⟨front, _, rfl, hfront, middle, back, rfl, hmiddle, hback⟩
    exact ⟨front, middle, back, by simp, hfront, hback, hmiddle⟩

theorem anchored_inj {others : List Item} (h : anchored items = anchored others) : items = others := by
  have hread : read (framed true true items) = read (framed true true others) := congrArg read h
  rw [read_framed, read_framed] at hread
  exact (Search.mk.inj (Option.some.inj hread)).2.2

/-- Leaves out the anchor at the end together with a `.*` beside it. -/
def cutEnd (regex : List CodePoint) : List CodePoint :=
  if (Utf8.ascii ".*$").isSuffixOf regex then regex.take (regex.length - 3) else regex

theorem loosen_eq (regex : List CodePoint) :
    loosen regex =
      if regex = Utf8.ascii "^.*$" then []
      else if (Utf8.ascii "^.*").isPrefixOf regex then (cutEnd regex).drop 3
      else cutEnd regex := rfl

theorem exists_cutEnd_eq (items : List Item) :
    ∃ atEnd body, items = body ++ gap atEnd ∧ cutEnd (anchored items) = framed true atEnd body := by
  rw [cutEnd]
  split
  · rename_i htail
    obtain ⟨front, rfl⟩ := exists_append_of_suffix (List.isSuffixOf_iff_suffix.mp htail)
    refine ⟨false, front, rfl, ?_⟩
    have hsplit : anchored (front ++ [.anySequence]) =
        framed true false front ++ [0x2E, 0x2A, 0x24] := by
      simp [anchored, framed, item]
    rw [hsplit]
    exact List.take_left' (by simp)
  · exact ⟨true, items, (List.append_nil items).symm, rfl⟩

/-- The regular expression of a pattern is that of some of its items with some anchors. Where an anchor is
missing, an item that takes any run of characters is missing too; both anchors may be missing for one item. -/
theorem exists_framed (items : List Item) :
    ∃ atStart atEnd middle, codePoints items = framed atStart atEnd middle ∧
      (items = gap atStart ++ (middle ++ gap atEnd) ∨
        items = [.anySequence] ∧ atStart = false ∧ middle = [] ∧ atEnd = false) := by
  rw [codePoints, loosen_eq]
  split
  · rename_i hall
    have hanchored : anchored items = anchored [.anySequence] := hall.trans (by decide)
    exact ⟨false, false, [], rfl, .inr ⟨anchored_inj hanchored, rfl, rfl, rfl⟩⟩
  · rename_i hall
    obtain ⟨atEnd, body, hitems, hcut⟩ := exists_cutEnd_eq items
    rw [hcut]
    split
    · rename_i hhead
      obtain ⟨rest, hrest⟩ := exists_cons_of_prefix (List.isPrefixOf_iff_prefix.mp hhead)
      obtain ⟨middle, rfl⟩ : ∃ middle, body = .anySequence :: middle := by
        cases body with
        | cons i middle => exact ⟨middle, by rw [(List.cons.inj (hitems.symm.trans hrest)).1]⟩
        | nil =>
          -- the two ends would share the only item
          cases atEnd with
          | true => exact absurd (hitems.symm.trans hrest) (by simp [gap])
          | false => exact absurd (by rw [hitems]; decide) hall
      exact ⟨false, atEnd, middle, rfl, .inl hitems⟩
    · exact ⟨true, atEnd, body, rfl, .inl hitems⟩

/-- What is left out of a regular expression is made up for by the gaps that a search leaves there. -/
theorem codePoints_eq_framed (items : List Item) :
    ∃ atStart atEnd middle, codePoints items = framed atStart atEnd middle ∧
      ∀ {rule : CaseRule} {text : List CodePoint}, Item.Accepts rule items text ↔
        Item.Accepts rule (gap atStart ++ (middle ++ gap atEnd)) text := by
  obtain ⟨atStart, atEnd, middle, hcodePoints, hitems | ⟨rfl, rfl, rfl, rfl⟩⟩ := exists_framed items
  · exact ⟨atStart, atEnd, middle, hcodePoints, by rw [hitems]⟩
  · refine ⟨false, false, [], hcodePoints, fun {rule text} => ⟨fun h => ?_, fun _ => ?_⟩⟩
    · exact Item.accepts_cons_iff.mpr ⟨[], text, rfl, trivial, h⟩
    · exact Item.accepts_singleton_iff.mpr trivial

/-- The regular expression of items finds what the items accept. -/
theorem exists_read_codePoints (items : List Item) :
    ∃ s, read (codePoints items) = some s ∧
      ∀ text, s.Finds text ↔ Item.Accepts .heeded items text := by
  obtain ⟨atStart, atEnd, middle, hcodePoints, hiff⟩ := codePoints_eq_framed items
  refine ⟨⟨atStart, atEnd, middle⟩, ?_, fun text => ?_⟩
  · rw [hcodePoints, read_framed]
  · rw [Search.finds_iff, hiff]

theorem cutEnd_subset (regex : List CodePoint) : cutEnd regex ⊆ regex := by
  rw [cutEnd]
  split
  · exact List.take_subset _ _
  · exact List.Subset.refl _

theorem loosen_subset (regex : List CodePoint) : loosen regex ⊆ regex := by
  rw [loosen_eq]
  split
  · exact List.nil_subset _
  · split
    · exact List.Subset.trans (List.drop_subset _ _) (cutEnd_subset regex)
    · exact cutEnd_subset regex

theorem isCodePoint_char {c : CodePoint} (h : Utf8.IsCodePoint c) :
    ∀ d ∈ char c, Utf8.IsCodePoint d := by
  have hescape : Utf8.IsCodePoint 0x5C := by decide
  rw [char]
  split <;> simp [h, hescape]

theorem isCodePoint_listChar {c : CodePoint} (h : Utf8.IsCodePoint c) :
    ∀ d ∈ listChar c, Utf8.IsCodePoint d := by
  rw [listChar]
  split
  · decide
  · split
    · decide
    · split
      · decide
      · exact isCodePoint_char h

theorem isCodePoint_member {m : Member} (h : ∀ c ∈ m.characters, Utf8.IsCodePoint c) :
    ∀ d ∈ member m, Utf8.IsCodePoint d := by
  cases m with
  | single c => exact isCodePoint_listChar (h c (by simp [Member.characters]))
  | range lo hi =>
    rw [member, List.forall_mem_append, List.forall_mem_cons]
    exact ⟨isCodePoint_listChar (h lo (by simp [Member.characters])), by decide,
      isCodePoint_listChar (h hi (by simp [Member.characters]))⟩

theorem isCodePoint_item {i : Item} (h : ∀ c ∈ i.characters, Utf8.IsCodePoint c) :
    ∀ d ∈ item i, Utf8.IsCodePoint d := by
  cases i with
  | literal c => exact isCodePoint_char (h c (by simp [Item.characters]))
  | anyOne => decide
  | anySequence => decide
  | oneOf members =>
    rw [item, List.forall_mem_append, List.forall_mem_cons, List.forall_mem_singleton]
    refine ⟨⟨by decide, fun d hd => ?_⟩, by decide⟩
    obtain ⟨m, hm, hd⟩ := List.mem_flatMap.mp hd
    exact isCodePoint_member (fun c hc => h c (List.mem_flatMap.mpr ⟨m, hm, hc⟩)) d hd

/-- The regular expression of items without invalid characters has none. -/
theorem isCodePoint_of_mem_codePoints (h : ∀ c ∈ items.flatMap Item.characters, Utf8.IsCodePoint c) :
    ∀ c ∈ codePoints items, Utf8.IsCodePoint c := by
  intro c hc
  have hmem : c ∈ 0x5E :: (items.flatMap item ++ [0x24]) := loosen_subset (anchored items) hc
  rw [List.mem_cons, List.mem_append, List.mem_singleton] at hmem
  rcases hmem with rfl | hmem | rfl
  · decide
  · obtain ⟨i, hi, hmem⟩ := List.mem_flatMap.mp hmem
    exact isCodePoint_item (fun c hc => h c (List.mem_flatMap.mpr ⟨i, hi, hc⟩)) c hmem
  · decide

end Rendering.Regex

namespace Rendering

open Regex

/-- A pattern without invalid bytes accepts the texts that its regular expression accepts. -/
theorem regex_accepts_iff {pattern : Bytes} {items : List Item} (h : Pattern.parse pattern = .ok items)
    (hvalid : Utf8.invalid ∉ Utf8.codePoints pattern) {options : Options}
    (hcase : options.ignoreCase = false) (locale : Locale) :
    ∃ expression a, regex pattern = .ok expression ∧
      Automaton.compile pattern options locale = .ok a ∧
      ∀ text : Bytes, Accepts expression text ↔ a.accepts text = true := by
  have hchars : ∀ c ∈ items.flatMap Item.characters, Utf8.IsCodePoint c := by
    intro c hc
    have hmem := Pattern.characters_of_parse h hc
    refine Utf8.isCodePoint_of_mem_codePoints hmem ?_
    rintro rfl
    exact hvalid hmem
  have hwritten : Utf8.codePoints (Utf8.encodeAll (codePoints items)) = codePoints items :=
    Utf8.codePoints_encodeAll (isCodePoint_of_mem_codePoints hchars)
  obtain ⟨s, hread, hfinds⟩ := exists_read_codePoints items
  refine ⟨_, _, by rw [regex, h]; rfl, Automaton.compile_eq_ok h options locale, fun text => ?_⟩
  refine Iff.trans ?_ (Automaton.runOn_ofItems_iff h Scratch.balanced_fresh).symm
  rw [Item.accepts_iff_heeded hcase, ← hfinds, Accepts, Function.comp_apply, hwritten, hread]
  constructor
  · rintro ⟨s', hs', h⟩
    rwa [Option.some.inj hs']
  · exact fun h => ⟨s, rfl, h⟩

/-- In the pattern `*.[]-]?$*` both ends are left out, and what stands beside them is escaped. -/
theorem regex_accepts_iff_both_ends :
    ∃ items, Pattern.parse (Bytes.ascii "*.[]-]?$*") = .ok items ∧
      Utf8.invalid ∉ Utf8.codePoints (Bytes.ascii "*.[]-]?$*") ∧ Options.none.ignoreCase = false ∧
      ∃ a, Automaton.compile (Bytes.ascii "*.[]-]?$*") .none .classic = .ok a ∧
        ∀ text : Bytes, Accepts (Bytes.ascii "\\.[\\]\\x2d].\\$") text ↔ a.accepts text = true := by
  have h : Pattern.parse (Bytes.ascii "*.[]-]?$*") =
      .ok [.anySequence, .literal 0x2E, .oneOf [.single 0x5D, .single 0x2D], .anyOne, .literal 0x24,
        .anySequence] := by decide +kernel
  have hvalid : Utf8.invalid ∉ Utf8.codePoints (Bytes.ascii "*.[]-]?$*") := by decide +kernel
  have hregex : regex (Bytes.ascii "*.[]-]?$*") = .ok (Bytes.ascii "\\.[\\]\\x2d].\\$") := by
    decide +kernel
  obtain ⟨expression, a, hexpression, ha, hiff⟩ :=
    regex_accepts_iff h hvalid Options.ignoreCase_none .classic
  obtain rfl := Except.ok.inj (hexpression.symm.trans hregex)
  exact ⟨_, h, hvalid, Options.ignoreCase_none, a, ha, hiff⟩

end Rendering

end NameGlob
