import NameGlob.Rendering.Basic
import NameGlob.Proofs.Case.Preservation
import NameGlob.Proofs.Pattern.Wildcards

/-!
# WQL operands match what their patterns match

An operand is read from left to right: `[x]` is the character `x`, `%` any run, `_` one character, and
everything else itself. A rendering writes a `[` only where it quotes a character, so the items of the pattern
are read back, with one arbitrary character in place of each bracket list. Without lists that is the pattern
itself; with lists the operand accepts what the pattern accepts, and maybe more.
-/

namespace NameGlob

namespace Rendering.Wql

/-- The item that a character outside brackets stands for. -/
def charItem (c : CodePoint) : Item :=
  if c = 0x25 then .anySequence
  else if c = 0x5F then .anyOne
  else .literal c

/-- Reads an operand as the items that it stands for. A `[` that begins no `[x]` stands for itself. -/
def read : List CodePoint → List Item
  | c :: d :: e :: rest =>
    if c = 0x5B ∧ e = 0x5D then .literal d :: read rest else charItem c :: read (d :: e :: rest)
  | c :: rest => charItem c :: read rest
  | [] => []

/-- An operand accepts the texts of the items that it stands for. -/
def Accepts (operand text : Bytes) : Prop :=
  Item.Accepts .heeded (read (Utf8.codePoints operand)) (Utf8.codePoints text)

/-- The item, with one arbitrary character in place of a bracket list. -/
def unlisted : Item → Item
  | .oneOf _ => .anyOne
  | i => i

variable {c : CodePoint} {items : List Item} {rule : CaseRule}

theorem read_quoted (c : CodePoint) (rest : List CodePoint) :
    read (0x5B :: c :: 0x5D :: rest) = .literal c :: read rest := by
  rw [read, if_pos ⟨rfl, rfl⟩]

theorem read_plain (h : c ≠ 0x5B) (rest : List CodePoint) :
    read (c :: rest) = charItem c :: read rest := by
  match rest with
  | [] => rfl
  | [d] => rfl
  | d :: e :: rest => rw [read, if_neg fun hquoted => h hquoted.1]

/-- A character that stands for itself is read back, whatever follows it. -/
theorem read_char (c : CodePoint) (rest : List CodePoint) :
    read (char c ++ rest) = .literal c :: read rest := by
  rw [char]
  split
  · exact read_quoted c rest
  · rename_i hplain
    rw [not_or, not_or] at hplain
    rw [List.singleton_append, read_plain hplain.2.2, charItem, if_neg hplain.1, if_neg hplain.2.1]

theorem read_item (i : Item) (rest : List CodePoint) :
    read (item i ++ rest) = unlisted i :: read rest := by
  cases i with
  | literal c => exact read_char c rest
  | anyOne => exact read_plain (by decide) rest
  | anySequence => exact read_plain (by decide) rest
  | oneOf members => exact read_plain (by decide) rest

/-- The items of a pattern are read back, with one arbitrary character in place of each list. -/
theorem read_codePoints (items : List Item) : read (codePoints items) = items.map unlisted := by
  induction items with
  | nil => rfl
  | cons i items ih =>
    rw [codePoints, List.flatMap_cons, read_item, List.map_cons]
    exact congrArg _ ih

-- a `[` that begins no `[x]` stands for itself
example : read (Utf8.ascii "[[]_[%]%[a") =
    [.literal 0x5B, .anyOne, .literal 0x25, .anySequence, .literal 0x5B, .literal 0x61] := by
  decide +kernel

theorem isList_iff {i : Item} : isList i = true ↔ ∃ members, i = .oneOf members := by
  cases i <;> simp [isList]

theorem needsFilter_iff : needsFilter items = true ↔ ∃ members, .oneOf members ∈ items := by
  rw [needsFilter, List.any_eq_true]
  constructor
  · rintro ⟨i, hi, hlist⟩
    obtain ⟨members, rfl⟩ := isList_iff.mp hlist
    exact ⟨members, hi⟩
  · rintro ⟨members, hmem⟩
    exact ⟨_, hmem, rfl⟩

theorem unlisted_of_not_isList {i : Item} (h : ¬ isList i = true) : unlisted i = i := by
  cases i with
  | oneOf members => exact absurd rfl h
  | literal c => rfl
  | anyOne => rfl
  | anySequence => rfl

/-- Without lists nothing is lost. -/
theorem map_unlisted (h : needsFilter items = false) : items.map unlisted = items := by
  rw [needsFilter, List.any_eq_false] at h
  have hsame : ∀ i ∈ items, unlisted i = id i := fun i hi => unlisted_of_not_isList (h i hi)
  rw [List.map_congr_left hsame, List.map_id]

/-- An item takes more without its list. -/
theorem takes_unlisted {i : Item} {segment : List CodePoint}
    (h : i.Takes rule segment) : (unlisted i).Takes rule segment := by
  cases i with
  | oneOf members =>
    obtain ⟨c, hsegment, -⟩ := h
    exact ⟨c, hsegment⟩
  | literal c => exact h
  | anyOne => exact h
  | anySequence => exact h

theorem isCodePoint_item {i : Item} (h : ∀ c ∈ i.characters, Utf8.IsCodePoint c) :
    ∀ d ∈ item i, Utf8.IsCodePoint d := by
  cases i with
  | literal c =>
    have hc : Utf8.IsCodePoint c := h c List.mem_cons_self
    rw [item, char]
    split
    · rw [List.forall_mem_cons, List.forall_mem_cons, List.forall_mem_singleton]
      exact ⟨by decide, hc, by decide⟩
    · exact List.forall_mem_singleton.mpr hc
  | anyOne => decide
  | anySequence => decide
  | oneOf members => exact List.forall_mem_singleton.mpr (by decide)

/-- An operand accepts what its items accept without their lists. -/
theorem accepts_encodeAll_iff (h : ∀ c ∈ items.flatMap Item.characters, Utf8.IsCodePoint c) (text : Bytes) :
    Accepts (Utf8.encodeAll (codePoints items)) text ↔
      Item.Accepts .heeded (items.map unlisted) (Utf8.codePoints text) := by
  have hvalid : ∀ c ∈ codePoints items, Utf8.IsCodePoint c := by
    rw [codePoints, List.forall_mem_flatMap]
    rw [List.forall_mem_flatMap] at h
    exact fun i hi => isCodePoint_item (h i hi)
  rw [Accepts, Utf8.codePoints_encodeAll hvalid, read_codePoints]

end Rendering.Wql

namespace Rendering

open Wql

/-- The operand of a pattern without invalid bytes accepts the texts that the pattern accepts. With bracket
lists, that is where a plain `[` stands in the pattern, it may accept others too. Then the answers have to be
filtered, and the operand alone is refused. -/
theorem wql_exact_or_filtered {pattern : Bytes} {items : List Item} (h : Pattern.parse pattern = .ok items)
    (hvalid : Utf8.invalid ∉ Utf8.codePoints pattern) {options : Options}
    (hcase : options.ignoreCase = false) (locale : Locale) :
    ∃ operand filter a, wql pattern = .ok (operand, filter) ∧
      Automaton.compile pattern options locale = .ok a ∧
      (filter = false → ∀ text : Bytes, Accepts operand text ↔ a.accepts text = true) ∧
      (filter = true → ∀ text : Bytes, a.accepts text = true → Accepts operand text) ∧
      (filter = true ↔ ∃ members, .oneOf members ∈ items) ∧
      (filter = true ↔ ⟨0x5B, false⟩ ∈ Mark.pair (Utf8.codePoints pattern)) ∧
      exactWql pattern = if filter then .error (.inexact ⟨pattern, some wqlName⟩) else .ok operand := by
  have hwql : wql pattern = .ok (Utf8.encodeAll (codePoints items), needsFilter items) := by
    rw [wql, h]
    rfl
  have hpattern : ∀ text : Bytes, (Automaton.ofItems (.of options locale) items).accepts text = true ↔
      Item.Accepts .heeded items (Utf8.codePoints text) :=
    fun text => (Automaton.accepts_ofItems_iff h).trans (Item.accepts_iff_heeded hcase)
  have hoperand := accepts_encodeAll_iff (Pattern.isCodePoint_of_parse h hvalid)
  refine ⟨_, _, _, hwql, Automaton.compile_eq_ok h options locale, fun hexact text => ?_,
    fun _ text haccepted => ?_, needsFilter_iff,
    needsFilter_iff.trans (Pattern.exists_oneOf_of_parse_iff h), ?_⟩
  · rw [hoperand, map_unlisted hexact, hpattern]
  · rw [hoperand]
    exact ((hpattern text).mp haccepted).map fun i _ segment => takes_unlisted
  · rw [exactWql, hwql]

/-- The brackets and the `%` of a quoted `[` with `]%*` behind it stand for themselves. The answers of `[a-c]_`
have to be filtered. -/
theorem wql_exact_or_filtered_brackets :
    (∃ items, Pattern.parse (Bytes.ascii "`[]%*") = .ok items ∧
      Utf8.invalid ∉ Utf8.codePoints (Bytes.ascii "`[]%*") ∧ Options.none.ignoreCase = false ∧
      exactWql (Bytes.ascii "`[]%*") = .ok (Bytes.ascii "[[]][%]%") ∧
      ∃ a, Automaton.compile (Bytes.ascii "`[]%*") .none .classic = .ok a ∧
        ∀ text : Bytes, Accepts (Bytes.ascii "[[]][%]%") text ↔ a.accepts text = true) ∧
    ∃ items, Pattern.parse (Bytes.ascii "[a-c]_") = .ok items ∧
      Utf8.invalid ∉ Utf8.codePoints (Bytes.ascii "[a-c]_") ∧
      exactWql (Bytes.ascii "[a-c]_") = .error (.inexact ⟨Bytes.ascii "[a-c]_", some wqlName⟩) ∧
      ∃ a, Automaton.compile (Bytes.ascii "[a-c]_") .none .classic = .ok a ∧
        ∀ text : Bytes, a.accepts text = true → Accepts (Bytes.ascii "_[_]") text := by
  constructor
  · have h : Pattern.parse (Bytes.ascii "`[]%*") =
        .ok [.literal 0x5B, .literal 0x5D, .literal 0x25, .anySequence] := by decide +kernel
    have hvalid : Utf8.invalid ∉ Utf8.codePoints (Bytes.ascii "`[]%*") := by decide +kernel
    have hwql : wql (Bytes.ascii "`[]%*") = .ok (Bytes.ascii "[[]][%]%", false) := by decide +kernel
    obtain ⟨operand, filter, a, hmade, ha, hexact, -, -, -, hreturned⟩ :=
      wql_exact_or_filtered h hvalid Options.ignoreCase_none .classic
    obtain ⟨rfl, rfl⟩ := Prod.mk.inj (Except.ok.inj (hmade.symm.trans hwql))
    exact ⟨_, h, hvalid, Options.ignoreCase_none, hreturned, a, ha, hexact rfl⟩
  · have h : Pattern.parse (Bytes.ascii "[a-c]_") = .ok [.oneOf [.range 0x61 0x63], .literal 0x5F] := by
      decide +kernel
    have hvalid : Utf8.invalid ∉ Utf8.codePoints (Bytes.ascii "[a-c]_") := by decide +kernel
    have hwql : wql (Bytes.ascii "[a-c]_") = .ok (Bytes.ascii "_[_]", true) := by decide +kernel
    obtain ⟨operand, filter, a, hmade, ha, -, hkept, -, -, hrefused⟩ :=
      wql_exact_or_filtered h hvalid Options.ignoreCase_none .classic
    obtain ⟨rfl, rfl⟩ := Prod.mk.inj (Except.ok.inj (hmade.symm.trans hwql))
    exact ⟨_, h, hvalid, hrefused, a, ha, hkept rfl⟩

end Rendering

end NameGlob
