import NameGlob.Rendering.Basic
import NameGlob.Proofs.Automaton.Verdict
import NameGlob.Proofs.Case.Preservation
import NameGlob.Proofs.Pattern.Characters

/-!
# DOS patterns match what their patterns match

DOS cannot quote, so every `*` of a DOS pattern is any run, every `?` one character, and everything else itself.
Each item of a pattern is written as one character, and what is read back for it takes at least the segments of
the item: a quoted wildcard comes back active, a bracket list as one arbitrary character. So no match is lost,
and none is added where neither occurs.
-/

namespace NameGlob

namespace Rendering.Dos

/-- The item that a character stands for. -/
def charItem (c : CodePoint) : Item :=
  if c = 0x2A then .anySequence
  else if c = 0x3F then .anyOne
  else .literal c

/-- Reads a DOS pattern as the items that it stands for. -/
def read (cs : List CodePoint) : List Item :=
  cs.map charItem

/-- A DOS pattern accepts the texts of the items that it stands for. -/
def Accepts (dosPattern text : Bytes) : Prop :=
  Item.Accepts .heeded (read (Utf8.codePoints dosPattern)) (Utf8.codePoints text)

/-- The item as it is read back: a literal wildcard is active, and a bracket list is one arbitrary character. -/
def widened : Item → Item
  | .literal c => charItem c
  | .oneOf _ => .anyOne
  | i => i

variable {items : List Item} {rule : CaseRule}

theorem charItem_item (i : Item) : charItem (item i) = widened i := by
  cases i <;> rfl

/-- The items of a pattern are read back widened. -/
theorem read_codePoints (items : List Item) : read (codePoints items) = items.map widened := by
  rw [read, codePoints, List.map_map]
  exact List.map_congr_left fun i _ => charItem_item i

-- the quotes of the wildcards are lost, and so is the list
example : read (codePoints [.literal 0x2A, .literal 0x5B, .oneOf [.single 0x61], .literal 0x60]) =
    [.anySequence, .literal 0x5B, .anyOne, .literal 0x60] := by decide

/-- A character that is read as a wildcard takes more than the literal does. -/
theorem takes_charItem {c : CodePoint} {segment : List CodePoint} (h : (Item.literal c).Takes rule segment) :
    (charItem c).Takes rule segment := by
  unfold charItem
  split
  · trivial
  · split
    · obtain ⟨d, hsegment, -⟩ := h
      exact ⟨d, hsegment⟩
    · exact h

/-- An item takes more once it is widened. -/
theorem takes_widened {i : Item} {segment : List CodePoint} (h : i.Takes rule segment) :
    (widened i).Takes rule segment := by
  cases i with
  | literal c => exact takes_charItem h
  | anyOne => exact h
  | anySequence => exact h
  | oneOf members =>
    obtain ⟨c, hsegment, -⟩ := h
    exact ⟨c, hsegment⟩

/-- Without bracket lists and literal wildcards nothing is widened. -/
theorem map_widened (hlists : ∀ members, .oneOf members ∉ items) (hstar : .literal 0x2A ∉ items)
    (hone : .literal 0x3F ∉ items) : items.map widened = items := by
  have hsame : ∀ i ∈ items, widened i = id i := by
    intro i hi
    cases i with
    | literal c =>
      have hc : c ≠ 0x2A ∧ c ≠ 0x3F := ⟨fun heq => hstar (heq ▸ hi), fun heq => hone (heq ▸ hi)⟩
      rw [widened, charItem, if_neg hc.1, if_neg hc.2, id]
    | anyOne => rfl
    | anySequence => rfl
    | oneOf members => exact absurd hi (hlists members)
  rw [List.map_congr_left hsame, List.map_id]

theorem isCodePoint_item {i : Item} (h : ∀ c ∈ i.characters, Utf8.IsCodePoint c) :
    Utf8.IsCodePoint (item i) := by
  cases i with
  | literal c => exact h c List.mem_cons_self
  | anyOne => decide
  | anySequence => decide
  | oneOf members => exact (by decide : Utf8.IsCodePoint 0x3F)

/-- A DOS pattern accepts what its items accept once they are widened. -/
theorem accepts_encodeAll_iff (h : ∀ c ∈ items.flatMap Item.characters, Utf8.IsCodePoint c) (text : Bytes) :
    Accepts (Utf8.encodeAll (codePoints items)) text ↔
      Item.Accepts .heeded (items.map widened) (Utf8.codePoints text) := by
  have hvalid : ∀ c ∈ codePoints items, Utf8.IsCodePoint c := by
    rw [codePoints, List.forall_mem_map]
    rw [List.forall_mem_flatMap] at h
    exact fun i hi => isCodePoint_item (h i hi)
  rw [Accepts, Utf8.codePoints_encodeAll hvalid, read_codePoints]

end Rendering.Dos

namespace Rendering

open Dos

/-- The DOS pattern of a pattern without invalid bytes accepts all texts that the pattern accepts. It accepts no
others when the pattern has neither a bracket list nor a literal `*` or `?`. -/
theorem dos_keeps_matches {pattern : Bytes} {items : List Item} (h : Pattern.parse pattern = .ok items)
    (hvalid : Utf8.invalid ∉ Utf8.codePoints pattern) {options : Options}
    (hcase : options.ignoreCase = false) (locale : Locale) :
    ∃ dosPattern a, dos pattern = .ok dosPattern ∧ Automaton.compile pattern options locale = .ok a ∧
      (∀ text : Bytes, a.accepts text = true → Accepts dosPattern text) ∧
      ((∀ members, .oneOf members ∉ items) → .literal 0x2A ∉ items → .literal 0x3F ∉ items →
        ∀ text : Bytes, Accepts dosPattern text ↔ a.accepts text = true) := by
  have hpattern : ∀ text : Bytes, (Automaton.ofItems (.of options locale) items).accepts text = true ↔
      Item.Accepts .heeded items (Utf8.codePoints text) :=
    fun text => (Automaton.accepts_ofItems_iff h).trans (Item.accepts_iff_heeded hcase)
  have hdos := accepts_encodeAll_iff (Pattern.isCodePoint_of_parse h hvalid)
  refine ⟨_, _, by rw [dos, h]; rfl, Automaton.compile_eq_ok h options locale,
    fun text haccepted => ?_, fun hlists hstar hone text => ?_⟩
  · rw [Function.comp_apply, hdos]
    exact ((hpattern text).mp haccepted).map fun i _ segment => takes_widened
  · rw [Function.comp_apply, hdos, map_widened hlists hstar hone, hpattern]

/-- The quotes and the list of ``a`*[b-d]`` are lost, and a quoted bracket is kept as it is. -/
theorem dos_keeps_matches_quoted :
    (∃ items, Pattern.parse (Bytes.ascii "a`*[b-d]") = .ok items ∧
      Utf8.invalid ∉ Utf8.codePoints (Bytes.ascii "a`*[b-d]") ∧ Options.none.ignoreCase = false ∧
      ∃ a, Automaton.compile (Bytes.ascii "a`*[b-d]") .none .classic = .ok a ∧
        ∀ text : Bytes, a.accepts text = true → Accepts (Bytes.ascii "a*?") text) ∧
    ∃ items, Pattern.parse (Bytes.ascii "`[?]*") = .ok items ∧
      Utf8.invalid ∉ Utf8.codePoints (Bytes.ascii "`[?]*") ∧ (∀ members, .oneOf members ∉ items) ∧
      .literal 0x2A ∉ items ∧ .literal 0x3F ∉ items ∧
      ∃ a, Automaton.compile (Bytes.ascii "`[?]*") .none .classic = .ok a ∧
        ∀ text : Bytes, Accepts (Bytes.ascii "[?]*") text ↔ a.accepts text = true := by
  constructor
  · have h : Pattern.parse (Bytes.ascii "a`*[b-d]") =
        .ok [.literal 0x61, .literal 0x2A, .oneOf [.range 0x62 0x64]] := by decide +kernel
    have hvalid : Utf8.invalid ∉ Utf8.codePoints (Bytes.ascii "a`*[b-d]") := by decide +kernel
    have hdos : dos (Bytes.ascii "a`*[b-d]") = .ok (Bytes.ascii "a*?") := by decide +kernel
    obtain ⟨dosPattern, a, hmade, ha, hkept, -⟩ :=
      dos_keeps_matches h hvalid Options.ignoreCase_none .classic
    obtain rfl := Except.ok.inj (hmade.symm.trans hdos)
    exact ⟨_, h, hvalid, Options.ignoreCase_none, a, ha, hkept⟩
  · have h : Pattern.parse (Bytes.ascii "`[?]*") =
        .ok [.literal 0x5B, .anyOne, .literal 0x5D, .anySequence] := by decide +kernel
    have hvalid : Utf8.invalid ∉ Utf8.codePoints (Bytes.ascii "`[?]*") := by decide +kernel
    have hdos : dos (Bytes.ascii "`[?]*") = .ok (Bytes.ascii "[?]*") := by decide +kernel
    have hlists : ∀ members, Item.oneOf members ∉
        [.literal 0x5B, .anyOne, .literal 0x5D, .anySequence] := by simp
    obtain ⟨dosPattern, a, hmade, ha, -, hexact⟩ :=
      dos_keeps_matches h hvalid Options.ignoreCase_none .classic
    obtain rfl := Except.ok.inj (hmade.symm.trans hdos)
    exact ⟨_, h, hvalid, hlists, by decide, by decide, a, ha, hexact hlists (by decide) (by decide)⟩

end Rendering

end NameGlob
