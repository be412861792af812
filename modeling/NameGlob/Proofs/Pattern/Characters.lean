import NameGlob.Proofs.Pattern.Reading
import NameGlob.Proofs.Text.RoundTrip

/-!
# Characters of items

The items of a pattern are made of characters that stand in the pattern.
-/

namespace NameGlob

/-- The characters that a member of a bracket list is made of. -/
def Member.characters : Member → List CodePoint
  | .single c => [c]
  | .range lo hi => [lo, hi]

def Item.characters : Item → List CodePoint
  | .literal c => [c]
  | .anyOne => []
  | .anySequence => []
  | .oneOf members => members.flatMap Member.characters

namespace Symbol

theorem chars_locate (offset : Nat) (chars : List (CodePoint × Nat)) :
    (locate offset chars).map Prod.fst = chars.map Prod.fst := by
  induction chars generalizing offset with
  | nil => rfl
  | cons char chars ih => simp [locate, ih]

theorem chars_pair_subset (chars : List (CodePoint × Nat)) :
    (pair chars).map Symbol.char ⊆ chars.map Prod.fst := by
  fun_induction pair chars with
  | case1 => exact List.Subset.refl _
  | case2 c offset => exact List.Subset.refl _
  | case3 escape d next rest ih =>
    exact List.subset_cons_of_subset _ (List.cons_subset_cons d ih)
  | case4 c offset d next rest hplain ih => exact List.cons_subset_cons c ih

theorem chars_ofPattern_subset (pattern : Bytes) :
    (ofPattern pattern).map Symbol.char ⊆ Utf8.codePoints pattern := by
  rw [ofPattern]
  split
  · exact List.nil_subset _
  · have hpair := chars_pair_subset (locate 0 (Utf8.chars pattern))
    rwa [chars_locate] at hpair

end Symbol

namespace Pattern

theorem characters_readMembers_subset (symbols : List Symbol) :
    (readMembers symbols).members.flatMap Member.characters ⊆ symbols.map Symbol.char := by
  fun_induction readMembers symbols with
  | case1 => exact List.Subset.refl _
  | case2 => exact List.nil_subset _
  | case3 lo dash hi rest _ _ ih =>
    refine List.cons_subset_cons lo.char (List.subset_cons_of_subset dash.char ?_)
    exact List.cons_subset_cons hi.char ih
  | case4 lo dash hi rest _ ih => exact List.cons_subset_cons lo.char ih
  | case5 s rest _ ih => exact List.cons_subset_cons s.char ih

theorem characters_itemOf_subset (s : Symbol) : (itemOf s).characters ⊆ [s.char] := by
  unfold itemOf
  split
  · exact List.nil_subset _
  · split
    · exact List.nil_subset _
    · exact List.Subset.refl _

/-- The items are made of the symbols of the open list, if there is one, and of the symbols behind it. -/
theorem characters_readSymbols_subset (list? : Option OpenList) (symbols : List Symbol) :
    (readSymbols list? symbols).items.flatMap Item.characters ⊆
      (list?.elim [] OpenList.symbols ++ symbols).map Symbol.char := by
  induction symbols generalizing list? with
  | nil => cases list? <;> exact List.nil_subset _
  | cons s rest ih =>
    cases list? with
    | none =>
      rw [readSymbols]
      split
      · exact List.subset_cons_of_subset s.char (ih (some ⟨s.offset, []⟩))
      · refine List.append_subset.mpr ⟨?_, List.subset_cons_of_subset s.char (ih none)⟩
        exact List.Subset.trans (characters_itemOf_subset s) (List.cons_subset_cons _ (List.nil_subset _))
    | some list =>
      rw [readSymbols]
      split
      · dsimp only
        split
        · exact List.nil_subset _
        · refine List.append_subset.mpr ⟨?_, ?_⟩
          · refine List.Subset.trans (characters_readMembers_subset list.symbols.reverse) ?_
            rw [List.map_reverse, List.reverse_subset, Option.elim_some, List.map_append]
            exact List.subset_append_left _ _
          · have hrest : rest ⊆ list.symbols ++ s :: rest :=
              List.subset_append_of_subset_right _ (List.subset_cons_self s rest)
            exact List.Subset.trans (ih none) (List.map_subset _ hrest)
      · -- the symbol goes from the symbols behind to the front of the open list
        exact List.Subset.trans (ih _) (List.map_subset _ List.perm_middle.symm.subset)

/-- The items of a pattern are made of characters of the pattern. -/
theorem characters_of_parse {pattern : Bytes} {items : List Item} (h : parse pattern = .ok items) :
    items.flatMap Item.characters ⊆ Utf8.codePoints pattern := by
  have hread : readSymbols none (Symbol.ofPattern pattern) = ⟨items, none⟩ := parse_eq_ok_iff.mp h
  have hsymbols := characters_readSymbols_subset none (Symbol.ofPattern pattern)
  rw [hread] at hsymbols
  exact List.Subset.trans hsymbols (Symbol.chars_ofPattern_subset pattern)

/-- The items of a pattern without invalid bytes are made of code points. -/
theorem isCodePoint_of_parse {pattern : Bytes} {items : List Item} (h : parse pattern = .ok items)
    (hvalid : Utf8.invalid ∉ Utf8.codePoints pattern) :
    ∀ c ∈ items.flatMap Item.characters, Utf8.IsCodePoint c := by
  intro c hc
  have hmem := characters_of_parse h hc
  exact Utf8.isCodePoint_of_mem_codePoints hmem fun heq => hvalid (heq ▸ hmem)

end Pattern

end NameGlob
