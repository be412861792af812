import NameGlob.Pattern.Reading

/-!
# Items of a pattern

A pattern that is read to its end gives its items, and its flat account is theirs. The bracket lists
among them have members, and none of their ranges ends below its beginning.
-/

namespace NameGlob

/-- A range does not end below its beginning. -/
def Member.Proper : Member → Prop
  | .single _ => True
  | .range lo hi => lo ≤ hi

/-- A bracket list has members, and they are proper. -/
def Item.Proper : Item → Prop
  | .oneOf members => members ≠ [] ∧ ∀ m ∈ members, m.Proper
  | _ => True

namespace Pattern

theorem proper_of_mem_readMembers {symbols : List Symbol} :
    ∀ m ∈ (readMembers symbols).members, m.Proper := by
  fun_induction readMembers symbols with
  | case1 => simp
  | case2 => simp
  | case3 lo dash hi rest _ hle ih =>
    intro m hm
    rcases List.mem_cons.mp hm with rfl | hm
    · exact Int.not_lt.mp hle
    · exact ih m hm
  | case4 lo dash hi rest _ ih =>
    intro m hm
    rcases List.mem_cons.mp hm with rfl | hm
    · trivial
    · exact ih m hm
  | case5 s rest _ ih =>
    intro m hm
    rcases List.mem_cons.mp hm with rfl | hm
    · trivial
    · exact ih m hm

theorem members_ne_nil {symbols : List Symbol} (hne : symbols ≠ [])
    (hsound : (readMembers symbols).inverted = none) : (readMembers symbols).members ≠ [] := by
  fun_cases readMembers symbols with
  | case1 => exact absurd rfl hne
  | case2 lo dash hi rest hdash hlt =>
    rw [readMembers, if_pos hdash, if_pos hlt] at hsound
    simp at hsound
  | case3 => simp [MemberReading.cons]
  | case4 => simp [MemberReading.cons]
  | case5 => simp [MemberReading.cons]

theorem proper_of_mem_readSymbols {list? : Option OpenList} {symbols : List Symbol} :
    ∀ item ∈ (readSymbols list? symbols).items, item.Proper := by
  induction symbols generalizing list? with
  | nil => cases list? <;> simp [readSymbols, Reading.done, Reading.fail]
  | cons s rest ih =>
    cases list? with
    | none =>
      rw [readSymbols]
      split
      · exact ih
      · intro item hitem
        rcases List.mem_cons.mp hitem with rfl | hitem
        · unfold itemOf
          split
          · trivial
          · split <;> trivial
        · exact ih item hitem
    | some list =>
      rw [readSymbols]
      split
      · rename_i hclose
        dsimp only
        split
        · simp [Reading.fail]
        · rename_i hsound
          have hne : list.symbols.reverse ≠ [] := by simp_all
          intro item hitem
          rcases List.mem_cons.mp hitem with rfl | hitem
          · exact ⟨members_ne_nil hne hsound, proper_of_mem_readMembers⟩
          · exact ih item hitem
      · exact ih

theorem parse_eq_ok_iff {pattern : Bytes} {items : List Item} :
    parse pattern = .ok items ↔ read pattern = ⟨items, none⟩ := by
  unfold parse
  cases hread : read pattern with
  | mk items' fault => cases fault <;> simp

theorem trace_of_parse {pattern : Bytes} {items : List Item} (h : parse pattern = .ok items)
    (options : Options) :
    trace pattern options = .start pattern options :: items.flatMap Item.events ++ [.finish] := by
  simp [trace, parse_eq_ok_iff.mp h, Reading.events]

/-- The items of a pattern are proper. -/
theorem proper_of_parse {pattern : Bytes} {items : List Item} (h : parse pattern = .ok items) :
    ∀ item ∈ items, item.Proper := by
  have hread : readSymbols none (Symbol.ofPattern pattern) = ⟨items, none⟩ := parse_eq_ok_iff.mp h
  have hproper := @proper_of_mem_readSymbols none (Symbol.ofPattern pattern)
  rwa [hread] at hproper

end Pattern

end NameGlob
